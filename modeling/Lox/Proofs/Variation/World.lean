import Lox.Evaluation.State
import Lox.Proofs.Ideal.Heap
import Lox.Proofs.Variation.Text

/-!
# Values and heaps of two runs

Two runs of texts that vary from each other hold the same objects at the same places.  Functions in
them vary from each other as their texts do, and the frames of marked scopes bind the one name where
the other run binds the other one.

Whether the frame at a place belongs to a marked scope cannot be told from the frame.  So it is kept
beside the heap, in a **world**.  A world may grow: frames are made and names are bound, but what a
frame was made for, the frame around it and its mark stay what they are (`World.Grows`).

A function only makes sense in a frame that is an activation of the scope that it stands in
(`World.Stands`).
-/

namespace Lox

/-! ## Activations -/

/-- The frame was made for a scope, inside the frame `outer`, and binds the names that are ready. -/
structure Frame.Activates (frame : Frame) (scope : LexicalScope) (outer : FrameRef) : Prop where
  construct : frame.construct = scope.construct
  enclosing : frame.enclosing = some outer
  bound : ∀ name, scope.names.find? name = some .ready → frame.bindings.contains name = true
  reserved : ∀ name, Reserved name → scope.names.contains name = true →
    frame.bindings.contains name = true

/-- The frame is still the same, with more names bound. -/
structure Frame.Persists (frame frame' : Frame) : Prop where
  construct : frame'.construct = frame.construct
  enclosing : frame'.enclosing = frame.enclosing
  bound : ∀ name, frame.bindings.contains name = true → frame'.bindings.contains name = true

/-- The heap of the first run, with its globals, and a mark for each place of a frame. -/
structure World where
  heap : Heap
  globals : FrameRef
  marked : Nat → Bool

namespace World

variable {w w' w'' : World}

/-- The chain of frames from `ref` on activates these scopes one by one, up to the globals. -/
def Chain (w : World) : Context → List Bool → FrameRef → Prop
  | [], [], ref => ref = w.globals
  | scope :: ctx, mark :: marks, ref =>
      ∃ frame outer, w.heap.frames.get? ref.index = some frame ∧ frame.Activates scope outer ∧
        w.marked ref.index = mark ∧ w.Chain ctx marks outer
  | _, _, _ => False

/-- A place in the text may run in this frame. -/
def Stands (w : World) (p : Site) (ref : FrameRef) : Prop := w.Chain p.context p.marks ref

/-- What has become of a world. -/
structure Grows (w w' : World) : Prop where
  globals : w'.globals = w.globals
  frame : ∀ {index frame}, w.heap.frames.get? index = some frame →
    ∃ frame', w'.heap.frames.get? index = some frame' ∧ frame.Persists frame' ∧
      w'.marked index = w.marked index

namespace Grows

theorem refl (w : World) : w.Grows w :=
  ⟨rfl, fun found => ⟨_, found, ⟨rfl, rfl, fun _ bound => bound⟩, rfl⟩⟩

theorem trans (h : w.Grows w') (h' : w'.Grows w'') : w.Grows w'' where
  globals := h'.globals.trans h.globals
  frame := by
    intro index frame found
    obtain ⟨frame', found', persists, marked⟩ := h.frame found
    obtain ⟨frame'', found'', persists', marked'⟩ := h'.frame found'
    exact ⟨frame'', found'', ⟨persists'.construct.trans persists.construct,
      persists'.enclosing.trans persists.enclosing,
      fun name bound => persists'.bound name (persists.bound name bound)⟩, marked'.trans marked⟩

theorem chain (h : w.Grows w') {ctx : Context} {marks : List Bool} {ref : FrameRef}
    (chain : w.Chain ctx marks ref) : w'.Chain ctx marks ref := by
  induction ctx generalizing marks ref with
  | nil =>
    cases marks with
    | nil =>
      obtain rfl := chain
      exact h.globals.symm
    | cons _ _ => exact chain.elim
  | cons scope ctx ih =>
    cases marks with
    | nil => exact chain.elim
    | cons mark marks =>
      obtain ⟨frame, outer, found, activates, marked, chain⟩ := chain
      obtain ⟨frame', found', persists, marked'⟩ := h.frame found
      refine ⟨frame', outer, found', ⟨persists.construct.trans activates.construct,
        persists.enclosing.trans activates.enclosing, ?_, ?_⟩, marked'.trans marked, ih chain⟩
      · exact fun name ready => persists.bound name (activates.bound name ready)
      · exact fun name reserved there => persists.bound name (activates.reserved name reserved there)

theorem stands (h : w.Grows w') {p : Site} {ref : FrameRef} (stands : w.Stands p ref) :
    w'.Stands p ref :=
  h.chain stands

end Grows

/-- The globals are where the outermost level stands. -/
theorem stands_outermost {ref : FrameRef} (same : ref = w.globals) : w.Stands .outermost ref := same

/-- The frame binds a name. -/
def Binds (w : World) (ref : FrameRef) (name : String) : Prop :=
  ∃ frame, w.heap.frames.get? ref.index = some frame ∧ frame.bindings.contains name = true

theorem Grows.binds (h : w.Grows w') {ref : FrameRef} {name : String} (binds : w.Binds ref name) :
    w'.Binds ref name := by
  obtain ⟨frame, found, bound⟩ := binds
  obtain ⟨frame', found', persists, -⟩ := h.frame found
  exact ⟨frame', found', persists.bound name bound⟩

/-- Once a name is bound, what stands behind its declaration may run. -/
theorem Stands.declare {p : Site} {ref : FrameRef} {name : String} (h : w.Stands p ref)
    (bound : w.Binds ref name) : w.Stands (p.declare name .ready) ref := by
  obtain ⟨ctx, marks⟩ := p
  cases ctx with
  | nil => exact h
  | cons scope ctx =>
    cases marks with
    | nil => exact h.elim
    | cons mark marks =>
      obtain ⟨frame, outer, found, activates, rest⟩ := h
      obtain ⟨frame', found', bound⟩ := bound
      rw [found, Option.some.injEq] at found'
      subst found'
      refine ⟨frame, outer, found, ⟨activates.construct, activates.enclosing, ?_, ?_⟩, rest⟩
      · intro name' ready
        rw [Bindings.find?_insert] at ready
        split at ready
        · rename_i same
          exact same ▸ bound
        · exact activates.bound name' ready
      · intro name' reserved there
        rw [Bindings.contains_insert, Bool.or_eq_true, decide_eq_true_iff] at there
        rcases there with same | there
        · exact same ▸ bound
        · exact activates.reserved name' reserved there

/-- An initializer may run where its declaration stands. -/
theorem Stands.initializing {p : Site} {ref : FrameRef} (h : w.Stands p ref) {name : String}
    (user : ¬Reserved name) (initial : Expr) :
    w.Stands (p.declare name (.initializing initial)) ref := by
  obtain ⟨ctx, marks⟩ := p
  cases ctx with
  | nil => exact h
  | cons scope ctx =>
    cases marks with
    | nil => exact h.elim
    | cons mark marks =>
      obtain ⟨frame, outer, found, activates, rest⟩ := h
      refine ⟨frame, outer, found, ⟨activates.construct, activates.enclosing, ?_, ?_⟩, rest⟩
      · intro name' ready
        rw [Bindings.find?_insert] at ready
        split at ready
        · cases ready
        · exact activates.bound name' ready
      · intro name' reserved there
        rw [Bindings.contains_insert, Bool.or_eq_true, decide_eq_true_iff] at there
        rcases there with rfl | there
        · exact (user reserved).elim
        · exact activates.reserved name' reserved there

end World

/-! ## Values -/

/-- Only an instance is bound to `this`, and only a class to `super`. -/
structure Value.Suits (name : String) (a : Value) : Prop where
  this : name = thisName → ∃ object, a = .instance_ object
  super : name = superName → ∃ type, a = .class_ type

theorem Value.Suits.of_not_reserved {name : String} (user : ¬Reserved name) (a : Value) :
    a.Suits name :=
  ⟨fun same => (user (.inl same)).elim, fun same => (user (.inr same)).elim⟩

/-- Every name is bound to what suits it. -/
def Bindings.Suit (b : Bindings Value) : Prop := ∀ name a, b.find? name = some a → a.Suits name

theorem Bindings.suit_empty : (empty : Bindings Value).Suit := fun _ _ found => by cases found

theorem Bindings.Suit.insert {b : Bindings Value} (h : b.Suit) {name : String} {a : Value}
    (suits : a.Suits name) : (b.insert name a).Suit := by
  intro name' a' found
  rw [find?_insert] at found
  split at found
  · rename_i same
    cases found
    exact same ▸ suits
  · exact h name' a' found

section Values

variable (v : Variation) (w : World)

/-- Functions at the same place.  What is around them depends on whether they are methods that are
not bound yet. -/
structure Closure.Varies (around : Site → Function → Site) (c c' : Closure) : Prop where
  declaration : ∃ m p, v.Lines m ∧ w.Stands p c.frame ∧
    c.declaration.Varies v m (around p c.declaration) c'.declaration
  frame : c'.frame = c.frame
  isInitializer : c'.isInitializer = c.isInitializer

/-- A function that can be called. -/
abbrev Closure.VariesBound : Closure → Closure → Prop := Closure.Varies v w fun p _ => p

/-- A method that has to be bound first. -/
abbrev Closure.VariesUnbound : Closure → Closure → Prop := Closure.Varies v w Site.aroundMethod

/-- Class bodies with the same methods. -/
structure ClassBody.Varies (c c' : ClassBody) : Prop where
  identity : c'.identity = c.identity
  name : c'.name = c.name
  methods : ∀ name, Option.Rel (Closure.VariesUnbound v w) (c.methods.find? name)
    (c'.methods.find? name)

/-- Classes with the same methods. -/
def Class.Varies (c c' : Class) : Prop := List.Forall₂ (ClassBody.Varies v w) c.lineage c'.lineage

/-- Values that are the same but for the texts of functions. -/
inductive Value.Varies : Value → Value → Prop
  | nil : Value.Varies .nil .nil
  | boolean (b : Bool) : Value.Varies (.boolean b) (.boolean b)
  | number (x : Float) : Value.Varies (.number x) (.number x)
  | string (s : String) : Value.Varies (.string s) (.string s)
  | function (identity : Identity) {c c' : Closure} (varies : c.VariesBound v w c') :
      Value.Varies (.function identity c) (.function identity c')
  | native (identity : Identity) (native : Native) :
      Value.Varies (.native identity native) (.native identity native)
  | class_ {c c' : Class} (varies : c.Varies v w c') : Value.Varies (.class_ c) (.class_ c')
  | instance_ (fields : InstanceRef) {c c' : Class} (varies : c.Varies v w c') :
      Value.Varies (.instance_ ⟨fields, c⟩) (.instance_ ⟨fields, c'⟩)

/-- Bindings of such values, where names may be changed. -/
def Bindings.Vary (mark : Bool) (b b' : Bindings Value) : Prop :=
  ∀ name, Option.Rel (Value.Varies v w) (b.find? name) (b'.find? (v.rename mark name))

end Values

section Values

variable {v : Variation} {w w' : World}

theorem optionRel_mono {α β : Type} {R R' : α → β → Prop} (imp : ∀ a b, R a b → R' a b)
    {a : Option α} {b : Option β} (h : Option.Rel R a b) : Option.Rel R' a b := by
  cases h with
  | none => exact .none
  | some h => exact .some (imp _ _ h)

theorem Closure.Varies.mono (grows : w.Grows w') {around : Site → Function → Site} {c c' : Closure}
    (h : c.Varies v w around c') : c.Varies v w' around c' := by
  obtain ⟨⟨m, p, lines, stands, varies⟩, frame, isInitializer⟩ := h
  exact ⟨⟨m, p, lines, grows.stands stands, varies⟩, frame, isInitializer⟩

theorem ClassBody.Varies.mono (grows : w.Grows w') {c c' : ClassBody} (h : c.Varies v w c') :
    c.Varies v w' c' :=
  ⟨h.identity, h.name, fun name => optionRel_mono (fun _ _ varies => varies.mono grows) (h.methods name)⟩

theorem Class.Varies.mono (grows : w.Grows w') {c c' : Class} (h : c.Varies v w c') :
    c.Varies v w' c' :=
  h.imp fun _ _ varies => varies.mono grows

theorem Value.Varies.mono (grows : w.Grows w') {a a' : Value} (h : a.Varies v w a') :
    a.Varies v w' a' := by
  cases h with
  | nil => exact .nil
  | boolean b => exact .boolean b
  | number x => exact .number x
  | string s => exact .string s
  | function identity varies => exact .function identity (varies.mono grows)
  | native identity native => exact .native identity native
  | class_ varies => exact .class_ (varies.mono grows)
  | instance_ fields varies => exact .instance_ fields (varies.mono grows)

theorem Bindings.Vary.mono (grows : w.Grows w') {mark : Bool} {b b' : Bindings Value}
    (h : b.Vary v w mark b') : b.Vary v w' mark b' :=
  fun name => optionRel_mono (fun _ _ varies => varies.mono grows) (h name)

theorem Bindings.Vary.contains {mark : Bool} {b b' : Bindings Value} (h : b.Vary v w mark b')
    (name : String) : b'.contains (v.rename mark name) = b.contains name := by
  have same := h name
  unfold Bindings.contains
  generalize b.find? name = a, b'.find? (v.rename mark name) = a' at same
  cases same <;> rfl

theorem Bindings.Vary.insert {mark : Bool} {b b' : Bindings Value} (h : b.Vary v w mark b')
    (name : String) {a a' : Value} (varies : a.Varies v w a') :
    (b.insert name a).Vary v w mark (b'.insert (v.rename mark name) a') := by
  intro name'
  rw [Bindings.find?_insert, Bindings.find?_insert]
  by_cases same : name = name'
  · rw [if_pos same, if_pos (congrArg _ same)]
    exact .some varies
  · rw [if_neg same, if_neg fun eq => same (v.rename_injective mark eq)]
    exact h name'

/-! ### What is the same of values that vary -/

theorem Function.Varies.arity {m : Nat → Nat} {p : Site} {f f' : Function}
    (h : f.Varies v m p f') : f'.arity = f.arity := by
  cases h
  exact List.length_map _

theorem FunctionName.lexeme_relabel (m : Relabeling) (name : FunctionName) :
    (name.relabel m).lexeme = name.lexeme := by
  cases name <;> rfl

theorem Function.Varies.lexeme {m : Nat → Nat} {p : Site} {f f' : Function}
    (h : f.Varies v m p f') : f'.name.lexeme = f.name.lexeme := by
  rw [h.name, FunctionName.lexeme_relabel]

theorem Closure.Varies.arity {around : Site → Function → Site} {c c' : Closure}
    (h : c.Varies v w around c') : c'.arity = c.arity := by
  obtain ⟨m, p, -, -, varies⟩ := h.declaration
  exact varies.arity

namespace Class.Varies

variable {c c' : Class}

theorem own (h : c.Varies v w c') : c.own.Varies v w c'.own := by
  cases h with
  | cons own _ => exact own

theorem findMethod? (h : c.Varies v w c') (name : String) :
    Option.Rel (Closure.VariesUnbound v w) (c.findMethod? name) (c'.findMethod? name) := by
  unfold Class.findMethod?
  unfold Class.Varies at h
  generalize c.lineage = bodies, c'.lineage = bodies' at h
  induction h with
  | nil => exact .none
  | @cons body body' _ _ first _ ih =>
    have methods := first.methods name
    rw [List.findSome?_cons, List.findSome?_cons]
    generalize body.methods.find? name = found, body'.methods.find? name = found' at methods
    cases methods with
    | none => exact ih
    | some varies => exact .some varies

theorem arity (h : c.Varies v w c') : c'.arity = c.arity := by
  have found := h.findMethod? initializerName
  unfold Class.arity
  generalize c.findMethod? initializerName = a, c'.findMethod? initializerName = a' at found
  cases found with
  | none => rfl
  | some varies => exact varies.arity

end Class.Varies

namespace Value.Varies

variable {a a' b b' : Value}

theorem text (h : a.Varies v w a') : a'.text = a.text := by
  cases h with
  | function identity varies =>
    obtain ⟨m, p, -, -, varies⟩ := varies.declaration
    rw [Value.text, Value.text, varies.name]
    cases (Closure.declaration _).name <;> rfl
  | class_ varies => exact varies.own.name
  | instance_ _ varies => exact congrArg (· ++ " instance") varies.own.name
  | _ => rfl

theorem isTruthy (h : a.Varies v w a') : a'.isTruthy = a.isTruthy := by
  cases h <;> rfl

theorem isEqual (h : a.Varies v w a') (h' : b.Varies v w b') : a'.isEqual b' = a.isEqual b := by
  cases h with
  | class_ varies =>
    cases h' with
    | class_ varies' =>
      rw [Value.isEqual, Value.isEqual, varies.own.identity, varies'.own.identity]
    | _ => rfl
  | _ => cases h' <;> rfl

end Value.Varies

end Values

end Lox
