import Lox.Proofs.Variation.Actions

/-!
# Calls in step

What is made at run time is made in both runs: frames, instances, functions and bound methods.  A call
runs the body of a function in a frame that activates its scope.  The scope is marked in the text, and
with it the frame (`Eval.Vary.newFrame`).
-/

namespace Lox

open Evaluation

namespace World

variable {w : World}

/-- Inside a scope there may run what stands there, in a frame that activates it. -/
theorem Stands.enter {p : Site} {ref outer : FrameRef} {scope : LexicalScope} {mark : Bool} {frame : Frame}
    (h : w.Stands p outer) (found : w.heap.frames.get? ref.index = some frame)
    (activates : frame.Activates scope outer) (marked : w.marked ref.index = mark) :
    w.Stands (p.enter scope mark) ref :=
  ⟨frame, outer, found, activates, marked, h⟩

/-- A frame that binds what its scope declares activates it. -/
theorem Made.stands {p : Site} {ref outer : FrameRef} {scope : LexicalScope} {mark : Bool}
    (h : w.Made ref outer scope.construct mark) (stands : w.Stands p outer)
    (bound : ∀ name, scope.names.contains name = true → w.Binds ref name) :
    w.Stands (p.enter scope mark) ref := by
  obtain ⟨frame, found, same, encloses, marked⟩ := h
  have binds name (declared : scope.names.contains name = true) :
      frame.bindings.contains name = true := by
    obtain ⟨frame', found', binds⟩ := bound name declared
    rw [found, Option.some.injEq] at found'
    exact found' ▸ binds
  refine stands.enter found ⟨same, encloses, fun name ready => binds name ?_, fun name _ => binds name⟩
    marked
  rw [Bindings.contains, ready]
  rfl

/-- A scope with one name in it. -/
theorem Made.stands_keyword {p : Site} {ref outer : FrameRef} {construct : Construct} {name : String}
    (h : w.Made ref outer construct false) (stands : w.Stands p outer) (bound : w.Binds ref name) :
    w.Stands (p.enter ⟨construct, Bindings.empty.insert name .ready⟩ false) ref := by
  let scope : LexicalScope := ⟨construct, Bindings.empty.insert name .ready⟩
  have made : w.Made ref outer scope.construct false := h
  refine made.stands stands fun name' declared => ?_
  rw [Bindings.contains_insert, Bool.or_eq_true, decide_eq_true_iff] at declared
  rcases declared with rfl | impossible
  · exact bound
  · cases impossible

end World

/-- Nothing is declared but the parameters. -/
theorem Context.mem_of_contains_parameters {names : List Ident} {name : String}
    (h : (Context.parameters names).contains name = true) : ∃ p ∈ names, p.lexeme = name := by
  by_contra other
  rw [contains_parameters fun p mem same => other ⟨p, mem, same⟩] at h
  cases h

theorem Function.Varies.names {v : Variation} {m : Nat → Nat} {p : Site} {f f' : Function}
    (h : f.Varies v m p f') : (Node.function f).Names .scanned := by
  cases h with
  | mk part _ _ => exact (v.right _ _ part).names

/-- A function that a statement declares has no reserved name. -/
theorem Function.Varies.not_reserved {v : Variation} {m : Nat → Nat} {p : Site} {f f' : Function}
    (h : f.Varies v m p f') : ¬Reserved f.name.lexeme := by
  have names := h.names.1
  cases named : f.name with
  | named name => exact (names name named).not_reserved
  | anonymous _ => exact show ¬Reserved "" by decide

namespace Eval.Vary

variable {α β : Type} {v : Variation} {marked : Nat → Bool} {st st' : State}

/-! ## What is made -/

theorem newFrame (varies : st.Varies v marked st') (enclosing : FrameRef)
    (construct construct' : Construct) (mark : Bool) :
    Vary v marked (fun w ref ref' => ref' = ref ∧ w.Made ref enclosing construct mark)
      (make (·.newFrame (some enclosing) construct)) (make (·.newFrame (some enclosing) construct'))
      st st' := by
  obtain ⟨same, made⟩ := varies.heap.newFrame enclosing construct construct' mark
  have free : st.heap.frames.free = [] := varies.heap.frames.free
  have grows := World.grows_withFrame (w := st.world marked) free enclosing construct mark
  exact of_done rfl rfl (varies.abreast.withHeap made grows)
    ⟨same, World.made_withFrame (w := st.world marked) free enclosing construct mark⟩

theorem newInstance (varies : st.Varies v marked st') :
    Vary v marked (fun _ ref ref' => ref' = ref) (make Heap.newInstance) (make Heap.newInstance)
      st st' := by
  obtain ⟨same, made⟩ := varies.heap.newInstance
  exact of_done rfl rfl (varies.abreast.withHeap made (World.grows_of_frames rfl)) same

theorem newIdentity (varies : st.Varies v marked st') :
    Vary v marked (fun _ identity identity' => identity' = identity) (make Heap.newIdentity)
      (make Heap.newIdentity) st st' := by
  obtain ⟨same, made⟩ := varies.heap.newIdentity
  exact of_done rfl rfl (varies.abreast.withHeap made (World.grows_of_frames rfl)) same

/-- A function is made in the current frame. -/
theorem closed (varies : st.Varies v marked st') (decl decl' : Function) :
    Vary v marked
      (fun _ a a' => ∃ identity, a = .function identity ⟨decl, st.current, false⟩ ∧
        a' = .function identity ⟨decl', st.current, false⟩)
      (Eval.close decl) (Eval.close decl') st st' := by
  refine bind_of_ok rfl rfl varies.abreast (bind (newIdentity varies) ?_)
  rintro marked₁ st₁ st₁' _ identity abreast rfl
  refine pure abreast.varies ⟨_, rfl, ?_⟩
  rw [varies.current]

theorem close (varies : st.Varies v marked st') {m : Nat → Nat} {p : Site} {decl decl' : Function}
    (lines : v.Lines m) (stands : (st.world marked).Stands p st.current)
    (same : decl.Varies v m p decl') :
    Vary v marked (Value.Varies v) (Eval.close decl) (Eval.close decl') st st' := by
  refine (closed varies decl decl').growing.mono ?_
  rintro w _ _ ⟨grows, identity, rfl, rfl⟩
  exact .function identity ⟨⟨m, p, lines, grows.stands stands, same⟩, rfl, rfl⟩

/-- A function is bound to its name, which its own body may refer to. -/
theorem defineFunction (varies : st.Varies v marked st') {m : Nat → Nat} {p : Site}
    {decl decl' : Function} (lines : v.Lines m) (stands : (st.world marked).Stands p st.current)
    (fixed : v.rename p.mark decl.name.lexeme = decl.name.lexeme)
    (same : decl.Varies v m (p.after (.function decl)) decl') (identity : Identity) :
    Vary v marked (fun w _ _ => w.Binds st.current decl.name.lexeme)
      (Eval.define decl.name.lexeme (.function identity ⟨decl, st.current, false⟩))
      (Eval.define decl'.name.lexeme (.function identity ⟨decl', st.current, false⟩)) st st' := by
  let a : Value := .function identity ⟨decl, st.current, false⟩
  let a' : Value := .function identity ⟨decl', st.current, false⟩
  let w := (st.world marked).on (st.heap.bindVariable st.current decl.name.lexeme a)
  have grows : (st.world marked).Grows w := World.grows_bindVariable ..
  have recursive (binds : w.Binds st.current decl.name.lexeme) : a.Varies v w a' := by
    have bound name (mem : name ∈ (Stmt.function decl).declares) : w.Binds st.current name := by
      obtain ⟨name', _, _⟩ := decl
      cases name' with
      | named name' => cases mem; exact binds
      | anonymous _ => cases mem
    exact .function identity ⟨⟨m, _, lines, (grows.stands stands).after bound, same⟩, rfl, rfl⟩
  have defined := define_of_binds varies stands same.not_reserved recursive
  rw [fixed] at defined
  rw [same.lexeme]
  exact defined

/-- A method is bound, in a frame that binds `this`. -/
theorem bindMethod (varies : st.Varies v marked st') {c c' : Closure} {fields : InstanceRef}
    {type type' : Class} (same : c.VariesUnbound v (st.world marked) c')
    (same' : type.Varies v (st.world marked) type') :
    Vary v marked
      (fun w closure closure' => closure.VariesBound v w closure' ∧ closure.arity = c.arity)
      (make (·.bindMethod c ⟨fields, type⟩)) (make (·.bindMethod c' ⟨fields, type'⟩)) st st' := by
  -- Binding a method is to make a frame and to bind a variable in it.
  change Vary v marked _
    (make (·.newFrame (some c.frame) (.self c.declaration)) >>= fun frame =>
      changeHeap (·.bindVariable frame thisName (.instance_ ⟨fields, type⟩)) >>= fun _ =>
        Pure.pure { c with frame := frame })
    (make (·.newFrame (some c'.frame) (.self c'.declaration)) >>= fun frame =>
      changeHeap (·.bindVariable frame thisName (.instance_ ⟨fields, type'⟩)) >>= fun _ =>
        Pure.pure { c' with frame := frame }) st st'
  rw [same.frame]
  refine bind (newFrame varies c.frame _ _ false) ?_
  rintro marked₁ st₁ st₁' _ ref abreast ⟨rfl, frame, found, made⟩
  have object := Value.Varies.instance_ fields (same'.mono abreast.grows)
  have suits : (Value.instance_ ⟨fields, type⟩).Suits thisName :=
    ⟨fun _ => ⟨_, rfl⟩, fun same => absurd same (by decide)⟩
  have bound := changeVariable abreast.varies (rfl : marked₁ ref.index = _) suits
    (object.mono (World.grows_bindVariable ..))
  rw [v.rename_this] at bound
  refine bind bound ?_
  rintro marked₂ st₂ st₂' - - abreast' binds
  obtain ⟨m, p, lines, stands, declared⟩ := same.declaration
  have made := abreast'.grows.made ⟨frame, found, made⟩
  have stands := (abreast.grows.trans abreast'.grows).stands stands
  refine pure abreast'.varies ⟨⟨⟨m, _, lines, ?_, declared⟩, rfl, same.isInitializer⟩, rfl⟩
  exact made.stands_keyword stands (binds frame found)

/-- A bound method as a value. -/
theorem boundMethod (varies : st.Varies v marked st') {c c' : Closure} {fields : InstanceRef}
    {type type' : Class} (same : c.VariesUnbound v (st.world marked) c')
    (same' : type.Varies v (st.world marked) type') :
    Vary v marked (Value.Varies v) (make (·.boundMethod c ⟨fields, type⟩))
      (make (·.boundMethod c' ⟨fields, type'⟩)) st st' := by
  change Vary v marked _
    (make (·.bindMethod c ⟨fields, type⟩) >>= fun closure => make Heap.newIdentity >>= fun identity =>
      Pure.pure (Value.function identity closure))
    (make (·.bindMethod c' ⟨fields, type'⟩) >>= fun closure => make Heap.newIdentity >>= fun identity =>
      Pure.pure (Value.function identity closure)) st st'
  refine bind (bindMethod varies same same') fun abreast bound => ?_
  refine bind (newIdentity abreast.varies) ?_
  rintro marked₂ st₂ st₂' _ identity abreast' rfl
  exact pure abreast'.varies (.function _ (bound.1.mono abreast'.grows))

/-! ## Properties -/

theorem property (varies : st.Varies v marked st') {m : Nat → Nat} (lines : v.Lines m)
    {fields : InstanceRef} {type type' : Class} (same : type.Varies v (st.world marked) type')
    (name : Ident) :
    Vary v marked (Value.Varies v) (Eval.property ⟨fields, type⟩ name)
      (Eval.property ⟨fields, type'⟩ (name.relabel (.lines m))) st st' := by
  refine inspect_bind varies (varies.heap.findProperty fields same name.lexeme) fun found found' h => ?_
  cases h with
  | none => exact fail varies lines (.refl trivial)
  | some h =>
    cases h with
    | field value => exact pure varies value
    | method method => exact boundMethod varies method same

theorem setField (varies : st.Varies v marked st') {fields : InstanceRef} {type type' : Class}
    (name : String) {a a' : Value} (same : a.Varies v (st.world marked) a') :
    Vary v marked (fun _ _ _ => True) (Eval.setField ⟨fields, type⟩ name a)
      (Eval.setField ⟨fields, type'⟩ name a') st st' := by
  refine inspect_bind varies (varies.heap.fields fields) fun _ _ _ => ?_
  have bound := varies.heap.bindField fields name same
  exact of_done rfl rfl (varies.abreast.withHeap bound (World.grows_of_frames rfl)) trivial

/-- `this` is found in a method. -/
theorem this (varies : st.Varies v marked st') {m : Nat → Nat} {p : Site}
    (stands : (st.world marked).Stands p st.current) {keyword : Word} {depth : Option Nat}
    (part : v.Part p.context (.expr (.this keyword depth))) :
    Vary v marked (Value.Varies v) (Eval.lookUp keyword.lexeme keyword.line depth)
      (Eval.lookUp keyword.lexeme (m keyword.line) depth) st st' := by
  have spells : keyword.lexeme = thisName := (v.right _ _ part).names
  rw [spells]
  obtain ⟨distance, rfl, found, -⟩ := (v.right _ _ part).agrees
  obtain ⟨a, a', looked, looked', same, -⟩ := varies.heap.lookupReserved stands (.inl rfl) found
  rw [← varies.current] at looked'
  have related : Accesses (fun a a' => ∃ b b', a = some b ∧ a' = some b' ∧ b.Varies v (st.world marked) b')
      (st.heap.lookupAt st.current distance thisName) (st'.heap.lookupAt st'.current distance thisName) := by
    rw [show st.heap.lookupAt st.current distance thisName = .ok (some a) from looked, looked']
    exact .ok ⟨a, a', rfl, rfl, same⟩
  refine inspect_bind varies related ?_
  rintro _ _ ⟨b, b', rfl, rfl, same⟩
  exact pure varies same

/-- A method of the superclass, which is bound to the object that the method around it belongs to. -/
theorem superMethod (varies : st.Varies v marked st') {m : Nat → Nat} {p : Site} (lines : v.Lines m)
    (stands : (st.world marked).Stands p st.current) {keyword : Word} {method : Ident}
    {depth : Option Nat} (part : v.Part p.context (.expr (.super keyword method depth))) :
    Vary v marked (Value.Varies v) (Eval.superMethod keyword.line method depth)
      (Eval.superMethod (m keyword.line) (method.relabel (.lines m)) depth) st st' := by
  obtain ⟨distance, rfl, ⟨found, -⟩, found', -⟩ := (v.right _ _ part).agrees
  obtain ⟨parent, parent', looked, looked', same, suits⟩ :=
    varies.heap.lookupReserved stands (.inr rfl) found'
  obtain ⟨this, this', looked₁, looked₁', same₁, suits₁⟩ :=
    varies.heap.lookupReserved stands (.inl rfl) found
  rw [← varies.current] at looked' looked₁'
  obtain ⟨type, rfl⟩ := suits.super rfl
  obtain ⟨object, rfl⟩ := suits₁.this rfl
  cases same with
  | class_ same =>
    cases same₁ with
    | instance_ fields same₁ =>
      refine bind_of_ok rfl rfl varies.abreast ?_
      refine bind_of_ok (inspect_of_ok looked) (inspect_of_ok looked') varies.abreast ?_
      refine bind_of_ok (inspect_of_ok looked₁) (inspect_of_ok looked₁') varies.abreast ?_
      have found := same.findMethod? method.lexeme
      have cause : RuntimeError.Cause.Varies v (.undefinedProperty method.lexeme) _ := .refl trivial
      refine bind (ofOption varies lines cause found) fun abreast found => ?_
      exact boundMethod abreast.varies found (same₁.mono abreast.grows)

/-! ## The world -/

theorem print (varies : st.Varies v marked st') {m : Nat → Nat} (lines : v.Lines m) (line : Nat)
    (text : String) :
    Vary v marked (fun _ _ _ => True) (Eval.print line text) (Eval.print (m line) text) st st' := by
  cases printed : st.sink.print text with
  | ok sink =>
    have printed' := printed
    rw [← varies.sink] at printed'
    have prints : Eval.print line text st = .done (.ok (), { st with sink := sink }) := by
      rw [Eval.print, printed]
    have prints' : Eval.print (m line) text st' = .done (.ok (), { st' with sink := sink }) := by
      rw [Eval.print, printed']
    have same : State.Varies v marked { st with sink := sink } { st' with sink := sink } :=
      { varies with sink := rfl }
    exact of_done prints prints' ⟨same, .refl _, rfl⟩ trivial
  | error reason =>
    have printed' := printed
    rw [← varies.sink] at printed'
    have fails : Vary v marked (fun _ (_ _ : Unit) => True)
        (Eval.fail line (.outputFailed reason)) (Eval.fail (m line) (.outputFailed reason)) st st' :=
      fail varies lines (.refl trivial)
    rw [Vary, Eval.print, Eval.print, printed, printed']
    exact fails

theorem readClock (varies : st.Varies v marked st') :
    Vary v marked (fun _ time time' => time' = time) Eval.readClock Eval.readClock st st' := by
  have same : State.Varies v marked { st with clock := st.clock.read.2 }
      { st' with clock := st'.clock.read.2 } := { varies with clock := by rw [varies.clock] }
  have time : st'.clock.read.1 = st.clock.read.1 := by rw [varies.clock]
  exact of_done rfl rfl ⟨same, .refl _, rfl⟩ time

/-! ## Calls -/

/-- The values of arguments are bound to the parameters, which are declared in the scope of the
frame. -/
theorem bindParameters {m : Nat → Nat} {ref outer : FrameRef} {construct : Construct} {mark : Bool}
    {names : List Ident} {values values' : List Value} (varies : st.Varies v marked st')
    (made : (st.world marked).Made ref outer construct mark) (users : ∀ name ∈ names, UserName name)
    (vary : List.Forall₂ (Value.Varies v (st.world marked)) values values')
    (enough : values.length = names.length) :
    Vary v marked (fun w _ _ => ∀ name ∈ names, w.Binds ref name.lexeme)
      (Eval.bindParameters ref (names.zip values))
      (Eval.bindParameters ref ((names.map (v.ident m mark)).zip values')) st st' := by
  induction names generalizing values values' marked st st' with
  | nil => exact pure varies fun name mem => by cases mem
  | cons name rest ih =>
    cases vary with
    | nil => cases enough
    | cons first vary =>
      obtain ⟨frame, found, same, encloses, here⟩ := made
      rw [List.forall_mem_cons] at users
      have suits := Value.Suits.of_not_reserved users.1.not_reserved
      have bound := defineIn varies ref (suits _) first
      rw [show marked ref.index = mark from here] at bound
      refine bind bound fun abreast binds => ?_
      have made := abreast.grows.made ⟨frame, found, same, encloses, here⟩
      have vary := vary.imp fun _ _ same => same.mono abreast.grows
      refine (ih abreast.varies made users.2 vary (Nat.succ.inj enough)).growing.mono fun w _ _ h => ?_
      exact List.forall_mem_cons.mpr ⟨h.1.binds binds, h.2⟩

/-- Statements run one after the other in the current frame. -/
theorem sequence {m : Nat → Nat} {p : Site} {body body' : List Stmt} (varies : st.Varies v marked st')
    (lines : v.Lines m) (stands : (st.world marked).Stands p st.current)
    (vary : Stmt.AllVary v m p body body') :
    Vary v marked (Flow.Varies v) (Eval.sequence body) (Eval.sequence body') st st' := by
  induction body generalizing p body' marked st st' with
  | nil =>
    cases vary
    exact pure varies .normal
  | cons s rest ih =>
    cases vary with
    | cons first vary =>
      refine bind (execute varies lines stands first) ?_
      rintro marked₁ st₁ st₁' flow flow' abreast ⟨same, bound⟩
      cases same with
      | normal =>
        have stands := (abreast.grows.stands stands).after (bound rfl)
        exact ih abreast.varies (abreast.current ▸ stands) vary
      | returned same => exact pure abreast.varies (.returned same)

/-- The body of a function runs in a frame that activates its scope, which binds the parameters. -/
theorem invoke {closure closure' : Closure} {arguments arguments' : List Value}
    (varies : st.Varies v marked st') (same : closure.VariesBound v (st.world marked) closure')
    (vary : List.Forall₂ (Value.Varies v (st.world marked)) arguments arguments')
    (enough : arguments.length = closure.arity) :
    Vary v marked (Value.Varies v) (Eval.invoke closure arguments)
      (Eval.invoke closure' arguments') st st' := by
  obtain ⟨decl, _, _⟩ := closure
  obtain ⟨decl', outer, isInitializer⟩ := closure'
  obtain ⟨⟨m, p, lines, stands, declared⟩, rfl, rfl⟩ := same
  cases declared with
  | @mk _ name parameters body body' part mark inner =>
    refine bind (newFrame varies outer _ _ mark) ?_
    rintro marked₁ st₁ st₁' _ ref abreast₁ ⟨rfl, made⟩
    have vary := vary.imp fun _ _ same => same.mono abreast₁.grows
    refine bind (bindParameters abreast₁.varies made (v.right _ _ part).names.2 vary enough) ?_
    rintro marked₂ st₂ st₂' - - abreast₂ bound
    have grows := abreast₁.grows.trans abreast₂.grows
    -- Once the parameters are bound, the frame activates the scope of the function.
    have inside : (st₂.world marked₂).Stands (p.inFunction ⟨name, parameters, body⟩ mark) ref := by
      refine (abreast₂.grows.made made).stands (grows.stands stands) fun name declared => ?_
      obtain ⟨q, mem, rfl⟩ := Context.mem_of_contains_parameters declared
      exact bound q mem
    have runs := sequence (abreast₂.varies.inside ref) lines inside inner
    refine bind (inFrame abreast₂.varies runs) ?_
    rintro marked₃ st₃ st₃' flow flow' abreast₃ same
    cases isInitializer with
    | true =>
      have stands := (grows.trans abreast₃.grows).stands stands
      have object := abreast₃.varies.heap.lookupAt stands 0 thisName
      rw [v.rename_this] at object
      refine inspect_bind abreast₃.varies object fun found found' h => pure abreast₃.varies ?_
      cases h with
      | none => exact .nil
      | some h => exact h
    | false =>
      cases same with
      | normal => exact pure abreast₃.varies .nil
      | returned same => exact pure abreast₃.varies same

/-- An instance is made, and its initializer runs as a method of it. -/
theorem instantiate {type type' : Class} {arguments arguments' : List Value}
    (varies : st.Varies v marked st') (same : type.Varies v (st.world marked) type')
    (vary : List.Forall₂ (Value.Varies v (st.world marked)) arguments arguments')
    (enough : arguments.length = type.arity) :
    Vary v marked (Value.Varies v) (Eval.instantiate type arguments)
      (Eval.instantiate type' arguments') st st' := by
  refine bind (newInstance varies) ?_
  rintro marked₁ st₁ st₁' _ fields abreast₁ rfl
  have same := same.mono abreast₁.grows
  have found := same.findMethod? initializerName
  rw [Class.arity] at enough
  generalize type.findMethod? initializerName = method, type'.findMethod? initializerName = method'
    at found enough
  cases found with
  | none => exact pure abreast₁.varies (.instance_ fields same)
  | @some initializer initializer' method =>
    refine bind (bindMethod abreast₁.varies method same) ?_
    rintro marked₂ st₂ st₂' bound bound' abreast₂ ⟨same', arity⟩
    have grows := abreast₁.grows.trans abreast₂.grows
    have vary := vary.imp fun _ _ same => same.mono grows
    have invoked : Task.Varies v (st₂.world marked₂) st₂.current (.invoke bound arguments)
        (.invoke bound' arguments') := .invoke same' vary (enough.trans arity.symm)
    refine bind (ask ⟨abreast₂.varies, invoked⟩) fun abreast₃ _ => ?_
    exact pure abreast₃.varies
      (.instance_ fields (same.mono (abreast₂.grows.trans abreast₃.grows)))

/-- A call is checked alike in both runs before it is entered. -/
theorem checked {callee callee' : Value} {arguments arguments' : List Value} {m : Nat → Nat} {line : Nat}
    {arity arity' : Nat} (varies : st.Varies v marked st') (lines : v.Lines m)
    (length : arguments'.length = arguments.length) (same : arity' = arity)
    (enters : arguments.length = arity → Vary v marked (Value.Varies v)
      (Eval.enter callee arguments line) (Eval.enter callee' arguments' (m line)) st.called st'.called) :
    Vary v marked (Value.Varies v)
      (if arguments.length ≠ arity then
        Eval.fail line (.wrongArgumentCount arity arguments.length)
      else do
        if ← look fun st => decide (st.settings.maxCallDepth ≤ st.callDepth) then
          Eval.fail line .tooManyCalls
        else
          Eval.inCall (Eval.enter callee arguments line))
      (if arguments'.length ≠ arity' then
        Eval.fail (m line) (.wrongArgumentCount arity' arguments'.length)
      else do
        if ← look fun st => decide (st.settings.maxCallDepth ≤ st.callDepth) then
          Eval.fail (m line) .tooManyCalls
        else
          Eval.inCall (Eval.enter callee' arguments' (m line))) st st' := by
  subst same
  rw [length]
  split
  · exact fail varies lines (.refl trivial)
  · rename_i enough
    refine bind_of_ok rfl rfl varies.abreast ?_
    simp only [varies.maxCallDepth, varies.callDepth]
    split
    · exact fail varies lines (.refl trivial)
    · exact inCall (enters (Decidable.not_not.mp enough))

theorem call {callee callee' : Value} {arguments arguments' : List Value} {m : Nat → Nat} {line : Nat}
    (varies : st.Varies v marked st') (lines : v.Lines m)
    (same : callee.Varies v (st.world marked) callee')
    (vary : List.Forall₂ (Value.Varies v (st.world marked)) arguments arguments') :
    Vary v marked (Value.Varies v) (Eval.call callee arguments line)
      (Eval.call callee' arguments' (m line)) st st' := by
  have length := vary.length_eq.symm
  cases same with
  | function _ same =>
    refine bind_of_ok rfl rfl varies.abreast (checked varies lines length same.arity fun enough => ?_)
    exact ask ⟨varies.called, .invoke same vary enough⟩
  | native _ native =>
    refine bind_of_ok rfl rfl varies.abreast (checked varies lines length rfl fun enough => ?_)
    refine map (readClock varies.called) ?_
    rintro w _ time rfl
    exact .number time
  | class_ same =>
    refine bind_of_ok rfl rfl varies.abreast (checked varies lines length same.arity fun enough => ?_)
    exact instantiate varies.called same vary enough
  | _ => exact fail varies lines (.refl trivial)

/-- Arguments are evaluated one after the other. -/
theorem arguments {m : Nat → Nat} {p : Site} {es es' : List Expr} (varies : st.Varies v marked st')
    (lines : v.Lines m) (stands : (st.world marked).Stands p st.current)
    (vary : Expr.AllVary v m p es es') :
    Vary v marked (fun w => List.Forall₂ (Value.Varies v w)) (Eval.arguments es)
      (Eval.arguments es') st st' := by
  induction es generalizing es' marked st st' with
  | nil =>
    cases vary
    exact pure varies .nil
  | cons e rest ih =>
    cases vary with
    | cons first vary =>
      refine bind (evaluate varies lines stands first) fun {marked₁ st₁ st₁' a a'} abreast same => ?_
      have stands₁ := abreast.grows.stands stands
      rw [← abreast.current] at stands₁
      have held : (st₁.push a).Varies v marked₁ (st₁'.push a') := abreast.varies.withTemporaries _ _
      refine bind_of_ok rfl rfl ⟨held, .refl _, rfl⟩ ?_
      refine bind (ih held stands₁ vary) fun abreast' rest => ?_
      exact pure abreast'.varies (.cons (same.mono abreast'.grows) rest)

end Eval.Vary

end Lox
