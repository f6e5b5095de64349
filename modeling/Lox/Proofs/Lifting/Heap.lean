import Lox.Proofs.Lifting.Code
import Lox.Proofs.Variation.State

/-!
# Heaps with additional frames

Two runs of one program, the second of which goes through more scopes than the first one, hold the same
objects, but the second one has more frames.  A **pairing** says which frames belong together.  Most
pairs are a frame and its copy.  In the other pairs the second frame is an additional one, which binds
nothing and lies within the copy of the first.

A pair has a gap: along the chain from the second frame on, an additional frame lies beyond so many
others.  A function in the second run is that of the first run, lifted over the gap of its frames.  At
most one additional frame lies on a chain.

Neither heap has empty places: these are the heaps of runs that never collect garbage.
-/

namespace Lox

/-- Which frames of two runs belong together, and of which instances both know. -/
structure Pairing where
  /-- The frames at these places belong together, and this is their gap. -/
  frames : Gap → Nat → Nat → Prop
  /-- The places of the fields of instances that both runs know of. -/
  fields : Nat → Prop

namespace Pairing

variable {w w' w'' : Pairing}

/-- The frames belong together. -/
def At (w : Pairing) (gap : Gap) (ref ref' : FrameRef) : Prop := w.frames gap ref.index ref'.index

/-- Nothing is taken apart. -/
structure Grows (w w' : Pairing) : Prop where
  frames : ∀ {gap index index'}, w.frames gap index index' → w'.frames gap index index'
  fields : ∀ {index}, w.fields index → w'.fields index

theorem Grows.refl (w : Pairing) : w.Grows w := ⟨id, id⟩

theorem Grows.trans (h : w.Grows w') (h' : w'.Grows w'') : w.Grows w'' :=
  ⟨fun there => h'.frames (h.frames there), fun there => h'.fields (h.fields there)⟩

theorem Grows.at (h : w.Grows w') {gap : Gap} {ref ref' : FrameRef} (there : w.At gap ref ref') :
    w'.At gap ref ref' :=
  h.frames there

/-- Two more frames belong together. -/
def withFrames (w : Pairing) (gap : Gap) (index index' : Nat) : Pairing where
  frames gap₁ index₁ index₁' :=
    w.frames gap₁ index₁ index₁' ∨ gap₁ = gap ∧ index₁ = index ∧ index₁' = index'
  fields := w.fields

/-- Both runs know of one more instance. -/
def withFields (w : Pairing) (index : Nat) : Pairing where
  frames := w.frames
  fields index₁ := w.fields index₁ ∨ index₁ = index

theorem grows_withFrames (w : Pairing) (gap : Gap) (index index' : Nat) :
    w.Grows (w.withFrames gap index index') :=
  ⟨.inl, id⟩

theorem grows_withFields (w : Pairing) (index : Nat) : w.Grows (w.withFields index) := ⟨id, .inl⟩

end Pairing

/-! ## Values -/

section Values

variable (w : Pairing)

/-- The second function is the first one, lifted over the gap of their frames.  What is around them
depends on whether they are methods that are not bound yet. -/
structure Closure.Lifts (around : Gap → Gap) (c c' : Closure) : Prop where
  declaration : ∃ gap, w.At gap c.frame c'.frame ∧
    c.declaration.Lifts (around gap) c'.declaration ∧ (c.isInitializer = true → around gap ≠ .here)
  isInitializer : c'.isInitializer = c.isInitializer

/-- Functions that can be called. -/
abbrev Closure.LiftsBound : Closure → Closure → Prop := Closure.Lifts w id

/-- Methods that have to be bound first. -/
abbrev Closure.LiftsUnbound : Closure → Closure → Prop := Closure.Lifts w Gap.deeper

/-- Class bodies with the same methods. -/
structure ClassBody.Lifts (c c' : ClassBody) : Prop where
  identity : c'.identity = c.identity
  name : c'.name = c.name
  methods : ∀ name, Option.Rel (Closure.LiftsUnbound w) (c.methods.find? name)
    (c'.methods.find? name)

/-- Classes with the same methods. -/
def Class.Lifts (c c' : Class) : Prop := List.Forall₂ (ClassBody.Lifts w) c.lineage c'.lineage

/-- Values that are the same but for the additional scopes around functions. -/
inductive Value.Lifts : Value → Value → Prop
  | nil : Value.Lifts .nil .nil
  | boolean (b : Bool) : Value.Lifts (.boolean b) (.boolean b)
  | number (x : Float) : Value.Lifts (.number x) (.number x)
  | string (s : String) : Value.Lifts (.string s) (.string s)
  | function (identity : Identity) {c c' : Closure} (lifts : c.LiftsBound w c') :
      Value.Lifts (.function identity c) (.function identity c')
  | native (identity : Identity) (native : Native) :
      Value.Lifts (.native identity native) (.native identity native)
  | class_ {c c' : Class} (lifts : c.Lifts w c') : Value.Lifts (.class_ c) (.class_ c')
  | instance_ {fields : InstanceRef} (known : w.fields fields.index) {c c' : Class}
      (lifts : c.Lifts w c') : Value.Lifts (.instance_ ⟨fields, c⟩) (.instance_ ⟨fields, c'⟩)

/-- Bindings of such values to the same names. -/
def Bindings.Lift (b b' : Bindings Value) : Prop :=
  ∀ name, Option.Rel (Value.Lifts w) (b.find? name) (b'.find? name)

end Values

section Values

variable {w w' : Pairing}

theorem Closure.Lifts.mono (grows : w.Grows w') {around : Gap → Gap} {c c' : Closure}
    (h : c.Lifts w around c') : c.Lifts w' around c' := by
  obtain ⟨⟨gap, there, lifts⟩, isInitializer⟩ := h
  exact ⟨⟨gap, grows.at there, lifts⟩, isInitializer⟩

theorem ClassBody.Lifts.mono (grows : w.Grows w') {c c' : ClassBody} (h : c.Lifts w c') :
    c.Lifts w' c' :=
  ⟨h.identity, h.name, fun name => optionRel_mono (fun _ _ lifts => lifts.mono grows) (h.methods name)⟩

theorem Class.Lifts.mono (grows : w.Grows w') {c c' : Class} (h : c.Lifts w c') : c.Lifts w' c' :=
  h.imp fun _ _ lifts => lifts.mono grows

theorem Value.Lifts.mono (grows : w.Grows w') {a a' : Value} (h : a.Lifts w a') : a.Lifts w' a' := by
  cases h with
  | nil => exact .nil
  | boolean b => exact .boolean b
  | number x => exact .number x
  | string s => exact .string s
  | function identity lifts => exact .function identity (lifts.mono grows)
  | native identity native => exact .native identity native
  | class_ lifts => exact .class_ (lifts.mono grows)
  | instance_ known lifts => exact .instance_ (grows.fields known) (lifts.mono grows)

theorem Bindings.Lift.mono (grows : w.Grows w') {b b' : Bindings Value} (h : b.Lift w b') :
    b.Lift w' b' :=
  fun name => optionRel_mono (fun _ _ lifts => lifts.mono grows) (h name)

theorem Bindings.Lift.contains {b b' : Bindings Value} (h : b.Lift w b') (name : String) :
    b'.contains name = b.contains name := by
  have same := h name
  unfold Bindings.contains
  generalize b.find? name = a, b'.find? name = a' at same
  cases same <;> rfl

theorem Bindings.Lift.insert {b b' : Bindings Value} (h : b.Lift w b') (name : String) {a a' : Value}
    (lifts : a.Lifts w a') : (b.insert name a).Lift w (b'.insert name a') := by
  intro name'
  rw [Bindings.find?_insert, Bindings.find?_insert]
  split
  · exact .some lifts
  · exact h name'

/-! ### What is the same of both values -/

theorem Closure.Lifts.arity {around : Gap → Gap} {c c' : Closure} (h : c.Lifts w around c') :
    c'.arity = c.arity := by
  obtain ⟨gap, -, lifts, -⟩ := h.declaration
  exact lifts.arity_eq

namespace Class.Lifts

variable {c c' : Class}

theorem own (h : c.Lifts w c') : c.own.Lifts w c'.own := by
  cases h with
  | cons own _ => exact own

theorem findMethod? (h : c.Lifts w c') (name : String) :
    Option.Rel (Closure.LiftsUnbound w) (c.findMethod? name) (c'.findMethod? name) := by
  unfold Class.findMethod?
  unfold Class.Lifts at h
  generalize c.lineage = bodies, c'.lineage = bodies' at h
  induction h with
  | nil => exact .none
  | @cons body body' _ _ first _ ih =>
    have methods := first.methods name
    rw [List.findSome?_cons, List.findSome?_cons]
    generalize body.methods.find? name = found, body'.methods.find? name = found' at methods
    cases methods with
    | none => exact ih
    | some lifts => exact .some lifts

theorem arity (h : c.Lifts w c') : c'.arity = c.arity := by
  have found := h.findMethod? initializerName
  unfold Class.arity
  generalize c.findMethod? initializerName = a, c'.findMethod? initializerName = a' at found
  cases found with
  | none => rfl
  | some lifts => exact lifts.arity

theorem extend {body body' : ClassBody} (lifts : body.Lifts w body') {parent parent' : Option Class}
    (h : Option.Rel (Class.Lifts w) parent parent') :
    (Class.extend body parent).Lifts w (.extend body' parent') := by
  cases h with
  | none => exact .cons lifts .nil
  | some parents => exact .cons lifts parents

end Class.Lifts

namespace Value.Lifts

variable {a a' b b' : Value}

theorem text (h : a.Lifts w a') : a'.text = a.text := by
  cases h with
  | function identity lifts =>
    obtain ⟨gap, -, declared, -⟩ := lifts.declaration
    rw [Value.text, Value.text, declared.name_eq]
  | class_ lifts => exact lifts.own.name
  | instance_ _ lifts => exact congrArg (· ++ " instance") lifts.own.name
  | _ => rfl

theorem isTruthy (h : a.Lifts w a') : a'.isTruthy = a.isTruthy := by
  cases h <;> rfl

theorem isEqual (h : a.Lifts w a') (h' : b.Lifts w b') : a'.isEqual b' = a.isEqual b := by
  cases h with
  | class_ lifts =>
    cases h' with
    | class_ lifts' => rw [Value.isEqual, Value.isEqual, lifts.own.identity, lifts'.own.identity]
    | _ => rfl
  | _ => cases h' <;> rfl

end Value.Lifts

end Values

/-! ## Frames and heaps -/

section Heaps

variable (w : Pairing)

/-- The second frame is additional, within the copy of the first one, or it is a copy itself. -/
inductive Frame.Lifts (index : Nat) : Gap → Frame → Frame → Prop
  | additional {frame frame' : Frame} {outer : FrameRef} (nothing : frame'.bindings = .empty)
      (enclosing : frame'.enclosing = some outer) (copy : w.frames .nowhere index outer.index) :
      Frame.Lifts index .here frame frame'
  | copy {gap : Gap} {frame frame' : Frame} (bindings : frame.bindings.Lift w frame'.bindings)
      (enclosing : Option.Rel (w.At gap) frame.enclosing frame'.enclosing) :
      Frame.Lifts index gap.deeper frame frame'

/-- The second heap holds what the first one does, and additional frames. -/
structure Heap.Lifts (heap heap' : Heap) : Prop where
  frames : ∀ {gap index index'}, w.frames gap index index' → ∃ frame frame',
    heap.frames.get? index = some frame ∧ heap'.frames.get? index' = some frame' ∧
      frame.Lifts w index gap frame'
  /-- A frame has one copy, and nothing is the copy of two frames. -/
  apart : ∀ {gap index index' gap₁ index₁ index₁'}, w.frames gap index index' →
    w.frames gap₁ index₁ index₁' → gap₁ ≠ .here → (index' = index₁' ↔ index = index₁ ∧ gap ≠ .here)
  instances : heap.instances.Vary (fun index fields fields' => w.fields index → fields.Lift w fields')
    heap'.instances
  nextIdentity : heap'.nextIdentity = heap.nextIdentity
  free : heap.frames.free = []
  free' : heap'.frames.free = []

end Heaps

theorem Frame.Lifts.of_copy {w : Pairing} {index : Nat} {gap : Gap} {frame frame' : Frame}
    (h : frame.Lifts w index gap frame') (inside : gap ≠ .here) :
    frame.bindings.Lift w frame'.bindings := by
  cases h with
  | additional _ _ _ => exact absurd rfl inside
  | copy bindings _ => exact bindings

/-- Where no additional frame lies ahead, none lies ahead of the frame around. -/
theorem Frame.Lifts.enclosing_nowhere {w : Pairing} {index : Nat} {frame frame' : Frame}
    (h : frame.Lifts w index .nowhere frame') :
    Option.Rel (w.At .nowhere) frame.enclosing frame'.enclosing := by
  generalize same : Gap.nowhere = gap at h
  cases h with
  | additional _ _ _ => exact absurd same Gap.nowhere_ne_here
  | @copy gap _ _ _ enclosing =>
    cases gap with
    | nowhere => exact enclosing
    | beyond _ => cases same

theorem Frame.Lifts.mono {w w' : Pairing} (grows : w.Grows w') {index : Nat} {gap : Gap}
    {frame frame' : Frame} (h : frame.Lifts w index gap frame') :
    frame.Lifts w' index gap frame' := by
  cases h with
  | additional nothing enclosing copy => exact .additional nothing enclosing (grows.frames copy)
  | copy bindings enclosing =>
    exact .copy (bindings.mono grows) (optionRel_mono (fun _ _ there => grows.at there) enclosing)

namespace Heap.Lifts

variable {w w' : Pairing} {heap heap' : Heap}

/-! ### Looking for something -/

/-- A frame and its copy. -/
theorem frame (h : heap.Lifts w heap') {gap : Gap} {ref ref' : FrameRef} (there : w.At gap ref ref') :
    ∃ frame frame', heap.frame ref = .ok frame ∧ heap'.frame ref' = .ok frame' ∧
      frame.Lifts w ref.index gap frame' := by
  obtain ⟨frame, frame', found, found', lifts⟩ := h.frames there
  exact ⟨frame, frame', by rw [Heap.frame, found], by rw [Heap.frame, found'], lifts⟩

/-- Where no additional frame lies ahead, a depth leads to a frame and its copy. -/
theorem ancestor_nowhere (h : heap.Lifts w heap') {ref ref' : FrameRef}
    (there : w.At .nowhere ref ref') (distance : Nat) : ∃ target target',
      heap.ancestor distance ref = .ok target ∧ heap'.ancestor distance ref' = .ok target' ∧
        w.At .nowhere target target' := by
  induction distance generalizing ref ref' with
  | zero => exact ⟨ref, ref', rfl, rfl, there⟩
  | succ distance ih =>
    obtain ⟨frame, frame', access, access', lifts⟩ := h.frame there
    have enclosing := lifts.enclosing_nowhere
    rw [Heap.ancestor, Heap.ancestor, access, access']
    simp only [bind, Except.bind]
    generalize frame.enclosing = outer, frame'.enclosing = outer' at enclosing
    cases enclosing with
    | none => exact ⟨ref, ref', rfl, rfl, there⟩
    | some outside => exact ih outside

/-- A depth that is shifted over the gap leads to the copy of the frame that the depth leads to. -/
theorem ancestor (h : heap.Lifts w heap') {gap : Gap} {ref ref' : FrameRef}
    (there : w.At gap ref ref') (distance : Nat) : ∃ gap₁ target target', gap₁ ≠ .here ∧
      w.At gap₁ target target' ∧ heap.ancestor distance ref = .ok target ∧
        heap'.ancestor (gap.shift distance) ref' = .ok target' := by
  induction distance generalizing gap ref ref' with
  | zero =>
    obtain ⟨frame, frame', access, access', lifts⟩ := h.frame there
    cases lifts with
    -- The depth is one more over an additional frame, and that step leads past it.
    | @additional _ _ outer nothing enclosing copy =>
      refine ⟨.nowhere, ref, outer, Gap.nowhere_ne_here, copy, rfl, ?_⟩
      rw [Gap.shift_here, Heap.ancestor, access']
      simp only [bind, Except.bind, enclosing]
      rfl
    | copy _ _ =>
      refine ⟨_, ref, ref', Gap.deeper_ne_here, there, rfl, ?_⟩
      rw [Gap.shift_deeper_zero]
      rfl
  | succ distance ih =>
    obtain ⟨frame, frame', access, access', lifts⟩ := h.frame there
    cases lifts with
    | @additional _ _ outer nothing enclosing copy =>
      obtain ⟨target, target', leads, leads', there'⟩ :=
        h.ancestor_nowhere (show w.At .nowhere ref outer from copy) (distance + 1)
      refine ⟨.nowhere, target, target', Gap.nowhere_ne_here, there', leads, ?_⟩
      rw [Gap.shift_here, Heap.ancestor, access']
      simp only [bind, Except.bind, enclosing]
      exact leads'
    | copy _ enclosing =>
      rw [Gap.shift_deeper_succ, Heap.ancestor, Heap.ancestor, access, access']
      simp only [bind, Except.bind]
      generalize frame.enclosing = outer, frame'.enclosing = outer' at enclosing
      cases enclosing with
      | none => exact ⟨_, ref, ref', Gap.deeper_ne_here, there, rfl, rfl⟩
      | some outside => exact ih outside

theorem lookupAt (h : heap.Lifts w heap') {gap : Gap} {ref ref' : FrameRef}
    (there : w.At gap ref ref') (distance : Nat) (name : String) :
    Accesses (Option.Rel (Value.Lifts w)) (heap.lookupAt ref distance name)
      (heap'.lookupAt ref' (gap.shift distance) name) := by
  obtain ⟨gap₁, target, target', inside, there', leads, leads'⟩ := h.ancestor there distance
  obtain ⟨frame, frame', access, access', lifts⟩ := h.frame there'
  simp only [Heap.lookupAt, leads, leads', access, access', bind, Except.bind]
  exact .ok (lifts.of_copy inside name)

/-- The frames belong together, and the second one is a copy. -/
def OwnedAlike (w : Pairing) (owner owner' : FrameRef) : Prop :=
  ∃ gap, gap ≠ Gap.here ∧ w.At gap owner owner'

theorem ownerAt (h : heap.Lifts w heap') {gap : Gap} {ref ref' : FrameRef}
    (there : w.At gap ref ref') (distance : Nat) (name : String) :
    Accesses (Option.Rel (OwnedAlike w)) (heap.ownerAt ref distance name)
      (heap'.ownerAt ref' (gap.shift distance) name) := by
  obtain ⟨gap₁, target, target', inside, there', leads, leads'⟩ := h.ancestor there distance
  obtain ⟨frame, frame', access, access', lifts⟩ := h.frame there'
  simp only [Heap.ownerAt, leads, leads', access, access', bind, Except.bind,
    (lifts.of_copy inside).contains]
  refine .ok ?_
  split
  · exact .some ⟨gap₁, inside, there'⟩
  · exact .none

/-- Nothing lies around these frames. -/
structure Outermost (w : Pairing) (heap : Heap) (globals globals' : FrameRef) : Prop where
  there : w.At .nowhere globals globals'
  last : ∃ frame, heap.frames.get? globals.index = some frame ∧ frame.enclosing = none

section Globals

variable {globals globals' : FrameRef}

theorem outermost (h : heap.Lifts w heap') (last : Outermost w heap globals globals') :
    ∃ frame frame', heap.frames.get? globals.index = some frame ∧
      heap'.frames.get? globals'.index = some frame' ∧ frame.enclosing = none ∧
        frame'.enclosing = none ∧ frame.bindings.Lift w frame'.bindings := by
  obtain ⟨frame, found, ends⟩ := last.last
  obtain ⟨frame₁, frame', found₁, found', lifts⟩ := h.frames last.there
  obtain rfl : frame = frame₁ := Option.some.inj (found.symm.trans found₁)
  have enclosing := lifts.enclosing_nowhere
  refine ⟨frame, frame', found, found', ends, ?_, lifts.of_copy Gap.nowhere_ne_here⟩
  rw [ends] at enclosing
  generalize frame'.enclosing = outer at enclosing
  cases enclosing
  rfl

theorem owner (h : heap.Lifts w heap') (last : Outermost w heap globals globals') (name : String) :
    Accesses (Option.Rel (OwnedAlike w)) (heap.owner globals name) (heap'.owner globals' name) := by
  obtain ⟨frame, frame', found, found', ends, ends', lift⟩ := h.outermost last
  rw [owner_outermost found ends, owner_outermost found' ends', lift.contains]
  refine .ok ?_
  split
  · exact .some ⟨.nowhere, Gap.nowhere_ne_here, last.there⟩
  · exact .none

theorem lookup (h : heap.Lifts w heap') (last : Outermost w heap globals globals') (name : String) :
    Accesses (Option.Rel (Value.Lifts w)) (heap.lookup globals name)
      (heap'.lookup globals' name) := by
  obtain ⟨frame, frame', found, found', ends, ends', lift⟩ := h.outermost last
  have access : heap.frame globals = .ok frame := by rw [Heap.frame, found]
  have access' : heap'.frame globals' = .ok frame' := by rw [Heap.frame, found']
  simp only [Heap.lookup, owner_outermost found ends, owner_outermost found' ends', lift.contains,
    bind, Except.bind]
  cases frame.bindings.contains name with
  | false => exact .ok .none
  | true =>
    simp only [if_true, access, access']
    exact .ok (lift name)

end Globals

theorem fields (h : heap.Lifts w heap') {ref : InstanceRef} (known : w.fields ref.index) :
    Accesses (Bindings.Lift w) (heap.fields ref) (heap'.fields ref) := by
  have related := h.instances.get ref.index
  unfold Heap.fields
  generalize heap.instances.get? ref.index = a, heap'.instances.get? ref.index = b at related
  cases related with
  | none => exact .error _
  | some related => exact .ok (related known)

/-- Properties that are the same but for the additional scopes around functions. -/
inductive PropertyLifts (w : Pairing) : Property → Property → Prop
  | field {a a' : Value} (lifts : a.Lifts w a') : PropertyLifts w (.field a) (.field a')
  | method {c c' : Closure} (lifts : c.LiftsUnbound w c') : PropertyLifts w (.method c) (.method c')

theorem findProperty (h : heap.Lifts w heap') {fields : InstanceRef} (known : w.fields fields.index)
    {c c' : Class} (lifts : c.Lifts w c') (name : String) :
    Accesses (Option.Rel (PropertyLifts w)) (heap.findProperty ⟨fields, c⟩ name)
      (heap'.findProperty ⟨fields, c'⟩ name) := by
  have related := h.fields known
  simp only [Heap.findProperty, bind, Except.bind]
  generalize heap.fields fields = found, heap'.fields fields = found' at related
  cases related with
  | error access => exact .error access
  | @ok bindings bindings' bound =>
    have value := bound name
    simp only
    generalize bindings.find? name = a, bindings'.find? name = a' at value
    cases value with
    | some value => exact .ok (.some (.field value))
    | none =>
      have method := lifts.findMethod? name
      generalize c.findMethod? name = m, c'.findMethod? name = m' at method
      cases method with
      | none => exact .ok .none
      | some method => exact .ok (.some (.method method))

/-! ### Changing something -/

theorem lt_size (h : heap.Lifts w heap') {gap : Gap} {index index' : Nat}
    (there : w.frames gap index index') :
    index < heap.frames.slots.size ∧ index' < heap'.frames.slots.size := by
  obtain ⟨frame, frame', found, found', -⟩ := h.frames there
  exact ⟨Arena.lt_size_of_get? found, Arena.lt_size_of_get? found'⟩

/-- A variable is bound in a frame and in its copy. -/
theorem bindVariable (h : heap.Lifts w heap') {gap : Gap} {ref ref' : FrameRef}
    (there : w.At gap ref ref') (inside : gap ≠ .here) (name : String) {a a' : Value}
    (lifts : a.Lifts w a') :
    (heap.bindVariable ref name a).Lifts w (heap'.bindVariable ref' name a') := by
  refine { h with frames := ?_ }
  intro gap₁ index index' pair
  obtain ⟨frame, frame', found, found', related⟩ := h.frames pair
  have apart := h.apart pair there inside
  rw [Heap.get?_bindVariable, Heap.get?_bindVariable, found, found']
  cases related with
  | additional nothing enclosing copy =>
    have other : index' ≠ ref'.index := fun same => (apart.mp same).2 rfl
    rw [if_neg other]
    split
    · exact ⟨_, frame', rfl, rfl, .additional nothing enclosing copy⟩
    · exact ⟨frame, frame', rfl, rfl, .additional nothing enclosing copy⟩
  | copy bindings enclosing =>
    by_cases same : index = ref.index
    · rw [if_pos same, if_pos (apart.mpr ⟨same, Gap.deeper_ne_here⟩)]
      exact ⟨_, _, rfl, rfl, .copy (bindings.insert name lifts) enclosing⟩
    · rw [if_neg same, if_neg fun same' => same (apart.mp same').1]
      exact ⟨frame, frame', rfl, rfl, .copy bindings enclosing⟩

theorem bindField (h : heap.Lifts w heap') (ref : InstanceRef) (name : String) {a a' : Value}
    (lifts : a.Lifts w a') : (heap.bindField ref name a).Lifts w (heap'.bindField ref name a') :=
  { h with
    frames := h.frames
    apart := h.apart
    instances := h.instances.modify ref.index fun _ _ lift known => (lift known).insert name lifts }

theorem newIdentity (h : heap.Lifts w heap') : heap'.newIdentity.1 = heap.newIdentity.1 ∧
    heap.newIdentity.2.Lifts w heap'.newIdentity.2 :=
  ⟨congrArg Identity.mk h.nextIdentity,
    { h with
      frames := h.frames
      apart := h.apart
      nextIdentity := congrArg (· + 1) h.nextIdentity }⟩

/-- Both runs make an instance, and know of it from now on. -/
theorem newInstance (h : heap.Lifts w heap') : heap'.newInstance.1 = heap.newInstance.1 ∧
    heap.newInstance.2.Lifts (w.withFields heap.newInstance.1.index) heap'.newInstance.2 := by
  have index : heap.newInstance.1.index = heap.instances.slots.size :=
    Arena.alloc_fst h.instances.free _
  have grows := w.grows_withFields heap.newInstance.1.index
  have kept : heap.instances.Vary
      (fun index fields fields' => (w.withFields heap.newInstance.1.index).fields index →
        fields.Lift (w.withFields heap.newInstance.1.index) fields') heap'.instances := by
    refine h.instances.mono fun index' fields fields' found lift known => ?_
    rcases known with known | rfl
    · exact (lift known).mono grows
    · exact absurd (Arena.lt_size_of_get? found) (index ▸ Nat.lt_irrefl _)
  obtain ⟨same, instances⟩ := kept.alloc (a := Bindings.empty) (b := Bindings.empty)
    fun _ name => .none
  refine ⟨?_, ?_⟩
  · rw [Heap.newInstance, Heap.newInstance, h.instances.allocated]
    exact congrArg (InstanceRef.mk · _) same
  · refine { h with frames := fun pair => ?_, apart := h.apart, instances := instances }
    obtain ⟨frame, frame', found, found', lifts⟩ := h.frames pair
    exact ⟨frame, frame', found, found', lifts.mono grows⟩

/-! ### Making frames -/

section NewFrame

variable (enclosing enclosing' : FrameRef) (construct construct' : Construct)

/-- Both runs make a frame, and the second one is the copy of the first. -/
theorem newFrame (h : heap.Lifts w heap') {gap : Gap} (there : w.At gap enclosing enclosing') :
    (heap.newFrame (some enclosing) construct).2.Lifts
      (w.withFrames gap.deeper heap.frames.slots.size heap'.frames.slots.size)
      (heap'.newFrame (some enclosing') construct').2 := by
  have grows := w.grows_withFrames gap.deeper heap.frames.slots.size heap'.frames.slots.size
  refine ⟨?_, ?_, ?_, h.nextIdentity, Arena.free_alloc h.free _, Arena.free_alloc h.free' _⟩
  · intro gap₁ index index' pair
    rw [Heap.newFrame, Heap.newFrame, Arena.get?_alloc h.free, Arena.get?_alloc h.free']
    rcases pair with pair | ⟨rfl, rfl, rfl⟩
    · obtain ⟨frame, frame', found, found', lifts⟩ := h.frames pair
      obtain ⟨lt, lt'⟩ := h.lt_size pair
      rw [if_neg (Nat.ne_of_lt lt), if_neg (Nat.ne_of_lt lt')]
      exact ⟨frame, frame', found, found', lifts.mono grows⟩
    · rw [if_pos rfl, if_pos rfl]
      exact ⟨_, _, rfl, rfl, .copy (fun _ => .none) (.some (grows.at there))⟩
  · intro gap₁ index index' gap₂ index₂ index₂' pair pair' inside
    rcases pair with pair | ⟨rfl, rfl, rfl⟩ <;> rcases pair' with pair' | ⟨rfl, rfl, rfl⟩
    · exact h.apart pair pair' inside
    · obtain ⟨lt, lt'⟩ := h.lt_size pair
      simp [Nat.ne_of_lt lt, Nat.ne_of_lt lt']
    · obtain ⟨lt, lt'⟩ := h.lt_size pair'
      simp [Nat.ne_of_gt lt, Nat.ne_of_gt lt']
    · simp [inside]
  · exact h.instances.mono fun _ _ _ _ lift known => (lift known).mono grows

/-- The second run makes an additional frame, within the copy of a frame of the first. -/
theorem newFrame_additional (h : heap.Lifts w heap') {ref : FrameRef}
    (there : w.At .nowhere ref enclosing') :
    heap.Lifts (w.withFrames .here ref.index heap'.frames.slots.size)
      (heap'.newFrame (some enclosing') construct').2 := by
  have grows := w.grows_withFrames .here ref.index heap'.frames.slots.size
  refine ⟨?_, ?_, ?_, h.nextIdentity, h.free, Arena.free_alloc h.free' _⟩
  · intro gap₁ index index' pair
    rw [Heap.newFrame, Arena.get?_alloc h.free']
    rcases pair with pair | ⟨rfl, rfl, rfl⟩
    · obtain ⟨frame, frame', found, found', lifts⟩ := h.frames pair
      obtain ⟨-, lt'⟩ := h.lt_size pair
      rw [if_neg (Nat.ne_of_lt lt')]
      exact ⟨frame, frame', found, found', lifts.mono grows⟩
    · obtain ⟨frame, -, found, -, -⟩ := h.frames there
      rw [if_pos rfl]
      exact ⟨frame, _, found, rfl, .additional rfl rfl (grows.at there)⟩
  · intro gap₁ index index' gap₂ index₂ index₂' pair pair' inside
    rcases pair with pair | ⟨rfl, rfl, rfl⟩ <;> rcases pair' with pair' | ⟨rfl, rfl, rfl⟩
    · exact h.apart pair pair' inside
    · exact absurd rfl inside
    · obtain ⟨-, lt'⟩ := h.lt_size pair'
      simp [Nat.ne_of_gt lt']
    · exact absurd rfl inside
  · exact h.instances.mono fun _ _ _ _ lift known => (lift known).mono grows

end NewFrame

end Heap.Lifts

end Lox
