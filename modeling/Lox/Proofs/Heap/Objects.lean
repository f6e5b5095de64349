import Lox.Heap.Chain
import Lox.Heap.Property
import Lox.Heap.Collect
import Lox.Proofs.Bindings
import Lox.Proofs.Heap.Arena

/-!
# What is on the heap

A heap **has** an object (`Heap.Has`) if the slot that the reference names is occupied by the very
object that the reference was made for.  This is more than that the slot is occupied: a slot that was
emptied and used again holds another object, and its serial number is another one.

Each operation that changes frames has a lemma that says which frames are held afterwards, and each that
changes fields one that says which fields are.  `Heap.Leads` says what never changes from one heap to a
later one: no reference comes back to life, a frame stays enclosed by the same frame, and what binds
`this` binds it to the same object.
-/

namespace Lox

namespace Heap

variable {heap : Heap} {frame frame' : Frame} {fields fields' : Bindings Value}
  {frameRef target : FrameRef} {fieldsRef : InstanceRef} {name : String} {value : Value}

/-- The frame that a reference was made for is still in its slot. -/
def HoldsFrame (heap : Heap) (ref : FrameRef) (frame : Frame) : Prop :=
  heap.frames.Holds ref.index ref.serial frame

/-- The fields that a reference was made for are still in their slot. -/
def HoldsFields (heap : Heap) (ref : InstanceRef) (fields : Bindings Value) : Prop :=
  heap.instances.Holds ref.index ref.serial fields

/-- The object that a reference was made for is still in its slot. -/
def Has (heap : Heap) : HeapObject → Prop
  | .frame ref => ∃ frame, heap.HoldsFrame ref frame
  | .instance_ ref => ∃ fields, heap.HoldsFields ref fields

/-! ## Access -/

theorem HoldsFrame.eq (h : heap.HoldsFrame frameRef frame)
    (h' : heap.HoldsFrame frameRef frame') : frame = frame' :=
  (Arena.Holds.unique h h').2

theorem HoldsFields.eq (h : heap.HoldsFields fieldsRef fields)
    (h' : heap.HoldsFields fieldsRef fields') : fields = fields' :=
  (Arena.Holds.unique h h').2

theorem HoldsFrame.access (h : heap.HoldsFrame frameRef frame) :
    heap.frame frameRef = .ok frame := by
  rw [Heap.frame, Arena.Holds.get? h]

theorem HoldsFields.access (h : heap.HoldsFields fieldsRef fields) :
    heap.fields fieldsRef = .ok fields := by
  rw [Heap.fields, Arena.Holds.get? h]

theorem get?_of_frame (access : heap.frame frameRef = .ok frame) :
    heap.frames.get? frameRef.index = some frame := by
  unfold Heap.frame at access
  split at access
  · rename_i found
    rw [found, Except.ok.inj access]
  · cases access

theorem HoldsFrame.lookupAt (h : heap.HoldsFrame frameRef frame) (name : String) :
    heap.lookupAt frameRef 0 name = .ok (frame.bindings.find? name) := by
  rw [Heap.lookupAt, ancestor]
  change (do return (← heap.frame frameRef).bindings.find? name) = _
  rw [h.access]
  rfl

theorem HoldsFrame.referents (h : heap.HoldsFrame frameRef frame) :
    heap.referents (.frame frameRef) = frame.referents := by
  simp only [Heap.referents, Arena.Holds.get? h]

theorem HoldsFields.referents (h : heap.HoldsFields fieldsRef fields) :
    heap.referents (.instance_ fieldsRef) = fields.values.flatMap Value.referents := by
  simp only [Heap.referents, Arena.Holds.get? h]

/-- References to one slot that are both still good are the same. -/
theorem HoldsFrame.ref_eq (h : heap.HoldsFrame frameRef frame) (h' : heap.HoldsFrame target frame')
    (same : frameRef.index = target.index) : frameRef = target := by
  have h' : heap.frames.Holds frameRef.index target.serial frame' := same ▸ h'
  have serial := (Arena.Holds.unique h h').1
  cases frameRef
  cases target
  simp_all

/-- References to one slot that are both still good are the same. -/
theorem HoldsFields.ref_eq {ref : InstanceRef} (h : heap.HoldsFields fieldsRef fields)
    (h' : heap.HoldsFields ref fields') (same : fieldsRef.index = ref.index) : fieldsRef = ref := by
  have h' : heap.instances.Holds fieldsRef.index ref.serial fields' := same ▸ h'
  have serial := (Arena.Holds.unique h h').1
  cases fieldsRef
  cases ref
  simp_all

/-! ## Operations -/

section Operations

variable (frames : heap.frames.Sound) (instances : heap.instances.Sound)
  {enclosing : Option FrameRef} {construct : Construct}

include frames in
theorem holdsFrame_newFrame : (heap.newFrame enclosing construct).2.HoldsFrame frameRef frame ↔
    (frameRef = (heap.newFrame enclosing construct).1 ∧ frame = ⟨.empty, enclosing, construct⟩) ∨
      heap.HoldsFrame frameRef frame := by
  obtain ⟨index, serial⟩ := frameRef
  unfold HoldsFrame
  simp only [newFrame, Arena.holds_alloc frames, FrameRef.mk.injEq]
  rw [and_assoc]

include instances in
theorem holdsFields_newInstance : heap.newInstance.2.HoldsFields fieldsRef fields ↔
    (fieldsRef = heap.newInstance.1 ∧ fields = .empty) ∨ heap.HoldsFields fieldsRef fields := by
  obtain ⟨index, serial⟩ := fieldsRef
  unfold HoldsFields
  simp only [newInstance, Arena.holds_alloc instances, InstanceRef.mk.injEq]
  rw [and_assoc]

theorem holdsFrame_newIdentity : heap.newIdentity.2.HoldsFrame frameRef frame ↔
    heap.HoldsFrame frameRef frame := .rfl

end Operations

theorem get?_bindVariable (heap : Heap) (ref : FrameRef) (name : String) (value : Value)
    (index : Nat) : (heap.bindVariable ref name value).frames.get? index =
      if index = ref.index then (heap.frames.get? index).map fun frame =>
        { frame with bindings := frame.bindings.insert name value }
      else heap.frames.get? index :=
  Arena.get?_modify ..

theorem holdsFrame_bindVariable (there : heap.HoldsFrame target frame') :
    (heap.bindVariable target name value).HoldsFrame frameRef frame ↔
      (frameRef = target ∧
        frame = { frame' with bindings := frame'.bindings.insert name value }) ∨
      (frameRef ≠ target ∧ heap.HoldsFrame frameRef frame) := by
  have changed : (heap.bindVariable target name value).HoldsFrame frameRef frame ↔
      ∃ old, heap.HoldsFrame frameRef old ∧ frame =
        if frameRef.index = target.index then
          { old with bindings := old.bindings.insert name value } else old :=
    Arena.holds_modify
  rw [changed]
  by_cases same : frameRef = target
  · subst same
    simp only [if_true, true_and, ne_eq, not_true_eq_false, false_and, or_false]
    constructor
    · rintro ⟨old, holds, rfl⟩
      rw [holds.eq there]
    · rintro rfl
      exact ⟨frame', there, rfl⟩
  · simp only [same, false_and, false_or, ne_eq, not_false_eq_true, true_and]
    constructor
    · rintro ⟨old, holds, rfl⟩
      rw [if_neg fun index => same (holds.ref_eq there index)]
      exact holds
    · intro holds
      exact ⟨frame, holds, (if_neg fun index => same (holds.ref_eq there index)).symm⟩

theorem HoldsFrame.bindVariable (there : heap.HoldsFrame target frame') (name : String)
    (value : Value) : (heap.bindVariable target name value).HoldsFrame target
      { frame' with bindings := frame'.bindings.insert name value } :=
  (holdsFrame_bindVariable there).mpr (.inl ⟨rfl, rfl⟩)

theorem holdsFields_bindField {ref : InstanceRef} (there : heap.HoldsFields ref fields') :
    (heap.bindField ref name value).HoldsFields fieldsRef fields ↔
      (fieldsRef = ref ∧ fields = fields'.insert name value) ∨
      (fieldsRef ≠ ref ∧ heap.HoldsFields fieldsRef fields) := by
  have changed : (heap.bindField ref name value).HoldsFields fieldsRef fields ↔
      ∃ old, heap.HoldsFields fieldsRef old ∧ fields =
        if fieldsRef.index = ref.index then old.insert name value else old :=
    Arena.holds_modify
  rw [changed]
  by_cases same : fieldsRef = ref
  · subst same
    simp only [if_true, true_and, ne_eq, not_true_eq_false, false_and, or_false]
    constructor
    · rintro ⟨old, holds, rfl⟩
      rw [holds.eq there]
    · rintro rfl
      exact ⟨fields', there, rfl⟩
  · simp only [same, false_and, false_or, ne_eq, not_false_eq_true, true_and]
    constructor
    · rintro ⟨old, holds, rfl⟩
      rw [if_neg fun index => same (holds.ref_eq there index)]
      exact holds
    · intro holds
      exact ⟨fields, holds, (if_neg fun index => same (holds.ref_eq there index)).symm⟩

/-! ## Objects stay where they are -/

variable {object : HeapObject}

theorem Has.newFrame (frames : heap.frames.Sound) (h : heap.Has object)
    (enclosing : Option FrameRef) (construct : Construct) :
    (heap.newFrame enclosing construct).2.Has object := by
  cases object with
  | frame ref =>
    obtain ⟨frame, holds⟩ := h
    exact ⟨frame, (holdsFrame_newFrame frames).mpr (.inr holds)⟩
  | instance_ ref => exact h

theorem Has.newInstance (instances : heap.instances.Sound) (h : heap.Has object) :
    heap.newInstance.2.Has object := by
  cases object with
  | frame ref => exact h
  | instance_ ref =>
    obtain ⟨fields, holds⟩ := h
    exact ⟨fields, (holdsFields_newInstance instances).mpr (.inr holds)⟩

theorem Has.bindVariable (there : heap.HoldsFrame target frame') (h : heap.Has object)
    (name : String) (value : Value) : (heap.bindVariable target name value).Has object := by
  cases object with
  | frame ref =>
    obtain ⟨frame, holds⟩ := h
    by_cases same : ref = target
    · exact ⟨_, (holdsFrame_bindVariable there).mpr (.inl ⟨same, rfl⟩)⟩
    · exact ⟨frame, (holdsFrame_bindVariable there).mpr (.inr ⟨same, holds⟩)⟩
  | instance_ ref => exact h

theorem Has.bindField {ref : InstanceRef} (there : heap.HoldsFields ref fields')
    (h : heap.Has object) (name : String) (value : Value) :
    (heap.bindField ref name value).Has object := by
  cases object with
  | frame ref => exact h
  | instance_ ref' =>
    obtain ⟨fields, holds⟩ := h
    by_cases same : ref' = ref
    · exact ⟨_, (holdsFields_bindField there).mpr (.inl ⟨same, rfl⟩)⟩
    · exact ⟨fields, (holdsFields_bindField there).mpr (.inr ⟨same, holds⟩)⟩

theorem holdsFrame_newFrame_self (frames : heap.frames.Sound) (enclosing : Option FrameRef)
    (construct : Construct) : (heap.newFrame enclosing construct).2.HoldsFrame
      (heap.newFrame enclosing construct).1 ⟨.empty, enclosing, construct⟩ :=
  (holdsFrame_newFrame frames).mpr (.inl ⟨rfl, rfl⟩)

theorem holdsFields_newInstance_self (instances : heap.instances.Sound) :
    heap.newInstance.2.HoldsFields heap.newInstance.1 .empty :=
  (holdsFields_newInstance instances).mpr (.inl ⟨rfl, rfl⟩)

/-- A method that is bound to an object runs in a frame that binds `this` to it. -/
theorem holdsFrame_bindMethod (frames : heap.frames.Sound) (method : Closure) (object : Instance) :
    (heap.bindMethod method object).2.HoldsFrame (heap.bindMethod method object).1.frame
      ⟨Bindings.empty.insert thisName (.instance_ object), some method.frame,
        .self method.declaration⟩ :=
  (holdsFrame_bindVariable (holdsFrame_newFrame_self frames _ _)).mpr (.inl ⟨rfl, rfl⟩)

/-! ## Sound heaps -/

/-- Everything that a value refers to is on the heap. -/
def Bears (heap : Heap) (value : Value) : Prop := ∀ object ∈ value.referents, heap.Has object

theorem Bears.mono {later : Heap} (h : heap.Bears value)
    (stays : ∀ object, heap.Has object → later.Has object) : later.Bears value :=
  fun object mem => stays object (h object mem)

/-- The arenas are sound, nothing is marked, and whatever an object on the heap refers to is on the
heap. -/
structure Sound (heap : Heap) : Prop where
  frames : heap.frames.Sound
  instances : heap.instances.Sound
  cleanFrames : heap.frames.Clean
  cleanInstances : heap.instances.Clean
  closed : ∀ {object}, heap.Has object → ∀ object' ∈ heap.referents object, heap.Has object'

namespace Sound

theorem has_of_frame (sound : heap.Sound) (holds : heap.HoldsFrame frameRef frame) :
    ∀ object ∈ frame.referents, heap.Has object := by
  rw [← holds.referents]
  exact sound.closed (show heap.Has (.frame frameRef) from ⟨frame, holds⟩)

theorem has_of_fields (sound : heap.Sound) (holds : heap.HoldsFields fieldsRef fields) :
    ∀ object ∈ fields.values.flatMap Value.referents, heap.Has object := by
  rw [← holds.referents]
  exact sound.closed (show heap.Has (.instance_ fieldsRef) from ⟨fields, holds⟩)

theorem has_enclosing (sound : heap.Sound) (holds : heap.HoldsFrame frameRef frame)
    {enclosing : FrameRef} (h : frame.enclosing = some enclosing) :
    heap.Has (.frame enclosing) :=
  sound.has_of_frame holds _ (by simp [Frame.referents, h])

theorem bears_variable (sound : heap.Sound) (holds : heap.HoldsFrame frameRef frame)
    (found : frame.bindings.find? name = some value) : heap.Bears value := by
  intro object mem
  refine sound.has_of_frame holds object (List.mem_append_right _ ?_)
  exact List.mem_flatMap.mpr ⟨value, Bindings.mem_values_of_find? found, mem⟩

theorem bears_field (sound : heap.Sound) (holds : heap.HoldsFields fieldsRef fields)
    (found : fields.find? name = some value) : heap.Bears value := by
  intro object mem
  refine sound.has_of_fields holds object ?_
  exact List.mem_flatMap.mpr ⟨value, Bindings.mem_values_of_find? found, mem⟩

/-- A heap is closed if what its frames and fields refer to is on it. -/
theorem closed_of (frames : ∀ {ref frame}, heap.HoldsFrame ref frame →
      ∀ object ∈ frame.referents, heap.Has object)
    (fields : ∀ {ref fields}, heap.HoldsFields ref fields →
      ∀ object ∈ fields.values.flatMap Value.referents, heap.Has object) :
    ∀ {object}, heap.Has object → ∀ object' ∈ heap.referents object, heap.Has object' := by
  intro object has
  cases object with
  | frame ref =>
    obtain ⟨frame, holds⟩ := has
    rw [holds.referents]
    exact frames holds
  | instance_ ref =>
    obtain ⟨fs, holds⟩ := has
    rw [holds.referents]
    exact fields holds

theorem new (settings : Settings) : (Heap.new settings).Sound where
  frames := Arena.sound_empty
  instances := Arena.sound_empty
  cleanFrames := Arena.clean_empty
  cleanInstances := Arena.clean_empty
  closed := by
    refine closed_of (fun holds => ?_) fun holds => ?_
    · obtain ⟨slot, found, -, -⟩ := holds
      simp [Heap.new, Arena.empty] at found
    · obtain ⟨slot, found, -, -⟩ := holds
      simp [Heap.new, Arena.empty] at found

theorem newFrame (sound : heap.Sound) {enclosing : Option FrameRef}
    (there : ∀ ref ∈ enclosing, heap.Has (.frame ref)) (construct : Construct) :
    (heap.newFrame enclosing construct).2.Sound where
  frames := sound.frames.alloc _
  instances := sound.instances
  cleanFrames := sound.cleanFrames.alloc _
  cleanInstances := sound.cleanInstances
  closed := by
    refine closed_of (fun holds object mem => ?_) fun holds object mem => ?_
    · rcases (holdsFrame_newFrame sound.frames).mp holds with ⟨-, rfl⟩ | holds
      · cases enclosing with
        | none => cases mem
        | some ref =>
          obtain rfl : object = .frame ref := by
            simpa [Frame.referents, Bindings.values, Bindings.empty] using mem
          exact (there ref rfl).newFrame sound.frames _ _
      · exact (sound.has_of_frame holds object mem).newFrame sound.frames _ _
    · exact (sound.has_of_fields holds object mem).newFrame sound.frames _ _

theorem newInstance (sound : heap.Sound) : heap.newInstance.2.Sound where
  frames := sound.frames
  instances := sound.instances.alloc _
  cleanFrames := sound.cleanFrames
  cleanInstances := sound.cleanInstances.alloc _
  closed := by
    refine closed_of (fun holds object mem => ?_) fun holds object mem => ?_
    · exact (sound.has_of_frame holds object mem).newInstance sound.instances
    · rcases (holdsFields_newInstance sound.instances).mp holds with ⟨-, rfl⟩ | holds
      · cases mem
      · exact (sound.has_of_fields holds object mem).newInstance sound.instances

theorem newIdentity (sound : heap.Sound) : heap.newIdentity.2.Sound :=
  ⟨sound.frames, sound.instances, sound.cleanFrames, sound.cleanInstances, fun has => sound.closed has⟩

theorem bindVariable (sound : heap.Sound) (there : heap.HoldsFrame target frame')
    (bears : heap.Bears value) (name : String) : (heap.bindVariable target name value).Sound where
  frames := sound.frames.modify _ _
  instances := sound.instances
  cleanFrames := sound.cleanFrames.modify _ _
  cleanInstances := sound.cleanInstances
  closed := by
    refine closed_of (fun holds object mem => ?_) fun holds object mem => ?_
    · have before : heap.Has object := by
        rcases (holdsFrame_bindVariable there).mp holds with ⟨-, rfl⟩ | ⟨-, holds⟩
        · rcases List.mem_append.mp mem with mem | mem
          · exact sound.has_of_frame there object (List.mem_append_left _ mem)
          · obtain ⟨v, stored, inValue⟩ := List.mem_flatMap.mp mem
            rcases Bindings.mem_values_insert stored with rfl | stored
            · exact bears object inValue
            · refine sound.has_of_frame there object (List.mem_append_right _ ?_)
              exact List.mem_flatMap.mpr ⟨v, stored, inValue⟩
        · exact sound.has_of_frame holds object mem
      exact before.bindVariable there name value
    · exact (sound.has_of_fields holds object mem).bindVariable there name value

theorem bindField {ref : InstanceRef} (sound : heap.Sound) (there : heap.HoldsFields ref fields')
    (bears : heap.Bears value) (name : String) : (heap.bindField ref name value).Sound where
  frames := sound.frames
  instances := sound.instances.modify _ _
  cleanFrames := sound.cleanFrames
  cleanInstances := sound.cleanInstances.modify _ _
  closed := by
    refine closed_of (fun holds object mem => ?_) fun holds object mem => ?_
    · exact (sound.has_of_frame holds object mem).bindField there name value
    · have before : heap.Has object := by
        rcases (holdsFields_bindField there).mp holds with ⟨-, rfl⟩ | ⟨-, holds⟩
        · obtain ⟨v, stored, inValue⟩ := List.mem_flatMap.mp mem
          rcases Bindings.mem_values_insert stored with rfl | stored
          · exact bears object inValue
          · exact sound.has_of_fields there object (List.mem_flatMap.mpr ⟨v, stored, inValue⟩)
        · exact sound.has_of_fields holds object mem
      exact before.bindField there name value

end Sound

/-! ## From one heap to a later one -/

/-- What does not change from a heap to a later one. -/
structure Leads (before after : Heap) : Prop where
  allocated_le : before.frames.allocated ≤ after.frames.allocated
  /-- A frame that is there later and was made before was there before, with the same frame around
  it, and if it bound `this` it binds it to the same value. -/
  frame : ∀ {ref : FrameRef} {frame' : Frame}, after.HoldsFrame ref frame' →
    ref.serial < before.frames.allocated → ∃ frame, before.HoldsFrame ref frame ∧
      frame'.enclosing = frame.enclosing ∧
      ∀ value, frame.bindings.find? thisName = some value →
        frame'.bindings.find? thisName = some value

namespace Leads

variable {before between after : Heap}

theorem refl (heap : Heap) : heap.Leads heap :=
  ⟨Nat.le_refl _, fun holds _ => ⟨_, holds, rfl, fun _ found => found⟩⟩

theorem trans (h : before.Leads between) (h' : between.Leads after) : before.Leads after where
  allocated_le := Nat.le_trans h.allocated_le h'.allocated_le
  frame := by
    intro ref frame'' holds old
    obtain ⟨frame', holds', enclosing', this'⟩ :=
      h'.frame holds (Nat.lt_of_lt_of_le old h.allocated_le)
    obtain ⟨frame, holds, enclosing, this⟩ := h.frame holds' old
    exact ⟨frame, holds, enclosing'.trans enclosing, fun v found => this' v (this v found)⟩

theorem newFrame (frames : heap.frames.Sound) (enclosing : Option FrameRef)
    (construct : Construct) : heap.Leads (heap.newFrame enclosing construct).2 where
  allocated_le := by
    simp only [Heap.newFrame, Arena.allocated_alloc]
    omega
  frame := by
    intro ref frame' holds old
    rcases (holdsFrame_newFrame frames).mp holds with ⟨rfl, -⟩ | holds
    · exact absurd old (Nat.lt_irrefl _)
    · exact ⟨frame', holds, rfl, fun _ found => found⟩

theorem newInstance (heap : Heap) : heap.Leads heap.newInstance.2 :=
  ⟨Nat.le_refl _, fun holds _ => ⟨_, holds, rfl, fun _ found => found⟩⟩

theorem bindField (heap : Heap) (ref : InstanceRef) (name : String) (value : Value) :
    heap.Leads (heap.bindField ref name value) :=
  ⟨Nat.le_refl _, fun holds _ => ⟨_, holds, rfl, fun _ found => found⟩⟩

/-- Any name but `this` may be bound anew. -/
theorem bindVariable (heap : Heap) (target : FrameRef) (ne : name ≠ thisName) (value : Value) :
    heap.Leads (heap.bindVariable target name value) where
  allocated_le := Nat.le_refl _
  frame := by
    intro ref frame holds _
    obtain ⟨old, held, rfl⟩ := Arena.holds_modify.mp holds
    refine ⟨old, held, ?_, fun v found => ?_⟩
    · split <;> rfl
    · split
      · rw [Bindings.find?_insert_of_ne _ ne]
        exact found
      · exact found

/-- Any name may be bound in a frame that was not made before. -/
theorem bindVariable_new (h : before.Leads heap) (there : heap.HoldsFrame target frame')
    (new : before.frames.allocated ≤ target.serial) (name : String) (value : Value) :
    before.Leads (heap.bindVariable target name value) where
  allocated_le := h.allocated_le
  frame := by
    intro ref frame holds old
    rcases (holdsFrame_bindVariable there).mp holds with ⟨rfl, -⟩ | ⟨-, holds⟩
    · exact absurd old (Nat.not_lt_of_le new)
    · exact h.frame holds old

end Leads

end Heap

end Lox
