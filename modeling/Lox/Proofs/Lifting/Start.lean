import Lox.Proofs.Ideal.State
import Lox.Proofs.Lifting.Actions

/-!
# Where two runs part

Before a second run goes through additional scopes, both runs are in the same state.  Each frame that is
on the heap then is its own copy (`Heap.held`), and a state where no place is used twice lifts to itself
(`State.Represents.lifts_self`).  Every valid state has an ideal where no place is used twice
(`State.Valid.exists_represents`).
-/

namespace Lox

variable {heap ideal : Heap} {ref : FrameRef} {frame : Frame}

/-- What is on the heap belongs together with itself, at the places that are the serial numbers. -/
def Heap.held (heap : Heap) : Pairing where
  frames gap index index' :=
    gap = .nowhere ∧ index' = index ∧ ∃ ref : FrameRef, heap.Has (.frame ref) ∧ ref.serial = index
  fields index := ∃ ref : InstanceRef, heap.Has (.instance_ ref) ∧ ref.serial = index

theorem Heap.held_at (there : heap.Has (.frame ref)) : heap.held.At .nowhere ref.ideal ref.ideal :=
  ⟨rfl, rfl, ref, there, rfl⟩

/-! ## Values -/

theorem Closure.lifts_held {c : Closure} (there : heap.Has (.frame c.frame)) (around : Gap → Gap)
    (keeps : around .nowhere = .nowhere) : c.ideal.Lifts heap.held around c.ideal := by
  refine ⟨⟨.nowhere, Heap.held_at there, ?_, fun _ => ?_⟩, rfl⟩
  · rw [keeps]
    exact c.declaration.lifts_nowhere
  · rw [keeps]
    exact Gap.nowhere_ne_here

theorem Class.lifts_held {c : Class} (there : ∀ closure ∈ c.closures, heap.Has (.frame closure.frame)) :
    c.ideal.Lifts heap.held c.ideal := by
  have body (body : ClassBody) (mem : body ∈ c.lineage) : body.ideal.Lifts heap.held body.ideal := by
    refine ⟨rfl, rfl, fun name => ?_⟩
    rw [ClassBody.ideal, Bindings.find?_map]
    cases found : body.methods.find? name with
    | none => exact .none
    | some method =>
      have inClass : method ∈ c.closures :=
        List.mem_flatMap.mpr ⟨body, mem, Bindings.mem_values_of_find? found⟩
      exact .some (Closure.lifts_held (there method inClass) _ rfl)
  rw [Class.Lifts, Class.lineage_ideal, List.forall₂_map_left_iff, List.forall₂_map_right_iff,
    List.forall₂_same]
  exact body

/-- A value that bears on the heap alone lifts to itself. -/
theorem Value.lifts_held {v : Value} (bears : heap.Bears v) : v.ideal.Lifts heap.held v.ideal := by
  have methods {c : Class} (all : ∀ object ∈ c.referents, heap.Has object) (closure : Closure)
      (mem : closure ∈ c.closures) : heap.Has (.frame closure.frame) := by
    rw [c.referents_eq] at all
    exact all _ (List.mem_map_of_mem mem)
  cases v with
  | nil => exact .nil
  | boolean b => exact .boolean b
  | number x => exact .number x
  | string s => exact .string s
  | native identity native => exact .native identity native
  | function identity c =>
    exact .function identity (Closure.lifts_held (bears _ List.mem_cons_self) id rfl)
  | class_ c => exact .class_ (Class.lifts_held (methods bears))
  | instance_ object =>
    have known : heap.held.fields object.fields.ideal.index :=
      ⟨object.fields, bears _ List.mem_cons_self, rfl⟩
    exact .instance_ known (Class.lifts_held (methods fun o mem => bears o (List.mem_cons_of_mem _ mem)))

theorem Bindings.lift_held {b : Bindings Value}
    (bears : ∀ {name v}, b.find? name = some v → heap.Bears v) :
    (b.map Value.ideal).Lift heap.held (b.map Value.ideal) := by
  intro name
  rw [Bindings.find?_map]
  cases found : b.find? name with
  | none => exact .none
  | some v => exact .some (Value.lifts_held (bears found))

/-! ## The heap and the state -/

theorem Heap.Sound.lifts_held (sound : heap.Sound) (holds : heap.HoldsFrame ref frame) (index : Nat) :
    frame.ideal.Lifts heap.held index .nowhere frame.ideal := by
  have bindings : (frame.bindings.map Value.ideal).Lift heap.held _ :=
    Bindings.lift_held fun found => sound.bears_variable holds found
  have enclosing : Option.Rel (heap.held.At .nowhere) frame.ideal.enclosing frame.ideal.enclosing := by
    rw [Frame.ideal]
    cases outer : frame.enclosing with
    | none => exact .none
    | some outer' => exact .some (Heap.held_at (sound.has_enclosing holds outer))
  exact .copy bindings enclosing

theorem Heap.Represents.lifts_self (represents : heap.Represents ideal) (sound : heap.Sound) :
    ideal.Lifts heap.held ideal where
  frames := by
    rintro _ _ _ ⟨rfl, rfl, ref, ⟨frame, holds⟩, rfl⟩
    have found := represents.frames.get holds
    exact ⟨_, _, found, found, sound.lifts_held holds _⟩
  apart := by
    rintro _ index _ _ index₁ _ ⟨rfl, rfl, -⟩ ⟨rfl, rfl, -⟩ -
    exact ⟨fun same => ⟨same, Gap.nowhere_ne_here⟩, And.left⟩
  instances := by
    refine ⟨fun index => ?_, represents.instances.free, represents.instances.free, rfl, rfl⟩
    cases found : ideal.instances.get? index with
    | none => exact .none
    | some fields =>
      refine .some ?_
      rintro ⟨ref, ⟨fields', holds⟩, rfl⟩
      obtain rfl := Option.some.inj (found.symm.trans (represents.instances.get holds))
      exact Bindings.lift_held fun found => sound.bears_field holds found
  nextIdentity := rfl
  free := represents.frames.free
  free' := represents.frames.free

/-- **A state where no place is used twice lifts to itself.** -/
theorem State.Represents.lifts_self {st ideal : State} (represents : st.Represents ideal) :
    ideal.Lifts st.heap.held ideal where
  heap := represents.heap.lifts_self represents.valid.heap.sound
  globals := by
    obtain ⟨frame, holds⟩ := represents.valid.heap.hasGlobals
    rw [represents.globals]
    refine ⟨Heap.held_at ⟨frame, holds⟩, frame.ideal, represents.heap.frames.get holds, ?_⟩
    rw [Frame.ideal, (represents.valid.heap.outermost holds).mpr rfl]
    rfl
  callDepth := rfl
  maxCallDepth := rfl
  sink := rfl
  clock := rfl

theorem State.Represents.held_current {st ideal : State} (represents : st.Represents ideal) :
    st.heap.held.At .nowhere ideal.current ideal.current := by
  rw [represents.current]
  exact Heap.held_at represents.valid.hasCurrent

/-! ## Ideals -/

/-- What an arena holds can be put where no place is used twice. -/
theorem Arena.Sound.exists_represents {α : Type} {arena : Arena α} (sound : arena.Sound) (f : α → α) :
    ∃ ideal : Arena α, Arena.Represents f arena ideal := by
  have placed (serial : Nat) : ∃ content : Option α, ∀ index a, arena.Holds index serial a →
      content = some (f a) := by
    by_cases held : ∃ index a, arena.Holds index serial a
    · obtain ⟨index, a, holds⟩ := held
      refine ⟨some (f a), fun index' a' holds' => ?_⟩
      obtain rfl := sound.serial_inj holds holds'
      rw [(holds.unique holds').2]
    · exact ⟨none, fun index a holds => (held ⟨index, a, holds⟩).elim⟩
  choose content placed using placed
  let slot (serial : Fin arena.allocated) : Slot α := ⟨content serial, false, serial⟩
  refine ⟨⟨Array.ofFn slot, [], arena.live, arena.allocated⟩, ?_, rfl, Array.size_ofFn, rfl⟩
  intro index serial a holds
  have found : (Array.ofFn slot)[serial]? = some (slot ⟨serial, sound.serial_lt holds⟩) := by
    rw [Array.getElem?_ofFn, dif_pos (sound.serial_lt holds)]
  rw [Arena.get?, found]
  exact placed serial index a holds

/-- **Every valid state has an ideal.** -/
theorem State.Valid.exists_represents {st : State} (valid : st.Valid) :
    ∃ ideal, st.Represents ideal := by
  obtain ⟨frames, representsFrames⟩ := valid.heap.sound.frames.exists_represents Frame.ideal
  obtain ⟨instances, representsInstances⟩ :=
    valid.heap.sound.instances.exists_represents (Bindings.map Value.ideal)
  exact ⟨{ st with
      heap := { st.heap with frames := frames, instances := instances }
      globals := st.globals.ideal
      current := st.current.ideal
      saved := st.saved.map FrameRef.ideal
      temporaries := st.temporaries.map Value.ideal },
    valid, ⟨representsFrames, representsInstances, rfl⟩, rfl, rfl, rfl, rfl, rfl, rfl, rfl, rfl⟩

end Lox
