import Lox.Proofs.Ideal.Rules

/-!
# What can be reached on the ideal heap

An object can be reached on a heap if and only if its ideal can be reached on the ideal heap.  So the
survivors of a collection are told by the ideal run alone, and so is their number: how often garbage
was collected before makes no difference to it.
-/

namespace Lox

namespace Arena

variable {α : Type} {arena arena' : Arena α}

theorem Sound.live_le (sound : arena.Sound) (sound' : arena'.Sound)
    (held : ∀ {index serial a}, arena.Holds index serial a →
      ∃ index' a', arena'.Holds index' serial a') : arena.live ≤ arena'.live := by
  have place : ∀ index ∈ arena.occupied, ∃ index' ∈ arena'.occupied, ∃ serial a a',
      arena.Holds index serial a ∧ arena'.Holds index' serial a' := by
    intro index mem
    obtain ⟨serial, a, holds⟩ := mem_occupied.mp mem
    obtain ⟨index', a', holds'⟩ := held holds
    exact ⟨index', mem_occupied.mpr ⟨serial, a', holds'⟩, serial, a, a', holds, holds'⟩
  choose! place mem same using place
  rw [sound.live_eq, sound'.live_eq]
  refine Finset.card_le_card_of_injOn place mem fun i hi j hj known => ?_
  obtain ⟨serial, a, a', holds, holds'⟩ := same i hi
  obtain ⟨serial', b, b', known₁, known₂⟩ := same j hj
  rw [← known] at known₂
  obtain ⟨rfl, -⟩ := holds'.unique known₂
  exact sound.serial_inj holds known₁

/-- Arenas that hold what was allocated at the same times hold equally much. -/
theorem Sound.live_eq_live (sound : arena.Sound) (sound' : arena'.Sound)
    (same : ∀ serial, (∃ index a, arena.Holds index serial a) ↔
      ∃ index a, arena'.Holds index serial a) : arena.live = arena'.live :=
  Nat.le_antisymm (sound.live_le sound' fun holds => (same _).mp ⟨_, _, holds⟩)
    (sound'.live_le sound fun holds => (same _).mpr ⟨_, _, holds⟩)

end Arena

namespace Heap

variable {heap heap' ideal : Heap} {roots roots' : List HeapObject} {object : HeapObject}

theorem Represents.referents (rep : heap.Represents ideal) (has : heap.Has object) :
    ideal.referents object.ideal = (heap.referents object).map HeapObject.ideal := by
  cases object with
  | frame ref =>
    obtain ⟨frame, holds⟩ := has
    have found : ideal.frames.get? ref.ideal.index = some frame.ideal := rep.frames.get holds
    rw [holds.referents, HeapObject.ideal, Heap.referents, found]
    exact frame.referents_ideal
  | instance_ ref =>
    obtain ⟨fields, holds⟩ := has
    have found : ideal.instances.get? ref.ideal.index = some (fields.map Value.ideal) :=
      rep.instances.get holds
    rw [holds.referents, HeapObject.ideal, Heap.referents, found]
    simp only [Bindings.values_map, List.flatMap_map, List.map_flatMap, Value.referents_ideal]

section

variable (sound : heap.Sound) (there : ∀ object ∈ roots, heap.Has object)
  (rep : heap.Represents ideal)

include sound there rep

theorem Represents.reachable (h : heap.Reachable roots object) :
    ideal.Reachable (roots.map HeapObject.ideal) object.ideal := by
  induction h with
  | root mem => exact .root (List.mem_map_of_mem mem)
  | step before mem ih =>
    refine .step ih ?_
    rw [rep.referents (before.has sound there)]
    exact List.mem_map_of_mem mem

/-- Nothing else can be reached on the ideal heap. -/
theorem Represents.exists_reachable (h : ideal.Reachable (roots.map HeapObject.ideal) object) :
    ∃ object', heap.Reachable roots object' ∧ object'.ideal = object := by
  induction h with
  | root mem =>
    obtain ⟨object', mem', rfl⟩ := List.mem_map.mp mem
    exact ⟨object', .root mem', rfl⟩
  | step _ mem ih =>
    obtain ⟨before, reachable, rfl⟩ := ih
    rw [rep.referents (reachable.has sound there)] at mem
    obtain ⟨object', mem', rfl⟩ := List.mem_map.mp mem
    exact ⟨object', .step reachable mem', rfl⟩

/-- The frames that survive a collection are told by the ideal heap. -/
theorem Represents.survives_frame_iff (serial : Nat) :
    (∃ index frame, (heap.collect roots).2.frames.Holds index serial frame) ↔
      ideal.Reachable (roots.map HeapObject.ideal) (.frame ⟨serial, serial⟩) := by
  constructor
  · rintro ⟨index, frame, holds⟩
    have survives : (heap.collect roots).2.HoldsFrame ⟨index, serial⟩ frame := holds
    exact rep.reachable sound there ((holdsFrame_collect sound there).mp survives).2
  · intro ideally
    obtain ⟨object, reachable, same⟩ := rep.exists_reachable sound there ideally
    cases object with
    | frame ref =>
      cases same
      obtain ⟨frame, holds⟩ := reachable.has sound there
      exact ⟨ref.index, frame, (holdsFrame_collect sound there).mpr ⟨holds, reachable⟩⟩
    | instance_ ref => cases same

/-- The instances that survive a collection are told by the ideal heap. -/
theorem Represents.survives_instance_iff (serial : Nat) :
    (∃ index fields, (heap.collect roots).2.instances.Holds index serial fields) ↔
      ideal.Reachable (roots.map HeapObject.ideal) (.instance_ ⟨serial, serial⟩) := by
  constructor
  · rintro ⟨index, fields, holds⟩
    have survives : (heap.collect roots).2.HoldsFields ⟨index, serial⟩ fields := holds
    exact rep.reachable sound there ((holdsFields_collect sound there).mp survives).2
  · intro ideally
    obtain ⟨object, reachable, same⟩ := rep.exists_reachable sound there ideally
    cases object with
    | frame ref => cases same
    | instance_ ref =>
      cases same
      obtain ⟨fields, holds⟩ := reachable.has sound there
      exact ⟨ref.index, fields, (holdsFields_collect sound there).mpr ⟨holds, reachable⟩⟩

end

end Heap

namespace State.Represents

variable {st st' ideal : State}

theorem roots (h : st.Represents ideal) : ideal.roots = st.roots.map HeapObject.ideal := by
  simp only [State.roots, h.globals, h.current, h.saved, h.temporaries, Array.toList_map,
    List.map_cons, List.map_append, List.map_map, List.flatMap_map, List.map_flatMap,
    Value.referents_ideal]
  rfl

/-- **The number of survivors of a collection is told by the ideal.** -/
theorem live_collect (h : st.Represents ideal) (h' : st'.Represents ideal) :
    st.collect.1.liveFrames = st'.collect.1.liveFrames ∧
      st.collect.1.liveInstances = st'.collect.1.liveInstances := by
  have sound := h.valid.heap.sound
  have sound' := h'.valid.heap.sound
  have collected := Heap.Sound.collect sound h.valid.roots
  have collected' := Heap.Sound.collect sound' h'.valid.roots
  constructor
  · refine collected.frames.live_eq_live collected'.frames fun serial => ?_
    rw [h.heap.survives_frame_iff sound h.valid.roots,
      h'.heap.survives_frame_iff sound' h'.valid.roots, ← h.roots, ← h'.roots]
  · refine collected.instances.live_eq_live collected'.instances fun serial => ?_
    rw [h.heap.survives_instance_iff sound h.valid.roots,
      h'.heap.survives_instance_iff sound' h'.valid.roots, ← h.roots, ← h'.roots]

end State.Represents

end Lox
