import Lox.Proofs.Heap.Exact

/-!
# Slots are used again

An arena keeps four accounts of one thing: a slot holds an object or none, the free list names the empty
slots, `live` counts the occupied ones, and none but an occupied slot is marked.  Allocating and sweeping
change each of them by itself.

`Arena.Operation` is what can be done to an arena, and `Arena.after` the arena that some operations make,
one after the other.  Whatever they are, the accounts agree (`Arena.Consistent`).  Hence an allocation
never takes a slot that is in use, and a sweep never frees more than there is (`Arena.consistent_after`).

The two arenas of a heap are made in this way, also in the middle of a collection (`Heap.Built.made`).
-/

namespace Lox

namespace Arena

variable {α : Type} {arena : Arena α} {index : Nat} {a : α}

/-! ## Operations -/

/-- Mark a slot, unless it is empty or marked already: has it been marked just now? -/
def touch (arena : Arena α) (index : Nat) : Bool × Arena α :=
  if arena.isUnmarked index then (true, arena.mark index) else (false, arena)

/-- What can be done to an arena. -/
inductive Operation (α : Type) where
  | alloc (object : α)
  | modify (index : Nat) (f : α → α)
  | mark (index : Nat)
  | sweep

/-- What an operation makes of an arena. -/
def Operation.perform : Operation α → Arena α → Arena α
  | alloc object, arena => (arena.alloc object).2
  | modify index f, arena => arena.modify index f
  | mark index, arena => (arena.touch index).2
  | sweep, arena => arena.sweep.2

/-- The arena that operations make, one after the other. -/
def after (operations : List (Operation α)) : Arena α :=
  operations.foldl (fun arena operation => operation.perform arena) .empty

theorem after_concat (operations : List (Operation α)) (operation : Operation α) :
    after (operations ++ [operation]) = operation.perform (after operations) := by
  simp [after]

/-! ## Marks are on occupied slots only -/

instance : DecidablePred arena.IsMarked := fun index =>
  decidable_of_iff (arena.slots[index]?.any Slot.marked = true) (by simp [IsMarked, Option.any_eq_true])

/-- Only occupied slots are marked. -/
def MarksOccupied (arena : Arena α) : Prop := ∀ index, arena.IsMarked index → index ∈ arena.occupied

theorem Clean.marksOccupied (clean : arena.Clean) : arena.MarksOccupied :=
  fun index marked => absurd marked (clean.not_isMarked index)

/-- A slot that is used again keeps its mark, which an empty slot does not have. -/
theorem getElem?_alloc_of_marksOccupied (sound : arena.Sound) (marks : arena.MarksOccupied) (a : α)
    (index : Nat) : (arena.alloc a).2.slots[index]? =
      if index = (arena.alloc a).1 then some ⟨some a, false, arena.allocated⟩
      else arena.slots[index]? := by
  have unmarked := mt (marks (arena.alloc a).1) (notMem_occupied_alloc sound a)
  unfold alloc at unmarked ⊢
  split at unmarked
  · rename_i free rest found
    have lt := (sound.mem_free.mp (found ▸ List.mem_cons_self : free ∈ arena.free)).1
    have mark : arena.slots[free].marked = false := by
      by_contra marked
      exact unmarked ⟨_, Array.getElem?_eq_getElem lt, Bool.not_eq_false _ ▸ marked⟩
    simp only [Array.getElem?_modify]
    by_cases same : free = index
    · subst same
      simp [lt, mark]
    · rw [if_neg same, if_neg fun h => same h.symm]
  · simp only [Array.getElem?_push]

theorem MarksOccupied.alloc (sound : arena.Sound) (marks : arena.MarksOccupied) (a : α) :
    (arena.alloc a).2.MarksOccupied := by
  rintro index ⟨slot, found, marked⟩
  rw [getElem?_alloc_of_marksOccupied sound marks] at found
  rw [occupied_alloc sound, Finset.mem_insert]
  split at found
  · exact .inl ‹_›
  · exact .inr (marks index ⟨slot, found, marked⟩)

theorem MarksOccupied.modify (marks : arena.MarksOccupied) (index : Nat) (f : α → α) :
    (arena.modify index f).MarksOccupied := by
  rintro other ⟨slot, found, marked⟩
  rw [occupied_modify]
  simp only [Arena.modify, Array.getElem?_modify] at found
  split at found
  · obtain ⟨old, there, rfl⟩ := Option.map_eq_some_iff.mp found
    exact marks other ⟨old, there, marked⟩
  · exact marks other ⟨slot, found, marked⟩

theorem MarksOccupied.touch (marks : arena.MarksOccupied) (index : Nat) :
    (arena.touch index).2.MarksOccupied := by
  unfold Arena.touch
  split
  · rename_i unmarked
    intro other marked
    rw [(Remarked.mark unmarked).occupied]
    rcases isMarked_mark.mp marked with ⟨rfl, -⟩ | marked
    · exact mem_occupied.mpr (isUnmarked_iff.mp unmarked).1
    · exact marks other marked
  · exact marks

/-! ## All operations keep the accounts -/

theorem Sound.touch (sound : arena.Sound) (index : Nat) : (arena.touch index).2.Sound := by
  unfold Arena.touch
  split
  · exact (Remarked.mark ‹_›).sound sound
  · exact sound

theorem Operation.keeps (operation : Operation α) (sound : arena.Sound)
    (marks : arena.MarksOccupied) :
    (operation.perform arena).Sound ∧ (operation.perform arena).MarksOccupied := by
  cases operation with
  | alloc object => exact ⟨sound.alloc object, marks.alloc sound object⟩
  | modify index f => exact ⟨sound.modify index f, marks.modify index f⟩
  | mark index => exact ⟨sound.touch index, marks.touch index⟩
  | sweep => exact ⟨sound.sweep, clean_sweep.marksOccupied⟩

theorem sound_after (operations : List (Operation α)) :
    (after operations).Sound ∧ (after operations).MarksOccupied := by
  induction operations using List.reverseRecOn with
  | nil => exact ⟨sound_empty, clean_empty.marksOccupied⟩
  | append_singleton operations operation ih =>
    rw [after_concat]
    exact operation.keeps ih.1 ih.2

/-! ## What the accounts are good for -/

/-- The four accounts agree. -/
structure Consistent (arena : Arena α) : Prop where
  /-- The free list has every empty slot in it, and nothing else … -/
  mem_free : ∀ index, index ∈ arena.free ↔ index < arena.slots.size ∧ arena.get? index = none
  /-- … and has it once. -/
  nodup_free : arena.free.Nodup
  live_eq : arena.live = arena.occupied.card
  occupied_of_isMarked : ∀ index, arena.IsMarked index → (arena.get? index).isSome

/-- An object is put into a slot, which was empty; no other slot changes, not even its mark. -/
structure Allocates (arena : Arena α) (object : α) (index : Nat) (later : Arena α) : Prop where
  empty : arena.get? index = none
  get? : later.get? index = some object
  unmarked : ¬later.IsMarked index
  others : ∀ other, other ≠ index → later.slots[other]? = arena.slots[other]?
  live_eq : later.live = arena.live + 1

/-- The occupied slots that are not marked are emptied, so many of them, and there are no marks
afterwards. -/
structure Sweeps (arena : Arena α) (freed : Nat) (later : Arena α) : Prop where
  get? : ∀ index object,
    later.get? index = some object ↔ arena.get? index = some object ∧ arena.IsMarked index
  clean : later.Clean
  freed_eq : freed = (arena.occupied.filter fun index => ¬arena.IsMarked index).card
  /-- The count of what is left is no less than nothing. -/
  freed_le : freed ≤ arena.live
  live_eq : later.live = arena.live - freed

theorem notMem_occupied_iff : index ∉ arena.occupied ↔ arena.get? index = none := by
  rw [mem_occupied, exists_comm]
  simp only [← get?_eq_some_iff, Option.eq_none_iff_forall_ne_some, not_exists, ne_eq]

theorem Sound.consistent (sound : arena.Sound) (marks : arena.MarksOccupied) : arena.Consistent where
  mem_free index := by rw [sound.mem_free, notMem_occupied_iff]
  nodup_free := sound.nodup_free
  live_eq := sound.live_eq
  occupied_of_isMarked index marked := by
    obtain ⟨_, a, holds⟩ := mem_occupied.mp (marks index marked)
    exact Option.isSome_iff_exists.mpr ⟨a, holds.get?⟩

theorem Sound.allocates (sound : arena.Sound) (marks : arena.MarksOccupied) (a : α) :
    arena.Allocates a (arena.alloc a).1 (arena.alloc a).2 := by
  have slots := getElem?_alloc_of_marksOccupied sound marks a
  have new := (slots (arena.alloc a).1).trans (if_pos rfl)
  refine ⟨notMem_occupied_iff.mp (notMem_occupied_alloc sound a), ?_, ?_, fun other ne => ?_, live_alloc⟩
  · rw [Arena.get?, new]
    rfl
  · rintro ⟨slot, found, marked⟩
    rw [new, Option.some.injEq] at found
    subst found
    cases marked
  · rw [slots, if_neg ne]

/-- An object may be changed right after it is put into its slot. -/
theorem Allocates.modify {later : Arena α} (h : arena.Allocates a index later) (f : α → α) :
    arena.Allocates (f a) index (later.modify index f) where
  empty := h.empty
  get? := by rw [get?_modify, if_pos rfl, h.get?, Option.map_some]
  unmarked := by
    rintro ⟨slot, found, marked⟩
    simp only [Arena.modify, Array.getElem?_modify, if_true] at found
    obtain ⟨old, there, rfl⟩ := Option.map_eq_some_iff.mp found
    exact h.unmarked ⟨old, there, marked⟩
  others other ne := by
    simp only [Arena.modify, Array.getElem?_modify, if_neg (Ne.symm ne), h.others other ne]
  live_eq := h.live_eq

theorem toFinset_unmarked (arena : Arena α) :
    arena.unmarked.toFinset = arena.occupied.filter fun index => ¬arena.IsMarked index := by
  ext index
  rw [List.mem_toFinset, mem_unmarked, isUnmarked_iff, Finset.mem_filter, mem_occupied]

theorem Sound.sweeps (sound : arena.Sound) : arena.Sweeps arena.sweep.1 arena.sweep.2 where
  get? index object := by
    simp only [get?_eq_some_iff, holds_sweep, exists_and_right]
  clean := clean_sweep
  freed_eq := by
    rw [← toFinset_unmarked, List.toFinset_card_of_nodup nodup_unmarked]
    rfl
  freed_le := by
    have total := sound.live_add_freed_sweep
    omega
  live_eq := rfl

/-- **The accounts of an arena agree, whatever has been done to it.**  Therefore an allocation takes a
slot that is empty and leaves all others alone, and a sweep empties the slots that it should, and no more
than there are. -/
theorem consistent_after (operations : List (Operation α)) :
    (after operations).Consistent ∧
      (∀ object, (after operations).Allocates object ((after operations).alloc object).1
        ((after operations).alloc object).2) ∧
      (after operations).Sweeps (after operations).sweep.1 (after operations).sweep.2 := by
  obtain ⟨sound, marks⟩ := sound_after operations
  exact ⟨sound.consistent marks, fun object => sound.allocates marks object, sound.sweeps⟩

/-- The slot that a sweep has emptied is the next one to be used. -/
example : ((after [.alloc "a", .alloc "b", .mark 1, .sweep]).alloc "c").1 = 0 := by decide

/-- Operations have made the arena. -/
def Made (arena : Arena α) : Prop := ∃ operations, after operations = arena

theorem Made.perform (made : arena.Made) (operation : Operation α) :
    (operation.perform arena).Made := by
  obtain ⟨operations, rfl⟩ := made
  exact ⟨operations ++ [operation], after_concat operations operation⟩

theorem Made.mark (made : arena.Made) (unmarked : arena.isUnmarked index = true) :
    (arena.mark index).Made := by
  have touched := made.perform (.mark index)
  rwa [Operation.perform, touch, if_pos unmarked] at touched

end Arena

/-! ## The arenas of a heap -/

namespace Heap

variable {heap : Heap}

/-- Operations have made the arenas of the heap. -/
structure Made (heap : Heap) : Prop where
  frames : heap.frames.Made
  instances : heap.instances.Made

namespace Made

theorem mark (made : heap.Made) {object : HeapObject} (unmarked : heap.isUnmarked object = true) :
    (heap.mark object).Made := by
  cases object with
  | frame ref => exact ⟨made.frames.mark unmarked, made.instances⟩
  | instance_ ref => exact ⟨made.frames, made.instances.mark unmarked⟩

theorem markEach (made : heap.Made) (objects : List HeapObject) : (heap.markEach objects).1.Made := by
  induction objects generalizing heap with
  | nil => exact made
  | cons object rest ih =>
    rw [Heap.markEach]
    split
    · exact ih (made.mark ‹_›)
    · exact ih made

theorem trace (made : heap.Made) (rounds : Nat) (objects : List HeapObject) :
    (Heap.trace rounds objects heap).Made := by
  induction rounds generalizing objects heap with
  | zero => exact made
  | succ rounds ih =>
    have marked := made.markEach objects
    rw [Heap.trace]
    generalize heap.markEach objects = outcome at marked
    obtain ⟨later, fresh⟩ := outcome
    cases fresh with
    | nil => exact marked
    | cons first rest => exact ih marked _

theorem bindVariable (made : heap.Made) (ref : FrameRef) (name : String) (value : Value) :
    (heap.bindVariable ref name value).Made :=
  ⟨made.frames.perform (.modify _ _), made.instances⟩

theorem bindField (made : heap.Made) (ref : InstanceRef) (name : String) (value : Value) :
    (heap.bindField ref name value).Made :=
  ⟨made.frames, made.instances.perform (.modify _ _)⟩

theorem collect (made : heap.Made) (roots : List HeapObject) : (heap.collect roots).2.Made :=
  have marked := made.trace (heap.frames.slots.size + heap.instances.slots.size + 1) roots
  ⟨marked.frames.perform .sweep, marked.instances.perform .sweep⟩

end Made

/-- **What is said of arenas holds of the two arenas of every heap.** -/
theorem Built.made (built : heap.Built) : heap.Made := by
  induction built with
  | new settings => exact ⟨⟨[], rfl⟩, ⟨[], rfl⟩⟩
  | newFrame _ enclosing construct ih => exact ⟨ih.frames.perform (.alloc _), ih.instances⟩
  | newInstance _ ih => exact ⟨ih.frames, ih.instances.perform (.alloc _)⟩
  | newIdentity _ ih => exact ⟨ih.frames, ih.instances⟩
  | define _ done ih =>
    obtain rfl := eq_of_access done
    exact ih.bindVariable _ _ _
  | assign _ done ih =>
    obtain ⟨owner, rfl⟩ := eq_bindVariable_of_owner done
    exact ih.bindVariable owner _ _
  | assignAt _ done ih =>
    obtain ⟨owner, rfl⟩ := eq_bindVariable_of_owner done
    exact ih.bindVariable owner _ _
  | setField _ done ih =>
    obtain rfl := eq_of_access done
    exact ih.bindField _ _ _
  | collect _ roots ih => exact ih.collect roots

end Heap

end Lox
