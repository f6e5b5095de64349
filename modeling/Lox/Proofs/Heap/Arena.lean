import Mathlib.Data.Finset.Card
import Lox.Heap.Arena

/-!
# What arenas hold

`arena.Holds index serial a` says that a slot is occupied, by what, and by which allocation it was
put there.  Each operation on arenas has one lemma that says what is held afterwards.

An arena that is made by these operations is **sound** (`Arena.Sound`): serial numbers tell its
objects apart, its free slots are those that are empty, and its count of live objects is right.  So an
allocation never overwrites anything, and what is held under a serial number stays where it is for as
long as it is held.
-/

namespace Lox.Arena

variable {α : Type} {arena : Arena α} {index serial : Nat} {a b : α}

/-- A slot is occupied by `a`, which allocation number `serial` put there. -/
def Holds (arena : Arena α) (index serial : Nat) (a : α) : Prop :=
  ∃ slot, arena.slots[index]? = some slot ∧ slot.content = some a ∧ slot.serial = serial

theorem get?_eq_some_iff : arena.get? index = some a ↔ ∃ serial, arena.Holds index serial a := by
  unfold get? Holds
  rw [Option.bind_eq_some_iff]
  constructor
  · rintro ⟨slot, found, content⟩
    exact ⟨slot.serial, slot, found, content, rfl⟩
  · rintro ⟨_, slot, found, content, _⟩
    exact ⟨slot, found, content⟩

theorem Holds.get? (h : arena.Holds index serial a) : arena.get? index = some a :=
  get?_eq_some_iff.mpr ⟨serial, h⟩

theorem Holds.unique {serial' : Nat} (h : arena.Holds index serial a)
    (h' : arena.Holds index serial' b) : serial = serial' ∧ a = b := by
  obtain ⟨slot, found, content, rfl⟩ := h
  obtain ⟨slot', found', content', rfl⟩ := h'
  rw [found, Option.some.injEq] at found'
  subst found'
  rw [content, Option.some.injEq] at content'
  exact ⟨rfl, content'⟩

theorem Holds.lt_size (h : arena.Holds index serial a) : index < arena.slots.size := by
  obtain ⟨slot, found, -, -⟩ := h
  exact (Array.getElem?_eq_some_iff.mp found).1

/-- The occupied slots. -/
def occupied (arena : Arena α) : Finset Nat :=
  (Finset.range arena.slots.size).filter fun index => (arena.get? index).isSome

theorem mem_occupied : index ∈ arena.occupied ↔ ∃ serial a, arena.Holds index serial a := by
  rw [occupied, Finset.mem_filter, Finset.mem_range, Option.isSome_iff_exists]
  constructor
  · rintro ⟨-, a, found⟩
    obtain ⟨serial, holds⟩ := get?_eq_some_iff.mp found
    exact ⟨serial, a, holds⟩
  · rintro ⟨serial, a, holds⟩
    exact ⟨holds.lt_size, a, holds.get?⟩

theorem mem_occupied_of_get? (found : arena.get? index = some a) : index ∈ arena.occupied := by
  obtain ⟨serial, holds⟩ := get?_eq_some_iff.mp found
  exact mem_occupied.mpr ⟨serial, a, holds⟩

/-- Serial numbers tell objects apart, the free slots are the empty ones, and the count of live
objects is right. -/
structure Sound (arena : Arena α) : Prop where
  serial_lt : ∀ {index serial a}, arena.Holds index serial a → serial < arena.allocated
  serial_inj : ∀ {index index' serial a b}, arena.Holds index serial a →
    arena.Holds index' serial b → index = index'
  mem_free : ∀ {index}, index ∈ arena.free ↔ index < arena.slots.size ∧ index ∉ arena.occupied
  nodup_free : arena.free.Nodup
  live_eq : arena.live = arena.occupied.card

/-- No slot is marked. -/
def Clean (arena : Arena α) : Prop :=
  ∀ (index : Nat) (slot : Slot α), arena.slots[index]? = some slot → slot.marked = false

theorem sound_empty : (empty : Arena α).Sound where
  serial_lt := by rintro index serial a ⟨slot, found, -, -⟩; simp [empty] at found
  serial_inj := by rintro index index' serial a b ⟨slot, found, -, -⟩; simp [empty] at found
  mem_free := by simp [empty]
  nodup_free := List.nodup_nil
  live_eq := rfl

theorem clean_empty : (empty : Arena α).Clean := by
  intro index slot found
  simp [empty] at found

/-! ## Allocation -/

theorem notMem_occupied_alloc (sound : arena.Sound) (a : α) :
    (arena.alloc a).1 ∉ arena.occupied := by
  unfold alloc
  split
  · rename_i index free found
    have mem : index ∈ arena.free := found ▸ List.mem_cons_self
    exact (sound.mem_free.mp mem).2
  · intro mem
    obtain ⟨_, _, holds⟩ := mem_occupied.mp mem
    exact Nat.lt_irrefl _ holds.lt_size

theorem getElem?_alloc (sound : arena.Sound) (a : α) (index : Nat) :
    ∃ marked, (arena.alloc a).2.slots[index]? =
      if index = (arena.alloc a).1 then some ⟨some a, marked, arena.allocated⟩
      else arena.slots[index]? := by
  unfold alloc
  split
  · rename_i free rest found
    have mem : free ∈ arena.free := found ▸ List.mem_cons_self
    have lt := (sound.mem_free.mp mem).1
    refine ⟨arena.slots[free].marked, ?_⟩
    simp only [Array.getElem?_modify]
    by_cases same : index = free
    · subst same
      simp [lt]
    · have : ¬free = index := fun h => same h.symm
      simp [same, this]
  · refine ⟨false, ?_⟩
    simp only [Array.getElem?_push]

theorem holds_alloc (sound : arena.Sound) :
    (arena.alloc a).2.Holds index serial b ↔
      (index = (arena.alloc a).1 ∧ serial = arena.allocated ∧ b = a) ∨
        arena.Holds index serial b := by
  obtain ⟨marked, slots⟩ := getElem?_alloc sound a index
  have fresh := notMem_occupied_alloc sound a
  unfold Holds
  rw [slots]
  by_cases same : index = (arena.alloc a).1
  · have none : ¬arena.Holds index serial b := fun holds =>
      fresh (same ▸ mem_occupied.mpr ⟨serial, b, holds⟩)
    rw [if_pos same]
    constructor
    · rintro ⟨slot, found, content, rfl⟩
      cases found
      cases content
      exact .inl ⟨same, rfl, rfl⟩
    · rintro (⟨-, rfl, rfl⟩ | holds)
      · exact ⟨_, rfl, rfl, rfl⟩
      · exact absurd holds none
  · rw [if_neg same]
    simp [same]

theorem allocated_alloc : (arena.alloc a).2.allocated = arena.allocated + 1 := by
  unfold alloc
  split <;> rfl

theorem live_alloc : (arena.alloc a).2.live = arena.live + 1 := by
  unfold alloc
  split <;> rfl

theorem occupied_alloc (sound : arena.Sound) :
    (arena.alloc a).2.occupied = insert (arena.alloc a).1 arena.occupied := by
  ext index
  rw [Finset.mem_insert, mem_occupied, mem_occupied]
  simp only [holds_alloc sound]
  constructor
  · rintro ⟨serial, b, ⟨same, -, -⟩ | holds⟩
    · exact .inl same
    · exact .inr ⟨serial, b, holds⟩
  · rintro (same | ⟨serial, b, holds⟩)
    · exact ⟨_, _, .inl ⟨same, rfl, rfl⟩⟩
    · exact ⟨serial, b, .inr holds⟩

theorem mem_free_alloc (sound : arena.Sound) :
    index ∈ (arena.alloc a).2.free ↔
      index < (arena.alloc a).2.slots.size ∧ index ∉ (arena.alloc a).2.occupied := by
  rw [occupied_alloc sound, Finset.mem_insert]
  unfold alloc
  split
  · rename_i free rest found
    have nodup := found ▸ sound.nodup_free
    have mem : index ∈ arena.free ↔ _ := sound.mem_free
    rw [found, List.mem_cons] at mem
    simp only [Array.size_modify, not_or]
    constructor
    · intro inRest
      have ne : index ≠ free := fun same => (List.nodup_cons.mp nodup).1 (same ▸ inRest)
      exact ⟨(mem.mp (.inr inRest)).1, ne, (mem.mp (.inr inRest)).2⟩
    · rintro ⟨lt, ne, empty⟩
      exact (mem.mpr ⟨lt, empty⟩).resolve_left ne
  · rename_i none
    have mem : index ∈ arena.free ↔ _ := sound.mem_free
    rw [none] at mem
    simp only [Array.size_push, not_or, List.not_mem_nil, false_iff, not_and] at mem ⊢
    intro lt ne empty
    exact mem (by omega) empty

theorem Sound.alloc (sound : arena.Sound) (a : α) : (arena.alloc a).2.Sound where
  serial_lt := by
    intro index serial b holds
    rw [allocated_alloc]
    rcases (holds_alloc sound).mp holds with ⟨-, rfl, -⟩ | holds
    · exact Nat.lt_succ_self _
    · exact Nat.lt_succ_of_lt (sound.serial_lt holds)
  serial_inj := by
    intro index index' serial b c holds holds'
    rcases (holds_alloc sound).mp holds with ⟨rfl, new, -⟩ | old <;>
      rcases (holds_alloc sound).mp holds' with ⟨rfl, new', -⟩ | old'
    · rfl
    · exact absurd (sound.serial_lt old') (by omega)
    · exact absurd (sound.serial_lt old) (by omega)
    · exact sound.serial_inj old old'
  mem_free := mem_free_alloc sound
  nodup_free := by
    unfold Arena.alloc
    split
    · rename_i found
      exact (List.nodup_cons.mp (found ▸ sound.nodup_free)).2
    · exact List.nodup_nil
  live_eq := by
    rw [live_alloc, occupied_alloc sound,
      Finset.card_insert_of_notMem (notMem_occupied_alloc sound a), sound.live_eq]

theorem Clean.alloc (clean : arena.Clean) (a : α) : (arena.alloc a).2.Clean := by
  intro index slot found
  unfold Arena.alloc at found
  split at found
  · rename_i free _ _
    rw [Array.getElem?_modify] at found
    split at found
    · obtain ⟨old, there, rfl⟩ := Option.map_eq_some_iff.mp found
      exact clean _ old there
    · exact clean _ _ found
  · rw [Array.getElem?_push] at found
    split at found
    · cases found
      rfl
    · exact clean _ _ found

/-! ## Changes -/

theorem get?_modify (arena : Arena α) (index' : Nat) (g : α → α) (index : Nat) :
    (arena.modify index' g).get? index =
      if index = index' then (arena.get? index).map g else arena.get? index := by
  simp only [get?, modify, Array.getElem?_modify]
  by_cases same : index' = index
  · subst same
    rw [if_pos rfl, if_pos rfl]
    cases arena.slots[index']? <;> rfl
  · rw [if_neg same, if_neg fun h => same h.symm]

theorem holds_modify {f : α → α} {index' : Nat} :
    (arena.modify index' f).Holds index serial b ↔
      ∃ a, arena.Holds index serial a ∧ b = if index = index' then f a else a := by
  unfold Holds modify
  simp only [Array.getElem?_modify]
  by_cases same : index' = index
  · subst same
    simp only [if_true]
    constructor
    · rintro ⟨slot, found, content, rfl⟩
      obtain ⟨old, there, rfl⟩ := Option.map_eq_some_iff.mp found
      obtain ⟨a, was, rfl⟩ := Option.map_eq_some_iff.mp content
      exact ⟨a, ⟨old, there, was, rfl⟩, rfl⟩
    · rintro ⟨a, ⟨slot, found, content, rfl⟩, rfl⟩
      exact ⟨{ slot with content := slot.content.map f }, by rw [found]; rfl, by simp [content],
        rfl⟩
  · have : ¬index = index' := fun h => same h.symm
    simp [same, this]

theorem occupied_modify {f : α → α} {index' : Nat} :
    (arena.modify index' f).occupied = arena.occupied := by
  ext index
  rw [mem_occupied, mem_occupied]
  constructor
  · rintro ⟨serial, b, holds⟩
    obtain ⟨a, held, -⟩ := holds_modify.mp holds
    exact ⟨serial, a, held⟩
  · rintro ⟨serial, a, holds⟩
    exact ⟨serial, _, holds_modify.mpr ⟨a, holds, rfl⟩⟩

theorem Sound.modify (sound : arena.Sound) (index' : Nat) (f : α → α) :
    (arena.modify index' f).Sound where
  serial_lt := by
    intro index serial b holds
    obtain ⟨a, held, -⟩ := holds_modify.mp holds
    exact sound.serial_lt held
  serial_inj := by
    intro i j serial b c holds holds'
    obtain ⟨_, held, -⟩ := holds_modify.mp holds
    obtain ⟨_, held', -⟩ := holds_modify.mp holds'
    exact sound.serial_inj held held'
  mem_free := by
    intro index
    rw [occupied_modify]
    simpa [Arena.modify] using sound.mem_free
  nodup_free := sound.nodup_free
  live_eq := by
    rw [occupied_modify]
    exact sound.live_eq

theorem Clean.modify (clean : arena.Clean) (index' : Nat) (f : α → α) :
    (arena.modify index' f).Clean := by
  intro index slot found
  unfold Arena.modify at found
  rw [Array.getElem?_modify] at found
  split at found
  · obtain ⟨old, there, rfl⟩ := Option.map_eq_some_iff.mp found
    exact clean _ old there
  · exact clean _ _ found

/-! ## Marks -/

/-- A slot is marked. -/
def IsMarked (arena : Arena α) (index : Nat) : Prop :=
  ∃ slot, arena.slots[index]? = some slot ∧ slot.marked = true

theorem Clean.not_isMarked (clean : arena.Clean) (index : Nat) :
    ¬arena.IsMarked index := by
  rintro ⟨slot, found, marked⟩
  rw [clean _ _ found] at marked
  cases marked

theorem getElem?_mark (arena : Arena α) (index' index : Nat) :
    (arena.mark index').slots[index]? =
      if index' = index then arena.slots[index]?.map fun slot => { slot with marked := true }
      else arena.slots[index]? := by
  unfold mark
  rw [Array.getElem?_modify]

theorem holds_mark {index' : Nat} : (arena.mark index').Holds index serial a ↔
    arena.Holds index serial a := by
  unfold Holds
  rw [getElem?_mark]
  split
  · constructor
    · rintro ⟨slot, found, content, rfl⟩
      obtain ⟨old, there, rfl⟩ := Option.map_eq_some_iff.mp found
      exact ⟨old, there, content, rfl⟩
    · rintro ⟨slot, found, content, rfl⟩
      exact ⟨{ slot with marked := true }, by rw [found]; rfl, content, rfl⟩
  · rfl

theorem isMarked_mark {index' : Nat} : (arena.mark index').IsMarked index ↔
    (index = index' ∧ index < arena.slots.size) ∨ arena.IsMarked index := by
  unfold IsMarked
  rw [getElem?_mark]
  by_cases same : index' = index
  · subst same
    simp only [if_true, true_and]
    constructor
    · rintro ⟨slot, found, -⟩
      obtain ⟨old, there, -⟩ := Option.map_eq_some_iff.mp found
      exact .inl (Array.getElem?_eq_some_iff.mp there).1
    · rintro (lt | ⟨slot, found, marked⟩)
      · exact ⟨{ arena.slots[index'] with marked := true }, by simp [lt], rfl⟩
      · exact ⟨{ slot with marked := true }, by rw [found]; rfl, rfl⟩
  · have : ¬index = index' := fun h => same h.symm
    simp [same, this]

theorem isUnmarked_iff : arena.isUnmarked index = true ↔
    (∃ serial a, arena.Holds index serial a) ∧ ¬arena.IsMarked index := by
  unfold isUnmarked Holds IsMarked
  split
  · rename_i slot found
    rw [found]
    cases content : slot.content <;> simp [content]
  · rename_i none
    simp [none]

/-- The two arenas differ in the marks of occupied slots at most. -/
structure Remarked (arena arena' : Arena α) : Prop where
  slot : ∀ {index : Nat} {slot : Slot α}, arena.slots[index]? = some slot →
    ∃ marked, arena'.slots[index]? = some { slot with marked := marked } ∧
      (slot.content = none → marked = slot.marked)
  size : arena'.slots.size = arena.slots.size
  free : arena'.free = arena.free
  live : arena'.live = arena.live
  allocated : arena'.allocated = arena.allocated

namespace Remarked

variable {arena' arena'' : Arena α}

theorem refl (arena : Arena α) : arena.Remarked arena :=
  ⟨fun {_ slot} found => ⟨slot.marked, found, fun _ => rfl⟩, rfl, rfl, rfl, rfl⟩

theorem trans (h : arena.Remarked arena') (h' : arena'.Remarked arena'') :
    arena.Remarked arena'' where
  slot := by
    intro index slot found
    obtain ⟨marked, found', same⟩ := h.slot found
    obtain ⟨marked', found'', same'⟩ := h'.slot found'
    exact ⟨marked', found'', fun empty => (same' empty).trans (same empty)⟩
  size := h'.size.trans h.size
  free := h'.free.trans h.free
  live := h'.live.trans h.live
  allocated := h'.allocated.trans h.allocated

theorem mark (unmarked : arena.isUnmarked index = true) : arena.Remarked (arena.mark index) where
  slot := by
    intro index' slot found
    rw [getElem?_mark, found]
    by_cases same : index = index'
    · rw [if_pos same]
      refine ⟨true, rfl, fun empty => ?_⟩
      -- Only an occupied slot is marked.
      obtain ⟨⟨_, _, slot', found', content, -⟩, -⟩ := isUnmarked_iff.mp unmarked
      rw [same, found, Option.some.injEq] at found'
      rw [found', content] at empty
      cases empty
    · rw [if_neg same]
      exact ⟨slot.marked, rfl, fun _ => rfl⟩
  size := Array.size_modify
  free := rfl
  live := rfl
  allocated := rfl

/-- A slot that is not there in one of them is not there in the other. -/
theorem slot_none (h : arena.Remarked arena') (none : arena.slots[index]? = none) :
    arena'.slots[index]? = .none := by
  rw [Array.getElem?_eq_none_iff] at none ⊢
  rw [h.size]
  exact none

theorem holds (h : arena.Remarked arena') :
    arena'.Holds index serial a ↔ arena.Holds index serial a := by
  unfold Holds
  cases found : arena.slots[index]? with
  | none => simp [h.slot_none found]
  | some slot =>
    obtain ⟨marked, found', -⟩ := h.slot found
    simp [found']

theorem occupied (h : arena.Remarked arena') : arena'.occupied = arena.occupied := by
  ext index
  simp only [mem_occupied, h.holds]

theorem sound (h : arena.Remarked arena') (sound : arena.Sound) : arena'.Sound where
  serial_lt := fun holds => h.allocated ▸ sound.serial_lt (h.holds.mp holds)
  serial_inj := fun holds holds' => sound.serial_inj (h.holds.mp holds) (h.holds.mp holds')
  mem_free := by
    intro index
    rw [h.occupied, h.free, h.size]
    exact sound.mem_free
  nodup_free := h.free ▸ sound.nodup_free
  live_eq := by
    rw [h.occupied, h.live]
    exact sound.live_eq

/-- The marks of occupied slots are all that is left open. -/
theorem eq_of_isMarked_iff (h : arena.Remarked arena') (h' : arena.Remarked arena'')
    (same : ∀ {index serial a}, arena.Holds index serial a →
      (arena'.IsMarked index ↔ arena''.IsMarked index)) : arena' = arena'' := by
  have slots : arena'.slots = arena''.slots := by
    refine Array.ext_getElem? fun index => ?_
    cases found : arena.slots[index]? with
    | none => rw [h.slot_none found, h'.slot_none found]
    | some slot =>
      obtain ⟨marked, found', still⟩ := h.slot found
      obtain ⟨marked', found'', still'⟩ := h'.slot found
      suffices marked = marked' by rw [found', found'', this]
      cases content : slot.content with
      | none => exact (still content).trans (still' content).symm
      | some a =>
        have marks := same ⟨slot, found, content, rfl⟩
        simp only [IsMarked, found', found'', Option.some.injEq, exists_eq_left'] at marks
        exact Bool.eq_iff_iff.mpr marks
  have free := h.free.trans h'.free.symm
  have live := h.live.trans h'.live.symm
  have allocated := h.allocated.trans h'.allocated.symm
  cases arena'
  cases arena''
  simp only at slots free live allocated
  rw [slots, free, live, allocated]

end Remarked

theorem mem_unmarked : index ∈ arena.unmarked ↔ arena.isUnmarked index = true := by
  unfold unmarked
  rw [List.mem_filter, List.mem_range]
  constructor
  · exact fun h => h.2
  · intro h
    obtain ⟨⟨_, _, holds⟩, -⟩ := isUnmarked_iff.mp h
    exact ⟨holds.lt_size, h⟩

theorem nodup_unmarked : arena.unmarked.Nodup := List.Nodup.filter _ List.nodup_range

theorem length_unmarked_le (arena : Arena α) : arena.unmarked.length ≤ arena.slots.size := by
  have le := List.length_filter_le arena.isUnmarked (List.range arena.slots.size)
  rwa [List.length_range] at le

theorem length_unmarked_mark_lt (h : arena.isUnmarked index = true) :
    (arena.mark index).unmarked.length < arena.unmarked.length := by
  have erased : (arena.mark index).unmarked.toFinset = arena.unmarked.toFinset.erase index := by
    ext other
    rw [Finset.mem_erase, List.mem_toFinset, List.mem_toFinset, mem_unmarked, mem_unmarked,
      isUnmarked_iff, isUnmarked_iff]
    simp only [holds_mark, isMarked_mark, not_or, not_and]
    constructor
    · rintro ⟨⟨serial, a, holds⟩, other, notMarked⟩
      exact ⟨fun same => other same holds.lt_size, ⟨serial, a, holds⟩, notMarked⟩
    · rintro ⟨ne, ⟨serial, a, holds⟩, notMarked⟩
      exact ⟨⟨serial, a, holds⟩, fun same => absurd same ne, notMarked⟩
  rw [← List.toFinset_card_of_nodup nodup_unmarked, ← List.toFinset_card_of_nodup nodup_unmarked,
    erased]
  exact Finset.card_erase_lt_of_mem (List.mem_toFinset.mpr (mem_unmarked.mpr h))

/-! ## Sweeping -/

theorem getElem?_sweep (arena : Arena α) (index : Nat) :
    arena.sweep.2.slots[index]? = arena.slots[index]?.map fun slot =>
      if slot.marked then { slot with marked := false }
      else { slot with content := none, marked := false } := by
  simp [sweep, Array.getElem?_map]

/-- What is held after a sweep is what was held and marked. -/
theorem holds_sweep : arena.sweep.2.Holds index serial a ↔
    arena.Holds index serial a ∧ arena.IsMarked index := by
  unfold Holds IsMarked
  rw [getElem?_sweep]
  constructor
  · rintro ⟨slot, found, content, rfl⟩
    obtain ⟨old, there, rfl⟩ := Option.map_eq_some_iff.mp found
    by_cases marked : old.marked = true
    · rw [if_pos marked] at content ⊢
      exact ⟨⟨old, there, content, rfl⟩, old, there, marked⟩
    · rw [if_neg marked] at content
      cases content
  · rintro ⟨⟨slot, found, content, rfl⟩, slot', found', marked⟩
    rw [found, Option.some.injEq] at found'
    subst found'
    refine ⟨{ slot with marked := false }, ?_, content, rfl⟩
    rw [found, Option.map_some, if_pos marked]

theorem clean_sweep : arena.sweep.2.Clean := by
  intro index slot found
  rw [getElem?_sweep] at found
  obtain ⟨old, there, rfl⟩ := Option.map_eq_some_iff.mp found
  split <;> rfl

theorem occupied_sweep : arena.sweep.2.occupied = arena.occupied \ arena.unmarked.toFinset := by
  ext index
  rw [Finset.mem_sdiff, List.mem_toFinset, mem_unmarked, isUnmarked_iff, mem_occupied, mem_occupied]
  simp only [holds_sweep]
  constructor
  · rintro ⟨serial, a, holds, marked⟩
    exact ⟨⟨serial, a, holds⟩, fun h => h.2 marked⟩
  · rintro ⟨⟨serial, a, holds⟩, marked⟩
    refine ⟨serial, a, holds, ?_⟩
    by_contra unmarked
    exact marked ⟨⟨serial, a, holds⟩, unmarked⟩

theorem unmarked_subset_occupied : arena.unmarked.toFinset ⊆ arena.occupied := by
  intro index mem
  rw [List.mem_toFinset, mem_unmarked, isUnmarked_iff] at mem
  exact mem_occupied.mpr mem.1

/-- The count of what is freed is right. -/
theorem freed_sweep (arena : Arena α) :
    arena.sweep.1 = (arena.occupied \ arena.sweep.2.occupied).card := by
  rw [occupied_sweep, Finset.sdiff_sdiff_eq_self unmarked_subset_occupied,
    List.toFinset_card_of_nodup nodup_unmarked]
  rfl

/-- Whatever was there is there or has been freed. -/
theorem Sound.live_add_freed_sweep (sound : arena.Sound) :
    arena.sweep.2.live + arena.sweep.1 = arena.live := by
  have le : arena.unmarked.length ≤ arena.live := by
    rw [sound.live_eq, ← List.toFinset_card_of_nodup nodup_unmarked]
    exact Finset.card_le_card unmarked_subset_occupied
  exact Nat.sub_add_cancel le

theorem Sound.sweep (sound : arena.Sound) : arena.sweep.2.Sound where
  serial_lt := fun holds => sound.serial_lt (holds_sweep.mp holds).1
  serial_inj := fun holds holds' =>
    sound.serial_inj (holds_sweep.mp holds).1 (holds_sweep.mp holds').1
  mem_free := by
    intro index
    have size : arena.sweep.2.slots.size = arena.slots.size := by simp [Arena.sweep]
    have free : index ∈ arena.sweep.2.free ↔ index ∈ arena.unmarked ∨ index ∈ arena.free := by
      simp [Arena.sweep]
    rw [free, size, occupied_sweep, Finset.mem_sdiff, List.mem_toFinset, sound.mem_free]
    constructor
    · rintro (mem | ⟨lt, empty⟩)
      · have there := unmarked_subset_occupied (List.mem_toFinset.mpr mem)
        obtain ⟨_, _, holds⟩ := mem_occupied.mp there
        exact ⟨holds.lt_size, fun h => h.2 mem⟩
      · exact ⟨lt, fun h => empty h.1⟩
    · rintro ⟨lt, gone⟩
      by_cases mem : index ∈ arena.unmarked
      · exact .inl mem
      · exact .inr ⟨lt, fun there => gone ⟨there, mem⟩⟩
  nodup_free := by
    have free : arena.sweep.2.free = arena.unmarked.reverse ++ arena.free := rfl
    rw [free, List.nodup_append]
    refine ⟨List.nodup_reverse.mpr nodup_unmarked, sound.nodup_free, ?_⟩
    rintro index mem _ mem' rfl
    rw [List.mem_reverse] at mem
    exact (sound.mem_free.mp mem').2 (unmarked_subset_occupied (List.mem_toFinset.mpr mem))
  live_eq := by
    have live : arena.sweep.2.live = arena.live - arena.unmarked.length := rfl
    rw [live, occupied_sweep, Finset.card_sdiff_of_subset unmarked_subset_occupied,
      List.toFinset_card_of_nodup nodup_unmarked, sound.live_eq]

/-! ## Culling -/

/-- A sweep has emptied all slots of an arena but those to be kept, and `live` and `freed` say how many
are left and how many are gone. -/
structure Culled (arena : Arena α) (kept : Nat → Prop) (live freed : Nat) (arena' : Arena α) :
    Prop where
  occupied : ∀ {index}, index ∈ arena'.occupied ↔ index ∈ arena.occupied ∧ kept index
  get? : ∀ {index}, index ∈ arena'.occupied → arena'.get? index = arena.get? index
  live_eq : live = arena'.occupied.card
  freed_eq : freed = (arena.occupied \ arena'.occupied).card
  live_add_freed : live + freed = arena.occupied.card
  clean : arena'.Clean

/-- What is marked is what is kept. -/
theorem Sound.culled {marked : Arena α} {kept : Nat → Prop} (sound : arena.Sound)
    (remarked : arena.Remarked marked)
    (isMarked : ∀ {index}, index ∈ arena.occupied → (marked.IsMarked index ↔ kept index)) :
    arena.Culled kept marked.sweep.2.live marked.sweep.1 marked.sweep.2 := by
  have holds {index serial : Nat} {a : α} : marked.sweep.2.Holds index serial a ↔
      arena.Holds index serial a ∧ kept index := by
    rw [holds_sweep, remarked.holds]
    exact and_congr_right fun there => isMarked (mem_occupied.mpr ⟨serial, a, there⟩)
  have live := (remarked.sound sound).sweep.live_eq
  have freed := remarked.occupied ▸ marked.freed_sweep
  have occupied {index : Nat} : index ∈ marked.sweep.2.occupied ↔
      index ∈ arena.occupied ∧ kept index := by
    simp only [mem_occupied, holds, exists_and_right]
  have subset : marked.sweep.2.occupied ⊆ arena.occupied := fun _ mem => (occupied.mp mem).1
  refine ⟨occupied, fun {index} mem => ?_, live, freed, ?_, clean_sweep⟩
  · obtain ⟨serial, a, there⟩ := mem_occupied.mp mem
    rw [there.get?, (holds.mp there).1.get?]
  · rw [live, freed, Nat.add_comm]
    exact Finset.card_sdiff_add_card_eq_card subset

end Lox.Arena
