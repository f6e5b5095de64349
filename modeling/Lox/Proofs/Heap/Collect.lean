import Lox.Proofs.Heap.Objects

/-!
# A collection keeps exactly what can be reached

`Heap.Reachable` is what the collector is to keep: the roots, and whatever an object that is kept
refers to.  A collection keeps exactly that, unchanged and in place, and frees everything else
(`holds_frames_collect`, `holds_instances_collect`).

The collector goes by **places**: it does not know whether a reference is still to what it was made
for.  So what it keeps are the places that are reached (`Heap.Reaches`), whatever they hold now.  On a
sound heap, where no reference is to anything else, this is no other than that the very object can be
reached (`holdsFrame_collect`, `holdsFields_collect`).

The invariant of `Heap.trace` is `Tracing`: what is marked can be reached, and what a marked object
refers to is marked or about to be.  As each round but the last marks something, the rounds suffice.
-/

namespace Lox

/-- A slot of the heap. -/
inductive Place where
  | frame (index : Nat)
  | instance_ (index : Nat)
  deriving DecidableEq, Repr

/-- The slot that a reference is to, whatever it holds now. -/
def HeapObject.place : HeapObject → Place
  | frame ref => .frame ref.index
  | instance_ ref => .instance_ ref.index

namespace Heap

/-- What can be reached from some objects. -/
inductive Reachable (heap : Heap) (roots : List HeapObject) : HeapObject → Prop
  | root {object : HeapObject} (mem : object ∈ roots) : Reachable heap roots object
  | step {object object' : HeapObject} (before : Reachable heap roots object)
      (mem : object' ∈ heap.referents object) : Reachable heap roots object'

theorem Reachable.has {heap : Heap} {roots : List HeapObject} {object : HeapObject}
    (sound : heap.Sound) (there : ∀ object ∈ roots, heap.Has object)
    (h : heap.Reachable roots object) : heap.Has object := by
  induction h with
  | root mem => exact there _ mem
  | step _ mem ih => exact sound.closed ih _ mem

/-- A slot that what can be reached refers to. -/
def Reaches (heap : Heap) (roots : List HeapObject) (place : Place) : Prop :=
  ∃ object, heap.Reachable roots object ∧ object.place = place

/-- The slot is occupied. -/
def Occupies (heap : Heap) : Place → Prop
  | .frame index => ∃ serial frame, heap.frames.Holds index serial frame
  | .instance_ index => ∃ serial fields, heap.instances.Holds index serial fields

/-- The slot is marked. -/
def IsMarked (heap : Heap) : Place → Prop
  | .frame index => heap.frames.IsMarked index
  | .instance_ index => heap.instances.IsMarked index

/-- Of the references to one place at most one is good. -/
theorem Has.eq_of_place {heap : Heap} {object object' : HeapObject} (h : heap.Has object)
    (h' : heap.Has object') (same : object.place = object'.place) : object = object' := by
  cases object with
  | frame ref =>
    cases object' with
    | frame ref' =>
      obtain ⟨frame, holds⟩ := h
      obtain ⟨frame', holds'⟩ := h'
      exact congrArg _ (holds.ref_eq holds' (Place.frame.inj same))
    | instance_ ref' => cases same
  | instance_ ref =>
    cases object' with
    | frame ref' => cases same
    | instance_ ref' =>
      obtain ⟨fields, holds⟩ := h
      obtain ⟨fields', holds'⟩ := h'
      exact congrArg _ (holds.ref_eq holds' (Place.instance_.inj same))

/-- What is referred to from a place depends on what it holds only. -/
theorem referents_eq_of_place {heap : Heap} {object object' : HeapObject}
    (same : object.place = object'.place) : heap.referents object = heap.referents object' := by
  cases object <;> cases object' <;> simp_all [HeapObject.place, referents]

/-- Nothing is referred to from an empty slot. -/
theorem occupies_of_mem_referents {heap : Heap} {object object' : HeapObject}
    (h : object' ∈ heap.referents object) : heap.Occupies object.place := by
  cases object with
  | frame ref =>
    simp only [referents] at h
    split at h
    · rename_i frame found
      obtain ⟨serial, holds⟩ := Arena.get?_eq_some_iff.mp found
      exact ⟨serial, frame, holds⟩
    · cases h
  | instance_ ref =>
    simp only [referents] at h
    split at h
    · rename_i fields found
      obtain ⟨serial, holds⟩ := Arena.get?_eq_some_iff.mp found
      exact ⟨serial, fields, holds⟩
    · cases h

/-- The two heaps differ in the marks of objects at most. -/
structure Remarked (heap heap' : Heap) : Prop where
  frames : heap.frames.Remarked heap'.frames
  instances : heap.instances.Remarked heap'.instances
  rest : heap' = { heap with frames := heap'.frames, instances := heap'.instances }

variable {heap heap' heap'' : Heap} {object object' : HeapObject}
  {objects roots fresh : List HeapObject}

namespace Remarked

theorem refl (heap : Heap) : heap.Remarked heap := ⟨.refl _, .refl _, rfl⟩

theorem trans (h : heap.Remarked heap') (h' : heap'.Remarked heap'') : heap.Remarked heap'' where
  frames := h.frames.trans h'.frames
  instances := h.instances.trans h'.instances
  rest := by rw [h'.rest, h.rest]

theorem mark (unmarked : heap.isUnmarked object = true) : heap.Remarked (heap.mark object) := by
  cases object with
  | frame ref => exact ⟨.mark unmarked, .refl _, rfl⟩
  | instance_ ref => exact ⟨.refl _, .mark unmarked, rfl⟩

theorem occupies (h : heap.Remarked heap') {place : Place} :
    heap'.Occupies place ↔ heap.Occupies place := by
  cases place with
  | frame index => exact exists_congr fun _ => exists_congr fun _ => h.frames.holds
  | instance_ index => exact exists_congr fun _ => exists_congr fun _ => h.instances.holds

theorem referents (h : heap.Remarked heap') : heap'.referents = heap.referents := by
  have frames (index : Nat) : heap'.frames.get? index = heap.frames.get? index := by
    ext frame
    rw [Arena.get?_eq_some_iff, Arena.get?_eq_some_iff]
    exact exists_congr fun _ => h.frames.holds
  have instances (index : Nat) : heap'.instances.get? index = heap.instances.get? index := by
    ext fields
    rw [Arena.get?_eq_some_iff, Arena.get?_eq_some_iff]
    exact exists_congr fun _ => h.instances.holds
  funext object
  cases object with
  | frame ref => simp only [Heap.referents, frames]
  | instance_ ref => simp only [Heap.referents, instances]

/-- The marks of what is on the heap are all that is left open. -/
theorem eq_of_isMarked_iff (h : heap.Remarked heap') (h' : heap.Remarked heap'')
    (same : ∀ {place}, heap.Occupies place → (heap'.IsMarked place ↔ heap''.IsMarked place)) :
    heap' = heap'' := by
  have frames : heap'.frames = heap''.frames :=
    h.frames.eq_of_isMarked_iff h'.frames fun {index serial frame} holds =>
      same (show heap.Occupies (.frame index) from ⟨serial, frame, holds⟩)
  have instances : heap'.instances = heap''.instances :=
    h.instances.eq_of_isMarked_iff h'.instances fun {index serial fields} holds =>
      same (show heap.Occupies (.instance_ index) from ⟨serial, fields, holds⟩)
  rw [h.rest, h'.rest, frames, instances]

end Remarked

/-! ## Marking -/

theorem isUnmarked_iff : heap.isUnmarked object = true ↔
    heap.Occupies object.place ∧ ¬heap.IsMarked object.place := by
  cases object <;> exact Arena.isUnmarked_iff

theorem isMarked_mark {place : Place} (there : heap.Occupies place) :
    (heap.mark object).IsMarked place ↔ place = object.place ∨ heap.IsMarked place := by
  cases place with
  | frame index =>
    obtain ⟨_, _, holds⟩ := there
    cases object with
    | frame ref =>
      have lt := holds.lt_size
      exact Arena.isMarked_mark.trans (or_congr_left (by simp [HeapObject.place, lt]))
    | instance_ ref => simp [mark, IsMarked, HeapObject.place]
  | instance_ index =>
    obtain ⟨_, _, holds⟩ := there
    cases object with
    | frame ref => simp [mark, IsMarked, HeapObject.place]
    | instance_ ref =>
      have lt := holds.lt_size
      exact Arena.isMarked_mark.trans (or_congr_left (by simp [HeapObject.place, lt]))

/-- The number of objects that are not marked. -/
def unmarkedCount (heap : Heap) : Nat :=
  heap.frames.unmarked.length + heap.instances.unmarked.length

theorem unmarkedCount_mark_lt (h : heap.isUnmarked object = true) :
    (heap.mark object).unmarkedCount < heap.unmarkedCount := by
  cases object with
  | frame ref => exact Nat.add_lt_add_right (Arena.length_unmarked_mark_lt h) _
  | instance_ ref => exact Nat.add_lt_add_left (Arena.length_unmarked_mark_lt h) _

/-- What marking some objects does: the places they are in are marked afterwards, and `fresh` are
those that were occupied and not marked before. -/
structure Marking (heap : Heap) (objects : List HeapObject) (heap' : Heap)
    (fresh : List HeapObject) : Prop where
  remarked : heap.Remarked heap'
  isMarked : ∀ {place}, heap.Occupies place →
    (heap'.IsMarked place ↔ place ∈ objects.map HeapObject.place ∨ heap.IsMarked place)
  fresh_subset : fresh ⊆ objects
  mem_fresh : ∀ {place}, heap.Occupies place → place ∈ objects.map HeapObject.place →
    ¬heap.IsMarked place → place ∈ fresh.map HeapObject.place
  count_le : heap'.unmarkedCount ≤ heap.unmarkedCount
  count_lt : fresh ≠ [] → heap'.unmarkedCount < heap.unmarkedCount

theorem marking_markEach (heap : Heap) (objects : List HeapObject) :
    heap.Marking objects (heap.markEach objects).1 (heap.markEach objects).2 := by
  induction objects generalizing heap with
  | nil =>
    exact ⟨.refl heap, by simp [markEach], List.Subset.refl _, by simp, Nat.le_refl _,
      by simp [markEach]⟩
  | cons object rest ih =>
    by_cases unmarked : heap.isUnmarked object = true
    · have marks := Remarked.mark unmarked
      have next := ih (heap.mark object)
      have less := unmarkedCount_mark_lt unmarked
      rw [markEach, if_pos unmarked]
      refine ⟨marks.trans next.remarked, fun {place} there => ?_, ?_, fun {place} there mem new => ?_,
        Nat.le_trans next.count_le (Nat.le_of_lt less),
        fun _ => Nat.lt_of_le_of_lt next.count_le less⟩
      · rw [next.isMarked (marks.occupies.mpr there), isMarked_mark there, List.map_cons,
          List.mem_cons]
        tauto
      · exact List.cons_subset_cons _ next.fresh_subset
      · rw [List.map_cons, List.mem_cons]
        by_cases same : place = object.place
        · exact .inl same
        · have mem := (List.mem_cons.mp (List.map_cons ▸ mem)).resolve_left same
          refine .inr (next.mem_fresh (marks.occupies.mpr there) mem ?_)
          rw [isMarked_mark there, not_or]
          exact ⟨same, new⟩
    · -- An object that is not on the heap is passed over like one that is marked.
      have next := ih heap
      have marked (there : heap.Occupies object.place) : heap.IsMarked object.place := by
        by_contra new
        exact unmarked (isUnmarked_iff.mpr ⟨there, new⟩)
      rw [markEach, if_neg unmarked]
      refine ⟨next.remarked, fun {place} there => ?_, ?_, fun {place} there mem new => ?_,
        next.count_le, next.count_lt⟩
      · rw [next.isMarked there, List.map_cons, List.mem_cons]
        constructor
        · rintro (mem | old)
          · exact .inl (.inr mem)
          · exact .inr old
        · rintro ((rfl | mem) | old)
          · exact .inr (marked there)
          · exact .inl mem
          · exact .inr old
      · exact fun _ mem => List.mem_cons_of_mem _ (next.fresh_subset mem)
      · rcases List.mem_cons.mp (List.map_cons ▸ mem) with rfl | mem
        · exact absurd (marked there) new
        · exact next.mem_fresh there mem new

/-! ## Tracing -/

/-- **The invariant of tracing.**  `heap` is the original heap with some marks, and `objects` are to
be marked next. -/
structure Tracing (original : Heap) (roots objects : List HeapObject) (heap : Heap) : Prop where
  remarked : original.Remarked heap
  reaches : ∀ {place}, original.Occupies place → heap.IsMarked place → original.Reaches roots place
  reachableNext : ∀ object ∈ objects, original.Reachable roots object
  roots : ∀ object ∈ roots, original.Occupies object.place →
    heap.IsMarked object.place ∨ object.place ∈ objects.map HeapObject.place
  referents : ∀ {object}, heap.IsMarked object.place →
    ∀ object' ∈ original.referents object, original.Occupies object'.place →
      heap.IsMarked object'.place ∨ object'.place ∈ objects.map HeapObject.place

section Tracing

variable {original : Heap}

/-- What a round of tracing does. -/
theorem Tracing.next (tracing : original.Tracing roots objects heap)
    (marking : heap.Marking objects heap' fresh) :
    original.Tracing roots (fresh.flatMap heap'.referents) heap' := by
  have remarked := tracing.remarked.trans marking.remarked
  have isMarked {place : Place} (there : original.Occupies place) :
      heap'.IsMarked place ↔ place ∈ objects.map HeapObject.place ∨ heap.IsMarked place :=
    marking.isMarked (tracing.remarked.occupies.mpr there)
  refine ⟨remarked, fun {place} there marked => ?_, fun object mem => ?_,
    fun object mem there => .inl ((isMarked there).mpr (tracing.roots object mem there).symm),
    fun {object} marked object' mem there => ?_⟩
  · rcases (isMarked there).mp marked with mem | marked
    · obtain ⟨object, isNext, rfl⟩ := List.mem_map.mp mem
      exact ⟨object, tracing.reachableNext object isNext, rfl⟩
    · exact tracing.reaches there marked
  · obtain ⟨parent, isFresh, mem⟩ := List.mem_flatMap.mp mem
    rw [remarked.referents] at mem
    exact .step (tracing.reachableNext parent (marking.fresh_subset isFresh)) mem
  · have parent := occupies_of_mem_referents mem
    by_cases old : heap.IsMarked object.place
    · exact .inl ((isMarked there).mpr (tracing.referents old object' mem there).symm)
    · -- The parent is marked only now, so what it refers to comes next.
      have now := ((isMarked parent).mp marked).resolve_right old
      obtain ⟨twin, isFresh, same⟩ := List.mem_map.mp
        (marking.mem_fresh (tracing.remarked.occupies.mpr parent) now old)
      refine .inr (List.mem_map.mpr ⟨object', List.mem_flatMap.mpr ⟨twin, isFresh, ?_⟩, rfl⟩)
      rw [remarked.referents, referents_eq_of_place same]
      exact mem

theorem Tracing.isMarked_iff (tracing : original.Tracing roots [] heap) {place : Place}
    (there : original.Occupies place) : heap.IsMarked place ↔ original.Reaches roots place := by
  constructor
  · exact tracing.reaches there
  · rintro ⟨object, reachable, rfl⟩
    induction reachable with
    | root mem => exact (tracing.roots _ mem there).resolve_right List.not_mem_nil
    | step before mem ih =>
      have parent := ih (occupies_of_mem_referents mem)
      exact (tracing.referents parent _ mem there).resolve_right List.not_mem_nil

/-- With rounds enough, exactly what can be reached is marked. -/
theorem tracing_trace {rounds : Nat} (tracing : original.Tracing roots objects heap)
    (enough : heap.unmarkedCount < rounds) :
    original.Tracing roots [] (trace rounds objects heap) := by
  induction rounds generalizing objects heap with
  | zero => omega
  | succ rounds ih =>
    have marking := marking_markEach heap objects
    have next := tracing.next marking
    rw [trace]
    generalize heap.markEach objects = marked at marking next
    obtain ⟨heap', fresh⟩ := marked
    cases fresh with
    | nil => exact next
    | cons first rest =>
      have less : heap'.unmarkedCount < heap.unmarkedCount := marking.count_lt (List.cons_ne_nil _ _)
      exact ih next (by omega)

/-- Once there are rounds enough, any more change nothing: tracing comes to an end by itself. -/
theorem trace_add {rounds : Nat} (heap : Heap) (objects : List HeapObject)
    (enough : heap.unmarkedCount < rounds) (more : Nat) :
    trace (rounds + more) objects heap = trace rounds objects heap := by
  induction rounds generalizing objects heap with
  | zero => omega
  | succ rounds ih =>
    have marking := marking_markEach heap objects
    rw [Nat.add_right_comm, trace, trace]
    generalize heap.markEach objects = marked at marking
    obtain ⟨heap', fresh⟩ := marked
    cases fresh with
    | nil => rfl
    | cons first rest =>
      have less : heap'.unmarkedCount < heap.unmarkedCount := marking.count_lt (List.cons_ne_nil _ _)
      exact ih _ _ (by omega)

theorem unmarkedCount_lt (heap : Heap) :
    heap.unmarkedCount < heap.frames.slots.size + heap.instances.slots.size + 1 := by
  have frames := heap.frames.length_unmarked_le
  have instances := heap.instances.length_unmarked_le
  simp only [unmarkedCount]
  omega

section Clean

variable (cleanFrames : original.frames.Clean) (cleanInstances : original.instances.Clean)

include cleanFrames cleanInstances

/-- As long as nothing is marked, all that is to be done is to mark the roots, in whatever order. -/
theorem tracing_start (same : ∀ object, object ∈ objects ↔ object ∈ roots) :
    original.Tracing roots objects original := by
  have unmarked (place : Place) : ¬original.IsMarked place := by
    cases place with
    | frame index => exact cleanFrames.not_isMarked index
    | instance_ index => exact cleanInstances.not_isMarked index
  exact ⟨.refl original, fun {_} _ marked => absurd marked (unmarked _),
    fun object mem => .root ((same object).mp mem),
    fun object mem _ => .inr (List.mem_map_of_mem ((same object).mpr mem)),
    fun {_} marked => absurd marked (unmarked _)⟩

theorem tracing_markFrom : original.Tracing roots [] (original.markFrom roots) :=
  tracing_trace (tracing_start cleanFrames cleanInstances fun _ => Iff.rfl) original.unmarkedCount_lt

theorem remarked_markFrom (roots : List HeapObject) :
    original.Remarked (original.markFrom roots) :=
  have tracing : original.Tracing roots [] (original.markFrom roots) :=
    tracing_markFrom cleanFrames cleanInstances
  tracing.remarked

/-! ## Collections -/

/-- **Exactly the frames in places that are reached are kept.** -/
theorem holds_frames_collect {index serial : Nat} {frame : Frame} :
    (original.collect roots).2.frames.Holds index serial frame ↔
      original.frames.Holds index serial frame ∧ original.Reaches roots (.frame index) := by
  have tracing : original.Tracing roots [] (original.markFrom roots) :=
    tracing_markFrom cleanFrames cleanInstances
  have held : (original.collect roots).2.frames.Holds index serial frame ↔
      (original.markFrom roots).frames.Holds index serial frame ∧
        (original.markFrom roots).IsMarked (.frame index) := Arena.holds_sweep
  rw [held, tracing.remarked.frames.holds]
  exact and_congr_right fun holds => tracing.isMarked_iff ⟨serial, frame, holds⟩

/-- **Exactly the fields in places that are reached are kept.** -/
theorem holds_instances_collect {index serial : Nat} {fields : Bindings Value} :
    (original.collect roots).2.instances.Holds index serial fields ↔
      original.instances.Holds index serial fields ∧ original.Reaches roots (.instance_ index) := by
  have tracing : original.Tracing roots [] (original.markFrom roots) :=
    tracing_markFrom cleanFrames cleanInstances
  have held : (original.collect roots).2.instances.Holds index serial fields ↔
      (original.markFrom roots).instances.Holds index serial fields ∧
        (original.markFrom roots).IsMarked (.instance_ index) := Arena.holds_sweep
  rw [held, tracing.remarked.instances.holds]
  exact and_congr_right fun holds => tracing.isMarked_iff ⟨serial, fields, holds⟩

end Clean

end Tracing

/-! ## Collections of sound heaps -/

section Sound

variable {original : Heap} (sound : original.Sound)
  (there : ∀ object ∈ roots, original.Has object)

include sound there

/-- Where no reference is to anything but what it was made for, a place is reached only through the
one reference that is good. -/
theorem reaches_iff (has : original.Has object) :
    original.Reaches roots object.place ↔ original.Reachable roots object := by
  constructor
  · rintro ⟨other, reachable, same⟩
    rwa [← (reachable.has sound there).eq_of_place has same]
  · exact fun reachable => ⟨object, reachable, rfl⟩

/-- **Exactly the frames that can be reached are kept.** -/
theorem holdsFrame_collect {ref : FrameRef} {frame : Frame} :
    (original.collect roots).2.HoldsFrame ref frame ↔
      original.HoldsFrame ref frame ∧ original.Reachable roots (.frame ref) :=
  (holds_frames_collect sound.cleanFrames sound.cleanInstances).trans <|
    and_congr_right fun holds => reaches_iff sound there (show original.Has (.frame ref) from
      ⟨frame, holds⟩)

/-- **Exactly the instances that can be reached are kept.** -/
theorem holdsFields_collect {ref : InstanceRef} {fields : Bindings Value} :
    (original.collect roots).2.HoldsFields ref fields ↔
      original.HoldsFields ref fields ∧ original.Reachable roots (.instance_ ref) :=
  (holds_instances_collect sound.cleanFrames sound.cleanInstances).trans <|
    and_congr_right fun holds => reaches_iff sound there (show original.Has (.instance_ ref) from
      ⟨fields, holds⟩)

theorem has_collect : (original.collect roots).2.Has object ↔
    original.Has object ∧ original.Reachable roots object := by
  cases object with
  | frame ref =>
    simp only [Has, holdsFrame_collect sound there, exists_and_right]
  | instance_ ref =>
    simp only [Has, holdsFields_collect sound there, exists_and_right]

theorem Sound.collect : (original.collect roots).2.Sound := by
  have remarked := remarked_markFrom sound.cleanFrames sound.cleanInstances roots
  have stays (object : HeapObject) {object' : HeapObject} (has : original.Has object)
      (reachable : original.Reachable roots object) (mem : object' ∈ original.referents object) :
      (original.collect roots).2.Has object' :=
    (has_collect sound there).mpr ⟨sound.closed has object' mem, .step reachable mem⟩
  refine ⟨(remarked.frames.sound sound.frames).sweep,
    (remarked.instances.sound sound.instances).sweep, Arena.clean_sweep, Arena.clean_sweep, ?_⟩
  refine Sound.closed_of (fun {ref frame} holds object mem => ?_)
    fun {ref fields} holds object mem => ?_
  · obtain ⟨holds, reachable⟩ := (holdsFrame_collect sound there).mp holds
    rw [← holds.referents] at mem
    exact stays (.frame ref) ⟨frame, holds⟩ reachable mem
  · obtain ⟨holds, reachable⟩ := (holdsFields_collect sound there).mp holds
    rw [← holds.referents] at mem
    exact stays (.instance_ ref) ⟨fields, holds⟩ reachable mem

theorem Leads.collect : original.Leads (original.collect roots).2 where
  allocated_le := Nat.le_of_eq
    (remarked_markFrom sound.cleanFrames sound.cleanInstances roots).frames.allocated.symm
  frame := by
    intro ref frame holds _
    obtain ⟨holds, -⟩ := (holdsFrame_collect sound there).mp holds
    exact ⟨frame, holds, rfl, fun _ found => found⟩

end Sound

end Heap

end Lox
