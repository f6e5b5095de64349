import Lox.Proofs.Heap.Exact

/-!
# The accounts of the heap

The heap counts allocations only since the last collection, and a collection sets the threshold by what
it leaves.  So what the counts should be at a time depends on the collections that there have been: on
the last one for what is on the heap and for the threshold, and on all of them for what has ever been
allocated (`Heap.Accounts`).

Between two collections, the heap is changed by operations that allocate or bind (`Heap.Evolves`).  Each of
them keeps the balance (`Heap.Balanced`), and a collection enters its own report into the books
(`Balanced.collect`).
-/

namespace Lox

/-- How many objects a collection leaves. -/
def Collection.survivors (collection : Collection) : Nat :=
  collection.liveFrames + collection.liveInstances

/-- How many objects a collection frees. -/
def Collection.freed (collection : Collection) : Nat :=
  collection.freedFrames + collection.freedInstances

/-- How many objects have survived the last collection; before the first one, none. -/
def survivors (log : List Collection) : Nat := (log.getLast?.map Collection.survivors).getD 0

/-- How many objects have ever been freed. -/
def freed : List Collection → Nat
  | [] => 0
  | collection :: rest => collection.freed + freed rest

/-- The threshold that the settings ask for after some collections. -/
def Settings.threshold (settings : Settings) (log : List Collection) : Nat :=
  match log.getLast? with
  | none => settings.gcThreshold
  | some last =>
      max settings.gcThreshold (min (last.survivors * settings.gcGrowthFactor) maxThreshold)

theorem survivors_append (log : List Collection) (last : Collection) :
    survivors (log ++ [last]) = last.survivors := by
  rw [survivors, List.getLast?_concat]
  rfl

theorem freed_append (log : List Collection) (last : Collection) :
    freed (log ++ [last]) = freed log + last.freed := by
  induction log with
  | nil => exact Nat.add_comm _ _
  | cons collection rest ih => rw [List.cons_append, freed, ih, freed, Nat.add_assoc]

theorem Settings.threshold_append (settings : Settings) (log : List Collection) (last : Collection) :
    settings.threshold (log ++ [last]) =
      max settings.gcThreshold (min (last.survivors * settings.gcGrowthFactor) maxThreshold) := by
  rw [threshold, List.getLast?_concat]

theorem Settings.threshold_pos (settings : Settings) (log : List Collection) :
    0 < settings.threshold log := by
  have pos := settings.gcThreshold_pos
  unfold threshold
  split <;> omega

namespace Heap

/-- How many slots are occupied. -/
def occupied (heap : Heap) : Nat := heap.frames.occupied.card + heap.instances.occupied.card

/-- How many objects there are by the counts of the arenas. -/
def live (heap : Heap) : Nat := heap.frames.live + heap.instances.live

/-- How many objects have ever been allocated. -/
def allocated (heap : Heap) : Nat := heap.frames.allocated + heap.instances.allocated

/-- What the counts of a heap come to after some collections. -/
structure Accounts (settings : Settings) (log : List Collection) (heap : Heap) : Prop where
  /-- The survivors of the last collection are there and whatever has been allocated since. -/
  occupied : heap.occupied = survivors log + heap.allocations
  threshold : heap.threshold = settings.threshold log
  live : heap.live = heap.occupied
  /-- Whatever has ever been allocated is there or has been freed. -/
  allocated : heap.live + freed log = heap.allocated

variable {heap heap' heap'' : Heap} {settings : Settings} {log : List Collection}

/-- The heap has become another one by operations, none of which is a collection. -/
inductive Evolves (heap : Heap) : Heap → Prop
  | same : Evolves heap heap
  | newFrame {heap' : Heap} (before : Evolves heap heap') (enclosing : Option FrameRef)
      (construct : Construct) : Evolves heap (heap'.newFrame enclosing construct).2
  | newInstance {heap' : Heap} (before : Evolves heap heap') : Evolves heap heap'.newInstance.2
  | newIdentity {heap' : Heap} (before : Evolves heap heap') : Evolves heap heap'.newIdentity.2
  | bindVariable {heap' : Heap} (before : Evolves heap heap') (ref : FrameRef) (name : String)
      (value : Value) : Evolves heap (heap'.bindVariable ref name value)
  | bindField {heap' : Heap} (before : Evolves heap heap') (ref : InstanceRef) (name : String)
      (value : Value) : Evolves heap (heap'.bindField ref name value)

theorem Evolves.bindMethod (before : heap.Evolves heap') (method : Closure) (object : Instance) :
    heap.Evolves (heap'.bindMethod method object).2 :=
  (before.newFrame _ _).bindVariable _ _ _

theorem Evolves.boundMethod (before : heap.Evolves heap') (method : Closure) (object : Instance) :
    heap.Evolves (heap'.boundMethod method object).2 :=
  (before.bindMethod method object).newIdentity

/-- The books balance: the accounts in terms of the counts of the arenas, and what keeps them so. -/
structure Balanced (settings : Settings) (log : List Collection) (heap : Heap) : Prop where
  tidy : heap.Tidy
  minThreshold : heap.minThreshold = settings.gcThreshold
  growthFactor : heap.growthFactor = settings.gcGrowthFactor
  live : heap.live = survivors log + heap.allocations
  threshold : heap.threshold = settings.threshold log
  allocated : heap.live + freed log = heap.allocated

theorem Tidy.live_eq (tidy : heap.Tidy) : heap.live = heap.occupied := by
  rw [Heap.live, tidy.frames.live_eq, tidy.instances.live_eq, Heap.occupied]

namespace Balanced

theorem accounts (h : heap.Balanced settings log) : heap.Accounts settings log where
  occupied := by rw [← h.tidy.live_eq, h.live]
  threshold := h.threshold
  live := h.tidy.live_eq
  allocated := h.allocated

theorem new (settings : Settings) : (Heap.new settings).Balanced settings [] where
  tidy := .new settings
  minThreshold := rfl
  growthFactor := rfl
  live := rfl
  threshold := rfl
  allocated := rfl

/-- An object more, in one of the arenas. -/
theorem allocate (h : heap.Balanced settings log) {frames : Arena Frame}
    {instances : Arena (Bindings Value)} (live : frames.live + instances.live = heap.live + 1)
    (allocated : frames.allocated + instances.allocated = heap.allocated + 1)
    (tidy : Heap.Tidy { heap with frames, instances, allocations := heap.allocations + 1 }) :
    Balanced settings log { heap with frames, instances, allocations := heap.allocations + 1 } where
  tidy := tidy
  minThreshold := h.minThreshold
  growthFactor := h.growthFactor
  live := live.trans (congrArg (· + 1) h.live)
  threshold := h.threshold
  allocated := by
    have before := h.allocated
    change frames.live + instances.live + freed log = frames.allocated + instances.allocated
    omega

theorem newFrame (h : heap.Balanced settings log) (enclosing : Option FrameRef)
    (construct : Construct) : (heap.newFrame enclosing construct).2.Balanced settings log :=
  h.allocate ((congrArg (· + heap.instances.live) Arena.live_alloc).trans (Nat.add_right_comm _ _ _))
    ((congrArg (· + heap.instances.allocated) Arena.allocated_alloc).trans (Nat.add_right_comm _ _ _))
    (h.tidy.newFrame enclosing construct)

theorem newInstance (h : heap.Balanced settings log) : heap.newInstance.2.Balanced settings log :=
  h.allocate (congrArg (heap.frames.live + ·) Arena.live_alloc)
    (congrArg (heap.frames.allocated + ·) Arena.allocated_alloc) h.tidy.newInstance

/-- Whatever is allocated in the meantime is counted. -/
theorem evolves (h : heap.Balanced settings log) (evolves : heap.Evolves heap') :
    heap'.Balanced settings log := by
  induction evolves with
  | same => exact h
  | newFrame _ enclosing construct ih => exact ih.newFrame enclosing construct
  | newInstance _ ih => exact ih.newInstance
  | newIdentity _ ih => exact { ih with tidy := ih.tidy.newIdentity }
  | bindVariable _ ref name value ih => exact { ih with tidy := ih.tidy.bindVariable ref name value }
  | bindField _ ref name value ih => exact { ih with tidy := ih.tidy.bindField ref name value }

/-- A collection is entered into the books. -/
theorem collect (h : heap.Balanced settings log) (roots : List HeapObject) :
    (heap.collect roots).2.Balanced settings (log ++ [(heap.collect roots).1]) := by
  -- Marking changes no counts.  A sweep takes objects from the one count to the other.
  have remarked := remarked_markFrom h.tidy.cleanFrames h.tidy.cleanInstances roots
  have frames := (remarked.frames.sound h.tidy.frames).live_add_freed_sweep
  have instances := (remarked.instances.sound h.tidy.instances).live_add_freed_sweep
  rw [remarked.frames.live] at frames
  rw [remarked.instances.live] at instances
  have survivors_eq : (heap.collect roots).1.survivors = (heap.collect roots).2.live := rfl
  have live_add_freed : (heap.collect roots).2.live + (heap.collect roots).1.freed = heap.live := by
    calc (heap.collect roots).2.live + (heap.collect roots).1.freed
        = ((heap.markFrom roots).frames.sweep.2.live + (heap.markFrom roots).frames.sweep.1) +
          ((heap.markFrom roots).instances.sweep.2.live +
            (heap.markFrom roots).instances.sweep.1) := Nat.add_add_add_comm _ _ _ _
      _ = heap.live := by rw [frames, instances, Heap.live]
  have allocated : (heap.collect roots).2.allocated = heap.allocated :=
    congrArg₂ (· + ·) remarked.frames.allocated remarked.instances.allocated
  have minThreshold : (heap.markFrom roots).minThreshold = heap.minThreshold := by rw [remarked.rest]
  have growthFactor : (heap.markFrom roots).growthFactor = heap.growthFactor := by rw [remarked.rest]
  refine ⟨h.tidy.collect roots, minThreshold.trans h.minThreshold, growthFactor.trans h.growthFactor,
    ?_, ?_, ?_⟩
  · rw [survivors_append, survivors_eq]
    rfl
  · rw [Settings.threshold_append, survivors_eq, ← h.minThreshold, ← h.growthFactor, ← minThreshold,
      ← growthFactor]
    rfl
  · rw [freed_append, allocated, ← h.allocated]
    omega

end Balanced

end Heap

end Lox
