import Lox.Heap.Basic

/-!
# Garbage collection

What a program can still get at is what can be reached from its **roots**: along the chains of
frames, through the variables of frames and the fields of instances, and through the frames of
functions and of the methods of classes.  A collection marks all of that, starting from the roots
and going outward in rounds (`trace`), and then empties every slot that is not marked.

Afterwards the threshold for the next collection is set by the number of survivors.
-/

namespace Lox

/-- What lives on the heap. -/
inductive HeapObject where
  | frame (ref : FrameRef)
  | instance_ (ref : InstanceRef)
  deriving DecidableEq, Repr

/-- The frames that the methods of a class refer to, those inherited included. -/
def Class.referents (c : Class) : List HeapObject :=
  c.lineage.flatMap fun body => body.methods.values.map fun method => .frame method.frame

/-- What a value refers to. -/
def Value.referents : Value → List HeapObject
  | function _ closure => [.frame closure.frame]
  | class_ type => type.referents
  | instance_ object => .instance_ object.fields :: object.type.referents
  | nil | boolean _ | number _ | string _ | native _ _ => []

/-- What a frame refers to. -/
def Frame.referents (frame : Frame) : List HeapObject :=
  frame.enclosing.toList.map .frame ++ frame.bindings.values.flatMap Value.referents

/-- The outcome of a collection. -/
structure Collection where
  liveFrames : Nat
  liveInstances : Nat
  freedFrames : Nat
  freedInstances : Nat
  deriving DecidableEq, Repr

/-- The greatest threshold. -/
def maxThreshold : Nat := Nat.pow 2 64 - 1

namespace Heap

/-- Is it time to collect garbage? -/
def shouldCollect (heap : Heap) : Bool := heap.threshold ≤ heap.allocations

/-- What an object on the heap refers to. -/
def referents (heap : Heap) : HeapObject → List HeapObject
  | .frame ref =>
      match heap.frames.get? ref.index with
      | some frame => frame.referents
      | none => []
  | .instance_ ref =>
      match heap.instances.get? ref.index with
      | some fields => fields.values.flatMap Value.referents
      | none => []

/-- Is the object on the heap, and not marked? -/
def isUnmarked (heap : Heap) : HeapObject → Bool
  | .frame ref => heap.frames.isUnmarked ref.index
  | .instance_ ref => heap.instances.isUnmarked ref.index

/-- Mark an object. -/
def mark (heap : Heap) : HeapObject → Heap
  | .frame ref => { heap with frames := heap.frames.mark ref.index }
  | .instance_ ref => { heap with instances := heap.instances.mark ref.index }

/-- Mark objects; those that were not marked before come with the heap. -/
def markEach (heap : Heap) : List HeapObject → Heap × List HeapObject
  | [] => (heap, [])
  | object :: rest =>
      if heap.isUnmarked object then
        let (heap, fresh) := (heap.mark object).markEach rest
        (heap, object :: fresh)
      else
        heap.markEach rest

/-- Mark objects and, for so many rounds, what is referred to by those just marked. -/
def trace : (rounds : Nat) → List HeapObject → Heap → Heap
  | 0, _, heap => heap
  | rounds + 1, objects, heap =>
      let (heap, fresh) := heap.markEach objects
      match fresh with
      | [] => heap
      | fresh => trace rounds (fresh.flatMap heap.referents) heap

/-- Mark what can be reached from `roots`.  Each round but the last marks an object, so there are no
more rounds than slots. -/
def markFrom (heap : Heap) (roots : List HeapObject) : Heap :=
  trace (heap.frames.slots.size + heap.instances.slots.size + 1) roots heap

/-- Empty the slots that are not marked, and begin to count allocations anew. -/
def sweep (heap : Heap) : Collection × Heap :=
  let (freedFrames, frames) := heap.frames.sweep
  let (freedInstances, instances) := heap.instances.sweep
  let live := frames.live + instances.live
  (⟨frames.live, instances.live, freedFrames, freedInstances⟩,
    { heap with
      frames := frames
      instances := instances
      allocations := 0
      threshold := max heap.minThreshold (min (live * heap.growthFactor) maxThreshold) })

/-- Collect garbage: whatever cannot be reached from `roots` is freed. -/
def collect (heap : Heap) (roots : List HeapObject) : Collection × Heap :=
  (heap.markFrom roots).sweep

end Heap

end Lox
