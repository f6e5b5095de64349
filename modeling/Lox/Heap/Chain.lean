import Lox.Heap.Basic

/-!
# The chain of frames

From a frame, the enclosing frames form a chain, which ends at a frame that has none.  A variable is
found in one of two ways: by its name, in the nearest frame of the chain that binds it
(`lookup`, `assign`), or at a known distance along the chain (`lookupAt`, `assignAt`).
-/

namespace Lox.Heap

/-- The nearest frame that binds a name, among the first `fuel` of the chain. -/
def ownerWithin (heap : Heap) (name : String) : (fuel : Nat) → FrameRef →
    Except Dangling (Option FrameRef)
  | 0, _ => .ok none
  | fuel + 1, ref => do
      let frame ← heap.frame ref
      if frame.bindings.contains name then
        return some ref
      else
        match frame.enclosing with
        | none => return none
        | some enclosing => heap.ownerWithin name fuel enclosing

/-- The nearest frame of the chain that binds a name.  A chain without a cycle is no longer than
there are slots. -/
def owner (heap : Heap) (ref : FrameRef) (name : String) : Except Dangling (Option FrameRef) :=
  heap.ownerWithin name (heap.frames.slots.size + 1) ref

/-- The frame `distance` links out, or the last one of the chain if it is shorter. -/
def ancestor (heap : Heap) : (distance : Nat) → FrameRef → Except Dangling FrameRef
  | 0, ref => .ok ref
  | distance + 1, ref => do
      let frame ← heap.frame ref
      match frame.enclosing with
      | none => return ref
      | some enclosing => heap.ancestor distance enclosing

/-- The frame `distance` links out, if it binds a name. -/
def ownerAt (heap : Heap) (ref : FrameRef) (distance : Nat) (name : String) :
    Except Dangling (Option FrameRef) := do
  let target ← heap.ancestor distance ref
  return if (← heap.frame target).bindings.contains name then some target else none

/-- The value of a variable of the frame `distance` links out. -/
def lookupAt (heap : Heap) (ref : FrameRef) (distance : Nat) (name : String) :
    Except Dangling (Option Value) := do
  let target ← heap.ancestor distance ref
  return (← heap.frame target).bindings.find? name

/-- The value of the nearest variable with this name. -/
def lookup (heap : Heap) (ref : FrameRef) (name : String) : Except Dangling (Option Value) := do
  match ← heap.owner ref name with
  | some owner => return (← heap.frame owner).bindings.find? name
  | none => return none

/-- Change a variable of the frame `distance` links out; there is no change if the frame does not
bind it. -/
def assignAt (heap : Heap) (ref : FrameRef) (distance : Nat) (name : String) (value : Value) :
    Except Dangling (Option Heap) := do
  return (← heap.ownerAt ref distance name).map (heap.bindVariable · name value)

/-- Change the nearest variable with this name; there is no change if there is none. -/
def assign (heap : Heap) (ref : FrameRef) (name : String) (value : Value) :
    Except Dangling (Option Heap) := do
  return (← heap.owner ref name).map (heap.bindVariable · name value)

end Lox.Heap
