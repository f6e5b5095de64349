import Lox.Heap.Arena
import Lox.Object.Value
import Lox.Settings

/-!
# The heap

The heap holds what can be part of a cycle of references: **frames**, which hold the variables of a
scope and refer to the frame of the scope around it, and the fields of instances.  It counts
allocations, so that garbage is collected after so many of them (`Lox.Heap.Collect`).

A reference whose slot is empty is **dangling**; each access of one is refused.
-/

namespace Lox

/-- What a frame can be made for: the scope of the text that it is an activation of. -/
inductive Construct where
  /-- The outermost level, which is shared by all programs. -/
  | program
  /-- A block with these statements. -/
  | block (body : List Stmt)
  /-- The body of a function, with its parameters. -/
  | function (decl : Function)
  /-- The scope around a method that binds `this`. -/
  | self (method : Function)
  /-- The scope around the methods of a class that binds `super`. -/
  | parent (name : Ident) (methods : List Function)

/-- The variables of a scope. -/
structure Frame where
  bindings : Bindings Value
  /-- The frame of the scope around it; the globals have none. -/
  enclosing : Option FrameRef
  /-- What it was made for.  Nothing that runs looks at it. -/
  construct : Construct

/-- The heap. -/
structure Heap where
  frames : Arena Frame
  instances : Arena (Bindings Value)
  /-- The number of the next identity. -/
  nextIdentity : Nat
  /-- The allocations since the last collection. -/
  allocations : Nat
  /-- The number of allocations after which garbage is collected. -/
  threshold : Nat
  /-- The least threshold. -/
  minThreshold : Nat
  /-- How the threshold grows with the number of survivors. -/
  growthFactor : Nat

/-- An access of an empty slot. -/
inductive Dangling where
  | frame (ref : FrameRef)
  | instance_ (ref : InstanceRef)
  deriving DecidableEq, Repr

/-- An access of an empty slot in words. -/
def Dangling.message : Dangling → String
  | frame ref => "dangling environment handle " ++ ref.index.repr
  | instance_ ref => "dangling instance handle " ++ ref.index.repr

namespace Heap

/-- A heap with nothing on it. -/
def new (settings : Settings) : Heap where
  frames := .empty
  instances := .empty
  nextIdentity := 0
  allocations := 0
  threshold := settings.gcThreshold
  minThreshold := settings.gcThreshold
  growthFactor := settings.gcGrowthFactor

/-- An identity that nothing else has. -/
def newIdentity (heap : Heap) : Identity × Heap :=
  (⟨heap.nextIdentity⟩, { heap with nextIdentity := heap.nextIdentity + 1 })

/-- A frame without variables. -/
def newFrame (heap : Heap) (enclosing : Option FrameRef) (construct : Construct := .program) :
    FrameRef × Heap :=
  let (index, frames) := heap.frames.alloc ⟨.empty, enclosing, construct⟩
  (⟨index, heap.frames.allocated⟩,
    { heap with frames := frames, allocations := heap.allocations + 1 })

/-- The fields of a new instance, of which there are none yet. -/
def newInstance (heap : Heap) : InstanceRef × Heap :=
  let (index, instances) := heap.instances.alloc .empty
  (⟨index, heap.instances.allocated⟩,
    { heap with instances := instances, allocations := heap.allocations + 1 })

/-- The frame at a place. -/
def frame (heap : Heap) (ref : FrameRef) : Except Dangling Frame :=
  match heap.frames.get? ref.index with
  | some frame => .ok frame
  | none => .error (.frame ref)

/-- The fields at a place. -/
def fields (heap : Heap) (ref : InstanceRef) : Except Dangling (Bindings Value) :=
  match heap.instances.get? ref.index with
  | some fields => .ok fields
  | none => .error (.instance_ ref)

/-- Bind a variable in a frame that is there. -/
def bindVariable (heap : Heap) (ref : FrameRef) (name : String) (value : Value) : Heap :=
  { heap with
    frames := heap.frames.modify ref.index fun frame =>
      { frame with bindings := frame.bindings.insert name value } }

/-- Bind a variable in a frame, in place of what it was bound to. -/
def define (heap : Heap) (ref : FrameRef) (name : String) (value : Value) :
    Except Dangling Heap := do
  let _ ← heap.frame ref
  return heap.bindVariable ref name value

/-- Set a field of an instance that is there. -/
def bindField (heap : Heap) (ref : InstanceRef) (name : String) (value : Value) : Heap :=
  { heap with instances := heap.instances.modify ref.index (·.insert name value) }

/-- Set a field of an instance. -/
def setField (heap : Heap) (ref : InstanceRef) (name : String) (value : Value) :
    Except Dangling Heap := do
  let _ ← heap.fields ref
  return heap.bindField ref name value

end Heap

end Lox
