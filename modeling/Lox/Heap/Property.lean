import Lox.Heap.Basic

/-!
# Properties of instances

A property of an instance is one of its fields or, where it has no field of that name, a method of
its class.  A method comes back **bound**: as a function that runs in a frame of its own, which
binds `this` to the instance and encloses the frame of the method.
-/

namespace Lox.Heap

/-- Bind a method to an instance. -/
def bindMethod (heap : Heap) (method : Closure) (object : Instance) : Closure × Heap :=
  let (frame, heap) := heap.newFrame (some method.frame) (.self method.declaration)
  ({ method with frame := frame },
    heap.bindVariable frame thisName (.instance_ object))

/-- A method, bound to an instance, as a value. -/
def boundMethod (heap : Heap) (method : Closure) (object : Instance) : Value × Heap :=
  let (closure, heap) := heap.bindMethod method object
  let (identity, heap) := heap.newIdentity
  (.function identity closure, heap)

/-- A property of an instance, as it is found. -/
inductive Property where
  | field (value : Value)
  | method (method : Closure)

/-- Find a property of an instance. -/
def findProperty (heap : Heap) (object : Instance) (name : String) :
    Except Dangling (Option Property) := do
  match (← heap.fields object.fields).find? name with
  | some value => return some (.field value)
  | none => return (object.type.findMethod? name).map .method

/-- The value of a property, if there is one of this name. -/
def property (heap : Heap) (object : Instance) (name : String) :
    Except Dangling (Option (Value × Heap)) := do
  match ← heap.findProperty object name with
  | some (.field value) => return some (value, heap)
  | some (.method method) => return some (heap.boundMethod method object)
  | none => return none

end Lox.Heap
