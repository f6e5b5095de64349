import Lox.Bindings
import Lox.Syntax.Basic

/-!
# Values

The values that a program computes with.  Strings, numbers and truth values are what they are.
Functions, classes and instances are objects: two of them are the same only if they were made at
once, which an **identity** records for functions and classes and the place of its fields for an
instance.

Frames (the variables of a scope) and the fields of instances live on the heap (`Lox.Heap`), and
values refer to them by `FrameRef` and `InstanceRef`.  A place on the heap is used again once what it
held is gone; a reference has the **serial** number of what it was made for, which is never given
twice.  Nothing that runs looks at serial numbers.  They are there to say that a reference is still
what it was.
-/

namespace Lox

/-- The place of a frame on the heap. -/
structure FrameRef where
  index : Nat
  /-- How many frames were made before this one. -/
  serial : Nat
  deriving DecidableEq, Repr

/-- The place of the fields of an instance on the heap. -/
structure InstanceRef where
  index : Nat
  /-- How many instances were made before this one. -/
  serial : Nat
  deriving DecidableEq, Repr

/-- What tells apart two functions, or two classes, that are otherwise alike. -/
structure Identity where
  number : Nat
  deriving DecidableEq, Repr

/-- A function together with the frame that it was made in. -/
structure Closure where
  declaration : Function
  frame : FrameRef
  isInitializer : Bool

/-- The number of arguments that a closure takes. -/
def Closure.arity (c : Closure) : Nat := c.declaration.arity

/-- A function that is not written in the language itself. -/
inductive Native where
  /-- The time in seconds. -/
  | clock
  deriving DecidableEq, Repr

namespace Native

/-- The global name of a native function. -/
def name : Native → String
  | clock => "clock"

/-- The number of arguments that a native function takes. -/
def arity : Native → Nat
  | clock => 0

/-- Every native function. -/
def all : List Native := [clock]

end Native

/-- What a class declaration adds to what is inherited. -/
structure ClassBody where
  identity : Identity
  name : String
  methods : Bindings Closure

/-- A class: its own body and those of its superclasses, the nearest first. -/
structure Class where
  own : ClassBody
  inherited : List ClassBody

namespace Class

/-- The name of a class. -/
def name (c : Class) : String := c.own.name

/-- The bodies of a class and its superclasses, the nearest first. -/
def lineage (c : Class) : List ClassBody := c.own :: c.inherited

/-- The class that this one is declared to extend. -/
def superclass? (c : Class) : Option Class :=
  match c.inherited with
  | [] => none
  | body :: rest => some ⟨body, rest⟩

/-- A class that adds `body` to its superclass. -/
def extend (body : ClassBody) : Option Class → Class
  | none => ⟨body, []⟩
  | some parent => ⟨body, parent.lineage⟩

/-- The method with a name that is nearest to the class. -/
def findMethod? (c : Class) (name : String) : Option Closure :=
  c.lineage.findSome? fun body => body.methods.find? name

/-- A method is looked for in the class first and then in its superclass. -/
theorem findMethod?_eq (c : Class) (name : String) :
    c.findMethod? name =
      (c.own.methods.find? name).or (c.superclass?.bind fun parent => parent.findMethod? name) := by
  obtain ⟨own, inherited⟩ := c
  cases inherited <;> simp [findMethod?, lineage, superclass?, List.findSome?_cons] <;>
    cases own.methods.find? name <;> rfl

/-- The number of arguments that a call of the class takes, which are those of its initializer. -/
def arity (c : Class) : Nat :=
  match c.findMethod? initializerName with
  | some initializer => initializer.arity
  | none => 0

end Class

/-- An instance of a class. -/
structure Instance where
  fields : InstanceRef
  type : Class

/-- A value. -/
inductive Value where
  | nil
  | boolean (value : Bool)
  | number (value : Float)
  | string (text : String)
  | function (identity : Identity) (closure : Closure)
  | native (identity : Identity) (native : Native)
  | class_ (type : Class)
  | instance_ (object : Instance)

namespace Value

instance : Inhabited Value := ⟨nil⟩

/-- The value of a literal. -/
def ofLiteral : Literal → Value
  | .nil => nil
  | .boolean b => boolean b
  | .number x => number x
  | .string s => string s

/-- Only `nil` and `false` count as false. -/
def isTruthy : Value → Bool
  | nil => false
  | boolean b => b
  | _ => true

/-- Are two values the same?  Values of different sorts never are, and numbers are compared as
numbers, so that not-a-number differs from itself. -/
def isEqual : Value → Value → Bool
  | nil, nil => true
  | boolean a, boolean b => a == b
  | number a, number b => a == b
  | string a, string b => a == b
  | function a _, function b _ => a == b
  | native a _, native b _ => a == b
  | class_ a, class_ b => a.own.identity == b.own.identity
  | instance_ a, instance_ b => a.fields.index == b.fields.index
  | _, _ => false

/-- The text of a value, as it is printed. -/
def text : Value → String
  | nil => "nil"
  | boolean b => if b then "true" else "false"
  | number x => Number.text x
  | string s => s
  | function _ closure =>
      match closure.declaration.name with
      | .named name => "<fn " ++ name.lexeme ++ ">"
      | .anonymous _ => "<fn>"
  | native _ _ => "<native fn>"
  | class_ type => type.name
  | instance_ object => object.type.name ++ " instance"

end Value

end Lox
