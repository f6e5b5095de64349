import Lox.Heap.Basic

/-!
# Errors of a running program

A running program fails at a line, for one of a few causes.  It can also come to a stop because an
empty slot of the heap is accessed; that is a fault of the interpreter and never happens.
-/

namespace Lox

namespace RuntimeError

/-- Why a program fails. -/
inductive Cause where
  | undefinedVariable (name : String)
  | undefinedProperty (name : String)
  | operandNotANumber
  | operandsNotNumbers
  | operandsNotAddable
  | divisionByZero
  | remainderByZero
  | notCallable
  | wrongArgumentCount (expected given : Nat)
  | tooManyCalls
  | propertyOfNonInstance
  | fieldOfNonInstance
  | superclassNotAClass
  | unresolvedSuper
  | unresolvedThis
  | outputFailed (reason : String)
  deriving DecidableEq, Repr

/-- A cause in words. -/
def Cause.message : Cause → String
  | undefinedVariable name => "Undefined variable '" ++ name ++ "'."
  | undefinedProperty name => "Undefined property '" ++ name ++ "'."
  | operandNotANumber => "Operand must be a number."
  | operandsNotNumbers => "Operands must be numbers."
  | operandsNotAddable => "Operands must be two numbers or two strings."
  | divisionByZero => "Division by zero."
  | remainderByZero => "Modulus by zero."
  | notCallable => "Can only call functions and classes."
  | wrongArgumentCount expected given =>
      "Expected " ++ expected.repr ++ " arguments but got " ++ given.repr ++ "."
  | tooManyCalls => "Stack overflow."
  | propertyOfNonInstance => "Only instances have properties."
  | fieldOfNonInstance => "Only instances have fields."
  | superclassNotAClass => "Superclass must be a class."
  | unresolvedSuper => "Unresolved 'super'."
  | unresolvedThis => "Unresolved 'this'."
  | outputFailed reason => "Could not write output: " ++ reason

end RuntimeError

/-- The failure of a running program. -/
structure RuntimeError where
  line : Nat
  cause : RuntimeError.Cause
  deriving DecidableEq, Repr

/-- A failure as it is reported. -/
def RuntimeError.text (e : RuntimeError) : String :=
  "[line " ++ e.line.repr ++ "] Error: " ++ e.cause.message

/-- Why a run comes to a stop before its end. -/
inductive Stop where
  | error (e : RuntimeError)
  | fault (access : Dangling)
  deriving DecidableEq, Repr

end Lox
