import Lox.Bindings
import Lox.Syntax.Basic

/-!
# Resolution

Resolution walks through a program once, in the order of its text, with the scopes that are open at
each point.  It records the depth of every reference to a local name, and it reports what is wrong
with names and with `return`, `this` and `super`, which can be told without running the program.

A block and the body of a function, together with its parameters, is a scope; the methods of a class
stand in a scope that declares `this`, and that one in a scope that declares `super` if the class
has a superclass.  The outermost level of a program is not a scope: its names are global, and
references to them get no depth.

An error does not stop the walk.
-/

namespace Lox

/-- What can be wrong with a name or a keyword. -/
inductive ResolveError.Cause where
  | readInOwnInitializer
  | declaredTwice
  | returnOutsideFunction
  | valueReturnedFromInitializer
  | thisOutsideClass
  | superOutsideClass
  | superWithoutSuperclass
  | inheritsFromItself
  deriving DecidableEq, Repr

/-- An error found by resolution, at a name or keyword. -/
structure ResolveError where
  line : Nat
  lexeme : String
  cause : ResolveError.Cause
  deriving DecidableEq, Repr

namespace ResolveError

/-- A cause in words. -/
def Cause.message : Cause → String
  | readInOwnInitializer => "Can't read local variable in its own initializer."
  | declaredTwice => "Already a variable with this name in this scope."
  | returnOutsideFunction => "Can't return from top-level code."
  | valueReturnedFromInitializer => "Can't return a value from an initializer."
  | thisOutsideClass => "Can't use 'this' outside of a class."
  | superOutsideClass => "Can't use 'super' outside of a class."
  | superWithoutSuperclass => "Can't use 'super' in a class with no superclass."
  | inheritsFromItself => "A class can't inherit from itself."

/-- An error as it is reported. -/
def text (e : ResolveError) : String :=
  "[line " ++ e.line.repr ++ "] Error at '" ++ e.lexeme ++ "': " ++ e.cause.message

end ResolveError

/-- What the innermost enclosing function is. -/
inductive Body where
  | program | function | initializer | method
  deriving DecidableEq, Repr

/-- What the innermost enclosing class is. -/
inductive Surrounding where
  | noClass | baseClass | subclass
  deriving DecidableEq, Repr

/-- The names that a scope declares, and whether each of them may be read yet. -/
abbrev Scope : Type := Bindings Bool

/-- Where a walk through a program stands. -/
structure Resolver where
  /-- The open scopes, the innermost first. -/
  scopes : List Scope
  body : Body
  surrounding : Surrounding
  /-- The errors found so far. -/
  errors : List ResolveError

namespace Resolver

/-- Outside all scopes, functions and classes. -/
def start : Resolver := ⟨[], .program, .noClass, []⟩

/-- Report an error. -/
def report (line : Nat) (lexeme : String) (cause : ResolveError.Cause) : StateM Resolver Unit :=
  modify fun r => { r with errors := r.errors ++ [⟨line, lexeme, cause⟩] }

/-- Change the innermost scope, if any is open. -/
def mapInnermost (f : Scope → Scope) : StateM Resolver Unit :=
  modify fun r =>
    match r.scopes with
    | [] => r
    | scope :: outer => { r with scopes := f scope :: outer }

/-- Open a scope. -/
def openScope (scope : Scope) : StateM Resolver Unit :=
  modify fun r => { r with scopes := scope :: r.scopes }

/-- Close the innermost scope. -/
def closeScope : StateM Resolver Unit :=
  modify fun r => { r with scopes := r.scopes.tail }

/-- Declare a name in the innermost scope.  It may not be read yet. -/
def declare (name : Ident) : StateM Resolver Unit := do
  let r ← get
  mapInnermost (·.insert name.lexeme false)
  match r.scopes with
  | [] => return ()
  | scope :: _ =>
      if scope.contains name.lexeme then report name.line name.lexeme .declaredTwice
      else return ()

/-- From now on, a name of the innermost scope may be read. -/
def define (name : Ident) : StateM Resolver Unit := mapInnermost (·.insert name.lexeme true)

/-- The number of scopes between the innermost one and the nearest that declares a name. -/
def distance (scopes : List Scope) (name : String) : Option Nat :=
  scopes.findIdx? (·.contains name)

/-- The depth of a reference, which stays as it is if no scope declares the name. -/
def locate (name : String) (depth : Option Nat) : StateM Resolver (Option Nat) := do
  return (distance (← get).scopes name).or depth

/-- Is this name declared in the innermost scope but not to be read yet? -/
def isUninitialized (scopes : List Scope) (name : String) : Bool :=
  match scopes with
  | [] => false
  | scope :: _ => scope.find? name == some false

/-- Resolve a reference that reads its variable. -/
def reference (ref : Reference) : StateM Resolver Reference := do
  if isUninitialized (← get).scopes ref.name.lexeme then
    report ref.name.line ref.name.lexeme .readInOwnInitializer
  return ⟨ref.name, ← locate ref.name.lexeme ref.depth⟩

/-- A scope with one name in it, which may be read. -/
def keywordScope (name : String) : Scope := Bindings.empty.insert name true

/-- Resolve `this`, which is looked up as it is spelled. -/
def this (keyword : Word) (depth : Option Nat) : StateM Resolver (Option Nat) := do
  match (← get).surrounding with
  | .noClass =>
      report keyword.line keyword.lexeme .thisOutsideClass
      return depth
  | .baseClass | .subclass => locate keyword.lexeme depth

/-- Resolve `super`, which is looked up as it is spelled. -/
def super (keyword : Word) (depth : Option Nat) : StateM Resolver (Option Nat) := do
  match (← get).surrounding with
  | .noClass =>
      report keyword.line keyword.lexeme .superOutsideClass
      return depth
  | .baseClass =>
      report keyword.line keyword.lexeme .superWithoutSuperclass
      return depth
  | .subclass => locate keyword.lexeme depth

/-- Report a `return` that stands where it must not. -/
def checkReturn (keyword : Word) (hasValue : Bool) : StateM Resolver Unit := do
  let body := (← get).body
  if body = .program then
    report keyword.line keyword.lexeme .returnOutsideFunction
  if hasValue ∧ body = .initializer then
    report keyword.line keyword.lexeme .valueReturnedFromInitializer

/-- Declare the parameters of a function. -/
def declareAll (names : List Ident) : StateM Resolver Unit :=
  names.forM fun name => do
    declare name
    define name

/-- Begin a class: from here up to its end it is the innermost one. -/
def beginClass (name : Ident) : StateM Resolver Unit := do
  modify fun r => { r with surrounding := .baseClass }
  declare name
  define name

/-- Resolve the superclass of the class `name` and open the scope that declares `super`. -/
def superclass (name : Ident) (ref : Reference) : StateM Resolver Reference := do
  if ref.name.lexeme = name.lexeme then
    report ref.name.line ref.name.lexeme .inheritsFromItself
  modify fun r => { r with surrounding := .subclass }
  let ref ← reference ref
  openScope (keywordScope superName)
  return ref

end Resolver

open Resolver

mutual

/-- Resolve an expression. -/
def Expr.resolve : Expr → StateM Resolver Expr
  | .literal value => return .literal value
  | .group inner => return .group (← inner.resolve)
  | .unary op operand => return .unary op (← operand.resolve)
  | .binary left op right => do
      let left ← left.resolve
      return .binary left op (← right.resolve)
  | .logical left op right => do
      let left ← left.resolve
      return .logical left op (← right.resolve)
  | .variable_ ref => return .variable_ (← reference ref)
  | .assign target value => do
      let value ← value.resolve
      return .assign ⟨target.name, ← locate target.name.lexeme target.depth⟩ value
  | .call callee arguments line => do
      let callee ← callee.resolve
      return .call callee (← Expr.resolveAll arguments) line
  | .get object name => return .get (← object.resolve) name
  | .set object name value => do
      let value ← value.resolve
      return .set (← object.resolve) name value
  | .this keyword depth => return .this keyword (← Resolver.this keyword depth)
  | .super keyword method depth =>
      return .super keyword method (← Resolver.super keyword depth)
  | .function decl => return .function (← decl.resolve .function)

/-- Resolve expressions, one after the other. -/
def Expr.resolveAll : List Expr → StateM Resolver (List Expr)
  | [] => return []
  | e :: rest => do
      let e ← e.resolve
      return e :: (← Expr.resolveAll rest)

/-- Resolve a statement. -/
def Stmt.resolve : Stmt → StateM Resolver Stmt
  | .expression value => return .expression (← value.resolve)
  | .print line value => return .print line (← value.resolve)
  | .var name none => do
      declare name
      define name
      return .var name none
  | .var name (some initial) => do
      declare name
      let initial ← initial.resolve
      define name
      return .var name (some initial)
  | .block body => do
      openScope .empty
      let body ← Stmt.resolveAll body
      closeScope
      return .block body
  | .branch condition yes none => do
      let condition ← condition.resolve
      return .branch condition (← yes.resolve) none
  | .branch condition yes (some no) => do
      let condition ← condition.resolve
      let yes ← yes.resolve
      return .branch condition yes (some (← no.resolve))
  | .loop condition body => do
      let condition ← condition.resolve
      return .loop condition (← body.resolve)
  | .function decl => do
      match decl.name with
      | .named name =>
          declare name
          define name
      | .anonymous _ => pure ()
      return .function (← decl.resolve .function)
  | .return_ keyword none => do
      checkReturn keyword false
      return .return_ keyword none
  | .return_ keyword (some value) => do
      checkReturn keyword true
      return .return_ keyword (some (← value.resolve))
  | .class_ name superclass methods => do
      let outside := (← get).surrounding
      beginClass name
      match superclass with
      | none =>
          openScope (keywordScope thisName)
          let methods ← Function.resolveAll methods
          closeScope
          modify fun r => { r with surrounding := outside }
          return .class_ name none methods
      | some ref =>
          let ref ← Resolver.superclass name ref
          openScope (keywordScope thisName)
          let methods ← Function.resolveAll methods
          closeScope
          closeScope
          modify fun r => { r with surrounding := outside }
          return .class_ name (some ref) methods

/-- Resolve statements, one after the other. -/
def Stmt.resolveAll : List Stmt → StateM Resolver (List Stmt)
  | [] => return []
  | s :: rest => do
      let s ← s.resolve
      return s :: (← Stmt.resolveAll rest)

/-- Resolve a function, whose body is of the sort `body`. -/
def Function.resolve : Function → Body → StateM Resolver Function
  | ⟨name, parameters, statements⟩, body => do
      let outside := (← get).body
      modify fun r => { r with body := body }
      openScope .empty
      declareAll parameters
      let statements ← Stmt.resolveAll statements
      closeScope
      modify fun r => { r with body := outside }
      return ⟨name, parameters, statements⟩

/-- Resolve the methods of a class, one after the other. -/
def Function.resolveAll : List Function → StateM Resolver (List Function)
  | [] => return []
  | f :: rest => do
      let f ← f.resolve (if f.namedInit then .initializer else .method)
      return f :: (← Function.resolveAll rest)

end

/-- What resolution makes of a program. -/
structure Resolution where
  /-- The program with the depths of its references. -/
  program : List Stmt
  errors : List ResolveError

/-- Resolve a program from where a walk stands, and hand its errors over. -/
def Resolver.resolve (r : Resolver) (program : List Stmt) : Resolution × Resolver :=
  let (program, r) := Stmt.resolveAll program r
  (⟨program, r.errors⟩, { r with errors := [] })

/-- Resolve a program. -/
def resolveProgram (program : List Stmt) : Resolution := (Resolver.start.resolve program).1

end Lox
