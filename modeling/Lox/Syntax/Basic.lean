import Lox.Token.Basic

/-!
# Syntax trees

A program is a list of statements.  Statements hold expressions, and both hold functions, whose
bodies are statements again.

Trees keep what later stages need of the source: names, operators, and the keywords that resolution
looks up or names in an error, with their lexeme and line, and otherwise the line of a keyword or
closing parenthesis that an error may point at.  A reference to a name that may be local (`Reference`,
and `this` and `super`) has room for its **depth**, the number of scopes between it and the declaration
it refers to.  Depths are found by `Lox.Scope.Resolve`; a reference without one is to a global name.
-/

namespace Lox

/-- A name in the source. -/
structure Ident where
  name : String
  lexeme : String
  line : Nat
  deriving DecidableEq, Repr

/-- A keyword in the source.  Its lexeme is kept, since it is by the lexeme that it is looked up. -/
structure Word where
  lexeme : String
  line : Nat
  deriving DecidableEq, Repr

/-- A token of a keyword as trees keep it. -/
def Token.word (t : Token) : Word := ⟨t.lexeme, t.line⟩

/-- An operator in the source. -/
structure Operator (Op : Type) where
  op : Op
  lexeme : String
  line : Nat
  deriving DecidableEq, Repr

/-- The operators with one operand. -/
inductive UnaryOp where
  | not | negate
  deriving DecidableEq, Repr

/-- The operators that evaluate both their operands. -/
inductive BinaryOp where
  | equal | notEqual
  | greater | greaterEqual | less | lessEqual
  | add | subtract
  | multiply | divide | remainder
  deriving DecidableEq, Repr

/-- The operators that may leave their right operand alone. -/
inductive LogicalOp where
  | and | or
  deriving DecidableEq, Repr

/-- A value written out in the source. -/
inductive Literal where
  | nil
  | boolean (value : Bool)
  | number (value : Float)
  | string (text : String)

/-- The text of a literal value. -/
def Literal.text : Literal → String
  | nil => "nil"
  | boolean b => if b then "true" else "false"
  | number x => Number.text x
  | string s => s

/-- A name that refers to a variable, and its depth if the variable is local. -/
structure Reference where
  name : Ident
  depth : Option Nat
  deriving DecidableEq, Repr

/-- What a function is called: its name, or nothing if it is written as an expression, which
leaves the line of its keyword. -/
inductive FunctionName where
  | named (name : Ident)
  | anonymous (line : Nat)
  deriving DecidableEq, Repr

namespace FunctionName

/-- The name, which is empty for an anonymous function. -/
def lexeme : FunctionName → String
  | named name => name.lexeme
  | anonymous _ => ""

/-- The line on which a function begins. -/
def line : FunctionName → Nat
  | named name => name.line
  | anonymous line => line

end FunctionName

mutual

/-- An expression. -/
inductive Expr where
  | literal (value : Literal)
  /-- An expression in parentheses. -/
  | group (inner : Expr)
  | unary (op : Operator UnaryOp) (operand : Expr)
  | binary (left : Expr) (op : Operator BinaryOp) (right : Expr)
  | logical (left : Expr) (op : Operator LogicalOp) (right : Expr)
  | variable_ (ref : Reference)
  | assign (target : Reference) (value : Expr)
  /-- A call; `line` is that of its closing parenthesis. -/
  | call (callee : Expr) (arguments : List Expr) (line : Nat)
  | get (object : Expr) (name : Ident)
  | set (object : Expr) (name : Ident) (value : Expr)
  | this (keyword : Word) (depth : Option Nat)
  | super (keyword : Word) (method : Ident) (depth : Option Nat)
  | function (decl : Function)

/-- A statement. -/
inductive Stmt where
  | expression (value : Expr)
  | print (line : Nat) (value : Expr)
  | var (name : Ident) (initial : Option Expr)
  | block (body : List Stmt)
  | branch (condition : Expr) (yes : Stmt) (no : Option Stmt)
  | loop (condition : Expr) (body : Stmt)
  | function (decl : Function)
  | return_ (keyword : Word) (value : Option Expr)
  | class_ (name : Ident) (superclass : Option Reference) (methods : List Function)

/-- A function with its parameters and body. -/
structure Function where
  name : FunctionName
  parameters : List Ident
  body : List Stmt

end

/-- The two sorts of function declarations. -/
inductive FunctionSort where
  | function | method
  deriving DecidableEq, Repr

/-- A sort of function in words. -/
def FunctionSort.text : FunctionSort → String
  | function => "function"
  | method => "method"

/-- The number of arguments that a function takes. -/
def Function.arity (f : Function) : Nat := f.parameters.length

/-- The name of the method that sets up a new instance. -/
def initializerName : String := "init"

/-- The name of the object that a method belongs to. -/
def thisName : String := Keyword.this_.text

/-- The name of the superclass, in the scope around the methods of a subclass. -/
def superName : String := Keyword.super_.text

/-- Has the function the name of an initializer? -/
def Function.namedInit (f : Function) : Bool := f.name.lexeme == initializerName

end Lox
