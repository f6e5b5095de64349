import Lox.Syntax.Basic

/-!
# Mentions

The **mentions** of a program are the references in it with their depths, in the order in which they
stand in the text, and the functions around them with their beginnings and ends.
-/

namespace Lox

/-- The ways of referring to a variable. -/
inductive MentionRole where
  | variable_ | assign | this | super
  deriving DecidableEq, Repr

/-- The label of a role in a listing. -/
def MentionRole.label : MentionRole → String
  | variable_ => "variable"
  | assign => "assign"
  | this => "this"
  | super => "super"

/-- A mention. -/
inductive Mention where
  | reference (role : MentionRole) (lexeme : String) (line : Nat) (depth : Option Nat)
  | enter (sort : FunctionSort) (name : String) (line : Nat) (arity : Nat)
  | leave
  deriving DecidableEq, Repr

mutual

/-- The mentions of an expression. -/
def Expr.mentions : Expr → List Mention
  | .literal _ => []
  | .group inner => inner.mentions
  | .unary _ operand => operand.mentions
  | .binary left _ right => left.mentions ++ right.mentions
  | .logical left _ right => left.mentions ++ right.mentions
  | .variable_ ref => [.reference .variable_ ref.name.lexeme ref.name.line ref.depth]
  | .assign target value =>
      .reference .assign target.name.lexeme target.name.line target.depth :: value.mentions
  | .call callee arguments _ => callee.mentions ++ Expr.mentionsAll arguments
  | .get object _ => object.mentions
  | .set object _ value => object.mentions ++ value.mentions
  | .this keyword depth => [.reference .this keyword.lexeme keyword.line depth]
  | .super keyword _ depth => [.reference .super keyword.lexeme keyword.line depth]
  | .function decl => decl.mentions .function

/-- The mentions of expressions. -/
def Expr.mentionsAll : List Expr → List Mention
  | [] => []
  | e :: rest => e.mentions ++ Expr.mentionsAll rest

/-- The mentions of a statement. -/
def Stmt.mentions : Stmt → List Mention
  | .expression value => value.mentions
  | .print _ value => value.mentions
  | .var _ none => []
  | .var _ (some initial) => initial.mentions
  | .block body => Stmt.mentionsAll body
  | .branch condition yes none => condition.mentions ++ yes.mentions
  | .branch condition yes (some no) => condition.mentions ++ yes.mentions ++ no.mentions
  | .loop condition body => condition.mentions ++ body.mentions
  | .function decl => decl.mentions .function
  | .return_ _ none => []
  | .return_ _ (some value) => value.mentions
  | .class_ _ none methods => Function.mentionsAll methods
  | .class_ _ (some ref) methods =>
      .reference .variable_ ref.name.lexeme ref.name.line ref.depth ::
        Function.mentionsAll methods

/-- The mentions of statements. -/
def Stmt.mentionsAll : List Stmt → List Mention
  | [] => []
  | s :: rest => s.mentions ++ Stmt.mentionsAll rest

/-- The mentions of a function. -/
def Function.mentions : Function → FunctionSort → List Mention
  | ⟨name, parameters, body⟩, sort =>
      .enter sort name.lexeme name.line parameters.length :: Stmt.mentionsAll body ++ [.leave]

/-- The mentions of methods. -/
def Function.mentionsAll : List Function → List Mention
  | [] => []
  | f :: rest => f.mentions .method ++ Function.mentionsAll rest

end

end Lox
