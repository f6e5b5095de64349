import Lox.Syntax.Grammar

/-!
# Trees written as tokens

A tree is **written** as the kinds of the tokens it stands for, in the order of the source: each node
contributes its reserved words, names, operators, literals and punctuation, and in between them
stands what its parts contribute.  Lines and lexemes are left out.

A function is written behind its `fun`, a method without one.  There is no `for` in the trees, so a
`for` loop is written as the blocks and the `while` that it stands for.
-/

namespace Lox

/-- The symbol that a unary operator is written as. -/
def UnaryOp.symbol : UnaryOp → Symbol
  | not => .bang
  | negate => .minus

/-- The symbol that a binary operator is written as. -/
def BinaryOp.symbol : BinaryOp → Symbol
  | equal => .equalEqual
  | notEqual => .bangEqual
  | greater => .greater
  | greaterEqual => .greaterEqual
  | less => .less
  | lessEqual => .lessEqual
  | add => .plus
  | subtract => .minus
  | multiply => .star
  | divide => .slash
  | remainder => .percent

/-- The reserved word that a logical operator is written as. -/
def LogicalOp.keyword : LogicalOp → Keyword
  | and => .and_
  | or => .or_

/-- The kind of token that an operator between two operands is written as. -/
def Connective.kind : Connective → Kind
  | binary op => .symbol op.symbol
  | logical op => .keyword op.keyword

/-- The kind of token that a literal is written as. -/
def Literal.kind : Literal → Kind
  | nil => .keyword .nil_
  | boolean true => .keyword .true_
  | boolean false => .keyword .false_
  | number x => .number x
  | string s => .string s

/-- The kind of token that a name is written as. -/
def Ident.kind (name : Ident) : Kind := .identifier name.name

/-- Names, with a comma between any two. -/
def Ident.written : List Ident → List Kind
  | [] => []
  | [name] => [name.kind]
  | name :: rest => name.kind :: .symbol .comma :: Ident.written rest

/-- The name of a function, if it has one. -/
def FunctionName.written : FunctionName → List Kind
  | named name => [name.kind]
  | anonymous _ => []

/-- The superclass of a class, if it has one. -/
def Reference.writtenParent : Option Reference → List Kind
  | none => []
  | some ref => [.symbol .less, ref.name.kind]

mutual

/-- An expression as tokens. -/
def Expr.written : Expr → List Kind
  | .literal value => [value.kind]
  | .group inner => .symbol .leftParen :: inner.written ++ [.symbol .rightParen]
  | .unary op operand => .symbol op.op.symbol :: operand.written
  | .binary left op right => left.written ++ .symbol op.op.symbol :: right.written
  | .logical left op right => left.written ++ .keyword op.op.keyword :: right.written
  | .variable_ ref => [ref.name.kind]
  | .assign target value => target.name.kind :: .symbol .equal :: value.written
  | .call callee arguments _ =>
      callee.written ++ .symbol .leftParen :: Expr.writtenAll arguments ++ [.symbol .rightParen]
  | .get object name => object.written ++ [.symbol .dot, name.kind]
  | .set object name value =>
      object.written ++ .symbol .dot :: name.kind :: .symbol .equal :: value.written
  | .this _ _ => [.keyword .this_]
  | .super _ method _ => [.keyword .super_, .symbol .dot, method.kind]
  | .function decl => .keyword .fun_ :: decl.written

/-- Expressions, with a comma between any two. -/
def Expr.writtenAll : List Expr → List Kind
  | [] => []
  | [e] => e.written
  | e :: rest => e.written ++ .symbol .comma :: Expr.writtenAll rest

/-- A statement as tokens. -/
def Stmt.written : Stmt → List Kind
  | .expression value => value.written ++ [.symbol .semicolon]
  | .print _ value => .keyword .print_ :: value.written ++ [.symbol .semicolon]
  | .var name none => [.keyword .var_, name.kind, .symbol .semicolon]
  | .var name (some initial) =>
      .keyword .var_ :: name.kind :: .symbol .equal :: initial.written ++ [.symbol .semicolon]
  | .block body => .symbol .leftBrace :: Stmt.writtenAll body ++ [.symbol .rightBrace]
  | .branch condition yes none =>
      .keyword .if_ :: .symbol .leftParen :: condition.written ++ .symbol .rightParen :: yes.written
  | .branch condition yes (some no) =>
      .keyword .if_ :: .symbol .leftParen :: condition.written ++ .symbol .rightParen ::
        yes.written ++ .keyword .else_ :: no.written
  | .loop condition body =>
      .keyword .while_ :: .symbol .leftParen :: condition.written ++ .symbol .rightParen ::
        body.written
  | .function decl => .keyword .fun_ :: decl.written
  | .return_ _ none => [.keyword .return_, .symbol .semicolon]
  | .return_ _ (some value) => .keyword .return_ :: value.written ++ [.symbol .semicolon]
  | .class_ name superclass methods =>
      .keyword .class_ :: name.kind :: Reference.writtenParent superclass ++ .symbol .leftBrace ::
        Function.writtenAll methods ++ [.symbol .rightBrace]

/-- Statements, one after the other. -/
def Stmt.writtenAll : List Stmt → List Kind
  | [] => []
  | s :: rest => s.written ++ Stmt.writtenAll rest

/-- A function as tokens, from its name on. -/
def Function.written : Function → List Kind
  | ⟨name, parameters, body⟩ =>
      name.written ++ .symbol .leftParen :: Ident.written parameters ++ .symbol .rightParen ::
        .symbol .leftBrace :: Stmt.writtenAll body ++ [.symbol .rightBrace]

/-- Methods, one after the other. -/
def Function.writtenAll : List Function → List Kind
  | [] => []
  | f :: rest => f.written ++ Function.writtenAll rest

end

attribute [simp] Stmt.written

/-! ## Operators and their tokens -/

theorem Connective.kind_of_ofKind? {kind : Kind} {c : Connective} (h : ofKind? kind = some c) :
    c.kind = kind := by
  unfold ofKind? at h
  split at h <;> cases h <;> rfl

theorem UnaryOp.symbol_of_ofKind? {kind : Kind} {op : UnaryOp} (h : ofKind? kind = some op) :
    .symbol op.symbol = kind := by
  unfold ofKind? at h
  split at h <;> cases h <;> rfl

theorem Connective.written_combine (c : Connective) (t : Token) (left right : Expr) :
    (c.combine t left right).written = left.written ++ c.kind :: right.written := by
  cases c <;> rfl

theorem Ident.written_cons {rest : List Ident} (name : Ident) (h : rest ≠ []) :
    Ident.written (name :: rest) = name.kind :: .symbol .comma :: Ident.written rest := by
  cases rest with
  | nil => contradiction
  | cons _ _ => rfl

theorem Expr.writtenAll_cons {rest : List Expr} (e : Expr) (h : rest ≠ []) :
    Expr.writtenAll (e :: rest) = e.written ++ .symbol .comma :: Expr.writtenAll rest := by
  cases rest with
  | nil => contradiction
  | cons _ _ => simp [Expr.writtenAll]

end Lox
