import Lox.Proofs.Syntax.Alike
import Lox.Proofs.Syntax.Every

/-!
# Programs that can be written down

`Stmt.tokensAll` writes a program as tokens, with everything that the trees keep: names and operators
with their lexemes, and the lines of the tokens that trees have lines for.

Not every tree can be written down so that it can be read again.  Operands have to respect the levels
of the grammar, declarations have to stand in their places, no more than 255 arguments and parameters
are allowed, and an `if` that has no `else` must not stand directly in front of one
(`Node.WellFormed`).
-/

namespace Lox

/-! ## Tokens -/

/-- A symbol as a token on a line. -/
def Symbol.tokenAt (s : Symbol) (line : Nat) : Token := ⟨.symbol s, .ofList s.text, line⟩

/-- A symbol as a token whose line no tree keeps. -/
def Symbol.token (s : Symbol) : Token := s.tokenAt 0

/-- A reserved word as a token. -/
def Keyword.token (k : Keyword) (line : Nat) : Token := ⟨.keyword k, k.text, line⟩

/-- A keyword as the token that a tree keeps. -/
def Word.token (keyword : Word) (k : Keyword) : Token := ⟨.keyword k, keyword.lexeme, keyword.line⟩

/-- A name as a token. -/
def Ident.token (name : Ident) : Token := ⟨.identifier name.name, name.lexeme, name.line⟩

/-- A literal as a token. -/
def Literal.token (value : Literal) : Token := ⟨value.kind, value.text, 0⟩

/-- An operator in front of its operand as a token. -/
def UnaryOp.token (op : Operator UnaryOp) : Token := ⟨.symbol op.op.symbol, op.lexeme, op.line⟩

/-- An operator between its operands as a token. -/
def BinaryOp.token (op : Operator BinaryOp) : Token := ⟨.symbol op.op.symbol, op.lexeme, op.line⟩

/-- An operator between its operands as a token. -/
def LogicalOp.token (op : Operator LogicalOp) : Token := ⟨.keyword op.op.keyword, op.lexeme, op.line⟩

/-- Names, with a comma between any two. -/
def Ident.tokens : List Ident → List Token
  | [] => []
  | [name] => [name.token]
  | name :: rest => name.token :: Symbol.token .comma :: Ident.tokens rest

/-- The name of a function, if it has one. -/
def FunctionName.tokens : FunctionName → List Token
  | named name => [name.token]
  | anonymous _ => []

/-- The superclass of a class, if it has one. -/
def Reference.tokensOfParent : Option Reference → List Token
  | none => []
  | some ref => [Symbol.token .less, ref.name.token]

mutual

/-- An expression as tokens. -/
def Expr.tokens : Expr → List Token
  | .literal value => [value.token]
  | .group inner => Symbol.token .leftParen :: inner.tokens ++ [Symbol.token .rightParen]
  | .unary op operand => UnaryOp.token op :: operand.tokens
  | .binary left op right => left.tokens ++ BinaryOp.token op :: right.tokens
  | .logical left op right => left.tokens ++ LogicalOp.token op :: right.tokens
  | .variable_ ref => [ref.name.token]
  | .assign target value => target.name.token :: Symbol.token .equal :: value.tokens
  | .call callee arguments line =>
      callee.tokens ++ Symbol.token .leftParen :: Expr.tokensAll arguments ++
        [Symbol.tokenAt .rightParen line]
  | .get object name => object.tokens ++ [Symbol.token .dot, name.token]
  | .set object name value =>
      object.tokens ++ Symbol.token .dot :: name.token :: Symbol.token .equal :: value.tokens
  | .this keyword _ => [keyword.token .this_]
  | .super keyword method _ => [keyword.token .super_, Symbol.token .dot, method.token]
  | .function decl =>
      Keyword.token .fun_ decl.name.line :: Symbol.token .leftParen :: decl.tokens

/-- Expressions, with a comma between any two. -/
def Expr.tokensAll : List Expr → List Token
  | [] => []
  | [e] => e.tokens
  | e :: rest => e.tokens ++ Symbol.token .comma :: Expr.tokensAll rest

/-- A statement as tokens. -/
def Stmt.tokens : Stmt → List Token
  | .expression value => value.tokens ++ [Symbol.token .semicolon]
  | .print line value => Keyword.token .print_ line :: value.tokens ++ [Symbol.token .semicolon]
  | .var name none => [Keyword.token .var_ 0, name.token, Symbol.token .semicolon]
  | .var name (some initial) =>
      Keyword.token .var_ 0 :: name.token :: Symbol.token .equal :: initial.tokens ++
        [Symbol.token .semicolon]
  | .block body => Symbol.token .leftBrace :: Stmt.tokensAll body ++ [Symbol.token .rightBrace]
  | .branch condition yes none =>
      Keyword.token .if_ 0 :: Symbol.token .leftParen :: condition.tokens ++
        Symbol.token .rightParen :: yes.tokens
  | .branch condition yes (some no) =>
      Keyword.token .if_ 0 :: Symbol.token .leftParen :: condition.tokens ++
        Symbol.token .rightParen :: yes.tokens ++ Keyword.token .else_ 0 :: no.tokens
  | .loop condition body =>
      Keyword.token .while_ 0 :: Symbol.token .leftParen :: condition.tokens ++
        Symbol.token .rightParen :: body.tokens
  | .function decl =>
      Keyword.token .fun_ 0 :: decl.name.tokens ++ Symbol.token .leftParen :: decl.tokens
  | .return_ keyword none => [keyword.token .return_, Symbol.token .semicolon]
  | .return_ keyword (some value) =>
      keyword.token .return_ :: value.tokens ++ [Symbol.token .semicolon]
  | .class_ name superclass methods =>
      Keyword.token .class_ 0 :: name.token :: Reference.tokensOfParent superclass ++
        Symbol.token .leftBrace :: Function.tokensAll methods ++ [Symbol.token .rightBrace]

/-- Statements, one after the other. -/
def Stmt.tokensAll : List Stmt → List Token
  | [] => []
  | s :: rest => s.tokens ++ Stmt.tokensAll rest

/-- A function as tokens, from behind its opening parenthesis on. -/
def Function.tokens : Function → List Token
  | ⟨_, parameters, body⟩ =>
      Ident.tokens parameters ++ Symbol.token .rightParen :: Symbol.token .leftBrace ::
        Stmt.tokensAll body ++ [Symbol.token .rightBrace]

/-- Methods, one after the other. -/
def Function.tokensAll : List Function → List Token
  | [] => []
  | f :: rest => f.name.tokens ++ Symbol.token .leftParen :: f.tokens ++ Function.tokensAll rest

end

attribute [simp] Expr.tokens Expr.tokensAll Stmt.tokens Stmt.tokensAll Function.tokens
  Function.tokensAll

theorem Ident.tokens_cons {rest : List Ident} (name : Ident) (h : rest ≠ []) :
    Ident.tokens (name :: rest) = name.token :: Symbol.token .comma :: Ident.tokens rest := by
  cases rest with
  | nil => contradiction
  | cons _ _ => rfl

theorem Expr.tokensAll_cons {rest : List Expr} (e : Expr) (h : rest ≠ []) :
    Expr.tokensAll (e :: rest) = e.tokens ++ Symbol.token .comma :: Expr.tokensAll rest := by
  cases rest with
  | nil => contradiction
  | cons _ _ => simp

/-! ## What can be written down -/

/-- Does the statement end in an `if` without an `else`? -/
def Stmt.isOpen : Stmt → Bool
  | .branch _ _ none => true
  | .branch _ _ (some no) => no.isOpen
  | .loop _ body => body.isOpen
  | _ => false

/-- No more arguments or parameters than are allowed. -/
def Node.Limited : Node → Prop
  | .expr (.call _ arguments _) => arguments.length ≤ maxArguments
  | .function f => f.parameters.length ≤ maxArguments
  | _ => True

/-- No `if` without an `else` stands directly in front of an `else`. -/
def Node.Closed : Node → Prop
  | .stmt (.branch _ yes (some _)) => yes.isOpen = false
  | _ => True

/-- The grammar has a way to write the node down. -/
structure Node.WellFormed (n : Node) : Prop where
  leveled : n.Leveled
  placed : n.Placed
  limited : n.Limited
  closed : n.Closed

/-! ## The first tokens -/

/-- Can an expression begin with a token of this kind? -/
def Kind.startsExpression : Kind → Bool
  | .number _ | .string _ | .identifier _ => true
  | .symbol s => s = .leftParen ∨ s = .bang ∨ s = .minus
  | .keyword k =>
      k = .false_ ∨ k = .true_ ∨ k = .nil_ ∨ k = .this_ ∨ k = .super_ ∨ k = .fun_
  | .endOfInput => false

/-- How the tokens of an expression begin: on `fun` there follows no name. -/
structure Begins (first : Token) (rest : List Token) : Prop where
  starts : first.kind.startsExpression = true
  unnamed : first.kind = .keyword .fun_ →
    ∃ second rest', rest = second :: rest' ∧ second.kind = .symbol .leftParen

theorem Begins.append {first : Token} {rest : List Token} (h : Begins first rest)
    (more : List Token) : Begins first (rest ++ more) := by
  refine ⟨h.starts, fun isFun => ?_⟩
  obtain ⟨second, rest', rfl, isParen⟩ := h.unnamed isFun
  exact ⟨second, rest' ++ more, rfl, isParen⟩

theorem Begins.isSymbol {first : Token} {rest : List Token} (h : Begins first rest) {s : Symbol}
    (out : (Kind.symbol s).startsExpression = false) : first.isSymbol s = false := by
  by_contra same
  have starts := h.starts
  rw [Token.kind_of_isSymbol (eq_true_of_ne_false same), out] at starts
  cases starts

theorem Begins.of_ne_fun {first : Token} {rest : List Token}
    (starts : first.kind.startsExpression = true) (ne : first.kind ≠ .keyword .fun_) :
    Begins first rest :=
  ⟨starts, fun isFun => absurd isFun ne⟩

theorem Literal.begins (value : Literal) : Begins value.token [] := by
  cases value with
  | boolean b => cases b <;> exact .of_ne_fun rfl (by simp [token, kind])
  | _ => exact .of_ne_fun rfl (by simp [token, kind])

theorem Begins.tokensAll {e : Expr} {first : Token} {rest : List Token} (same : e.tokens = first :: rest)
    (es : List Expr) : ∃ rest', Expr.tokensAll (e :: es) = first :: rest' := by
  cases es with
  | nil => exact ⟨rest, by rw [Expr.tokensAll, same]⟩
  | cons e' es =>
    rw [Expr.tokensAll_cons e (List.cons_ne_nil _ _), same]
    exact ⟨_, rfl⟩

theorem UnaryOp.begins (op : Operator UnaryOp) (rest : List Token) : Begins (token op) rest := by
  obtain ⟨op, lexeme, line⟩ := op
  cases op <;> exact .of_ne_fun rfl (by simp [token, symbol])

theorem Expr.begins (e : Expr) : ∃ first rest, e.tokens = first :: rest ∧ Begins first rest := by
  cases e with
  | literal value => exact ⟨_, _, rfl, value.begins⟩
  | group _ | variable_ _ | assign _ _ => exact ⟨_, _, rfl, .of_ne_fun rfl nofun⟩
  | unary op _ => exact ⟨_, _, rfl, UnaryOp.begins op _⟩
  | this _ _ | super _ _ _ =>
    exact ⟨_, _, rfl, .of_ne_fun rfl (by simp [Word.token])⟩
  | function _ => exact ⟨_, _, rfl, rfl, fun _ => ⟨_, _, rfl, rfl⟩⟩
  | binary first _ _ | logical first _ _ | call first _ _ | get first _ | set first _ _ =>
    obtain ⟨t, rest, same, begins⟩ := first.begins
    simp only [Expr.tokens, same, List.cons_append, List.append_assoc]
    exact ⟨t, _, rfl, begins.append _⟩

end Lox
