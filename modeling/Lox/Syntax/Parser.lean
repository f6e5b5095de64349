import Lox.Plan.Run
import Lox.Syntax.Basic
import Lox.Syntax.Error

/-!
# Parsers

A parser looks at the tokens from its place on, takes some from the front, and either builds
something or fails at the token that it then stands before (`Outcome`).  On the way it may **note**
errors that do not stop it.

What refers back to the grammar as a whole, such as the expression inside parentheses, is not parsed
by a recursive call but asked for: a parser is a plan (`Lox.Plan`) whose questions are the phrases
of the grammar (`Phrase`).
-/

namespace Lox

/-- The sorts of things that phrases stand for. -/
inductive PhraseSort where
  | expression | expressions | names | statement | declaration | statements | functions
  deriving DecidableEq, Repr

/-- What a phrase of each sort is parsed into.  A declaration with an error in it is nothing. -/
abbrev PhraseSort.Tree : PhraseSort → Type
  | expression => Expr
  | expressions => List Expr
  | names => List Ident
  | statement => Stmt
  | declaration => Option Stmt
  | statements => List Stmt
  | functions => List Function

/-- The phrases of the grammar. -/
inductive Phrase : PhraseSort → Type where
  /-- Any expression. -/
  | expression : Phrase .expression
  /-- An expression whose outermost operators bind at least as tightly as `level` says. -/
  | operation (level : Nat) : Phrase .expression
  /-- What follows `left` in an operation of this level. -/
  | operators (level : Nat) (left : Expr) : Phrase .expression
  /-- An operand with the unary operators in front of it. -/
  | unary : Phrase .expression
  /-- The calls and property accesses that follow `object`. -/
  | accesses (object : Expr) : Phrase .expression
  /-- An expression without operators. -/
  | primary : Phrase .expression
  /-- Arguments, at least one, where `count` stand in front of them. -/
  | arguments (count : Nat) : Phrase .expressions
  /-- Parameters, at least one, where `count` stand in front of them. -/
  | parameters (count : Nat) : Phrase .names
  /-- A statement that declares nothing. -/
  | statement : Phrase .statement
  /-- A declaration or another statement, skipped if it has an error in it. -/
  | declaration : Phrase .declaration
  /-- Declarations up to the end of the input, or inside a block up to its closing brace. -/
  | declarations (inBlock : Bool) : Phrase .statements
  /-- Methods up to the closing brace of a class. -/
  | methods : Phrase .functions

/-- What a parser comes to. -/
structure Outcome (α : Type) where
  result : Except ParseError α
  /-- The errors noted on the way, in order. -/
  noted : List ParseError
  /-- The tokens that are left. -/
  rest : List Token

namespace Grammar

/-- A phrase that is to be parsed from the front of some tokens. -/
structure Question (sort : PhraseSort) where
  phrase : Phrase sort
  tokens : List Token

/-- What is parsed. -/
abbrev Answer (sort : PhraseSort) : Type := Outcome sort.Tree

end Grammar

/-- A parser of an `α`. -/
def Parser (α : Type) : Type := List Token → Plan Grammar.Question Grammar.Answer (Outcome α)

namespace Parser

variable {α β : Type}

/-- Take nothing. -/
def succeed (a : α) : Parser α := fun tokens => .done ⟨.ok a, [], tokens⟩

/-- Go on as `next` says, unless the parser fails. -/
def andThen (parser : Parser α) (next : α → Parser β) : Parser β := fun tokens => do
  let first ← parser tokens
  match first.result with
  | .error e => return ⟨.error e, first.noted, first.rest⟩
  | .ok a =>
      let second ← next a first.rest
      return { second with noted := first.noted ++ second.noted }

instance : Monad Parser where
  pure := succeed
  bind := andThen

/-- Parse a phrase of the grammar. -/
def phrase {sort : PhraseSort} (p : Phrase sort) : Parser sort.Tree := fun tokens =>
  .ask ⟨p, tokens⟩ .done

/-- The token at the place of the parser; behind the last one the input ends. -/
def front : List Token → Token
  | [] => ⟨.endOfInput, "", 0⟩
  | t :: _ => t

/-- The token that comes next, which is not taken. -/
def look : Parser Token := fun tokens => .done ⟨.ok (front tokens), [], tokens⟩

/-- Take the next token, whatever it is. -/
def skip : Parser Unit := fun tokens => .done ⟨.ok (), [], tokens.drop 1⟩

/-- Fail at the next token. -/
def fail (cause : ParseError.Cause) : Parser α := fun tokens =>
  .done ⟨.error (.atToken (front tokens) cause), [], tokens⟩

/-- Note an error at a token and go on. -/
def note (t : Token) (cause : ParseError.Cause) : Parser Unit := fun tokens =>
  .done ⟨.ok (), [.atToken t cause], tokens⟩

/-- Is the next token this symbol? -/
def sees (s : Symbol) : Parser Bool := fun tokens =>
  .done ⟨.ok ((front tokens).isSymbol s), [], tokens⟩

/-- Is the token behind the next one a name? -/
def seesNameSecond : Parser Bool := fun tokens =>
  .done ⟨.ok (front (tokens.drop 1)).isName, [], tokens⟩

/-- Is nothing left? -/
def atEnd : Parser Bool := fun tokens => .done ⟨.ok (front tokens).isEnd, [], tokens⟩

/-- Take the next token if it is this symbol: is it? -/
def accept (s : Symbol) : Parser Bool := fun tokens =>
  if (front tokens).isSymbol s then .done ⟨.ok true, [], tokens.drop 1⟩
  else .done ⟨.ok false, [], tokens⟩

/-- Take the next token if it is this reserved word: is it? -/
def acceptWord (k : Keyword) : Parser Bool := fun tokens =>
  if (front tokens).isKeyword k then .done ⟨.ok true, [], tokens.drop 1⟩
  else .done ⟨.ok false, [], tokens⟩

/-- Take the next token, which has to be this symbol. -/
def expect (s : Symbol) (spot : ParseError.Spot) : Parser Token := fun tokens =>
  if (front tokens).isSymbol s then .done ⟨.ok (front tokens), [], tokens.drop 1⟩
  else fail (.expectedSymbol s spot) tokens

/-- Take the next token, which has to be a name. -/
def expectName (role : ParseError.NameRole) : Parser Ident := fun tokens =>
  let t := front tokens
  match t.kind with
  | .identifier name => .done ⟨.ok ⟨name, t.lexeme, t.line⟩, [], tokens.drop 1⟩
  | _ => fail (.expectedName role) tokens

/-- What `parser` parses, if `present` says so. -/
def optional (present : Parser Bool) (parser : Parser α) : Parser (Option α) := do
  if ← present then some <$> parser else return none

/-- What `parser` parses, unless the next token is this symbol. -/
def unlessAt (s : Symbol) (parser : Parser α) : Parser (Option α) := do
  if ← sees s then return none else some <$> parser

/-- If the parser fails, note its error, go on as `resume` says, and make of it nothing. -/
def orResume (parser : Parser α) (resume : List Token → List Token) : Parser (Option α) :=
  fun tokens => do
    let outcome ← parser tokens
    match outcome.result with
    | .ok a => return ⟨.ok (some a), outcome.noted, outcome.rest⟩
    | .error e => return ⟨.ok none, outcome.noted ++ [e], resume outcome.rest⟩

end Parser

end Lox
