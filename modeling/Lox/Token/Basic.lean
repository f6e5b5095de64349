import Lox.Number.Text

/-!
# Tokens

A token is a piece of source text (its **lexeme**) on a line, with a **kind** that says what it is:
one of the fixed symbols, one of the sixteen reserved words, a name, a literal with its value, or
the mark that ends the input.
-/

namespace Lox

/-- Punctuation and operators. -/
inductive Symbol where
  | leftParen | rightParen | leftBrace | rightBrace
  | comma | dot | minus | plus | semicolon | slash | star | percent
  | bang | bangEqual | equal | equalEqual | greater | greaterEqual | less | lessEqual
  deriving DecidableEq, Repr

namespace Symbol

/-- The label of a symbol in a listing of tokens. -/
def label : Symbol → String
  | leftParen => "LEFT_PAREN" | rightParen => "RIGHT_PAREN"
  | leftBrace => "LEFT_BRACE" | rightBrace => "RIGHT_BRACE"
  | comma => "COMMA" | dot => "DOT" | minus => "MINUS" | plus => "PLUS"
  | semicolon => "SEMICOLON" | slash => "SLASH" | star => "STAR" | percent => "PERCENT"
  | bang => "BANG" | bangEqual => "BANG_EQUAL" | equal => "EQUAL" | equalEqual => "EQUAL_EQUAL"
  | greater => "GREATER" | greaterEqual => "GREATER_EQUAL"
  | less => "LESS" | lessEqual => "LESS_EQUAL"

/-- A symbol as it is written. -/
def text : Symbol → List Char
  | leftParen => ['('] | rightParen => [')'] | leftBrace => ['\x7b'] | rightBrace => ['\x7d']
  | comma => [','] | dot => ['.'] | minus => ['-'] | plus => ['+'] | semicolon => [';']
  | slash => ['/'] | star => ['*'] | percent => ['%']
  | bang => ['!'] | bangEqual => ['!', '='] | equal => ['='] | equalEqual => ['=', '=']
  | greater => ['>'] | greaterEqual => ['>', '='] | less => ['<'] | lessEqual => ['<', '=']

/-- Every symbol. -/
def all : List Symbol :=
  [leftParen, rightParen, leftBrace, rightBrace, comma, dot, minus, plus, semicolon, slash, star,
    percent, bang, bangEqual, equal, equalEqual, greater, greaterEqual, less, lessEqual]

theorem mem_all (s : Symbol) : s ∈ all := by cases s <;> decide

end Symbol

/-- The reserved words. -/
inductive Keyword where
  | and_ | class_ | else_ | false_ | for_ | fun_ | if_ | nil_
  | or_ | print_ | return_ | super_ | this_ | true_ | var_ | while_
  deriving DecidableEq, Repr

namespace Keyword

/-- A reserved word as it is written. -/
def text : Keyword → String
  | and_ => "and" | class_ => "class" | else_ => "else" | false_ => "false"
  | for_ => "for" | fun_ => "fun" | if_ => "if" | nil_ => "nil"
  | or_ => "or" | print_ => "print" | return_ => "return" | super_ => "super"
  | this_ => "this" | true_ => "true" | var_ => "var" | while_ => "while"

/-- The label of a reserved word in a listing of tokens. -/
def label : Keyword → String
  | and_ => "AND" | class_ => "CLASS" | else_ => "ELSE" | false_ => "FALSE"
  | for_ => "FOR" | fun_ => "FUN" | if_ => "IF" | nil_ => "NIL"
  | or_ => "OR" | print_ => "PRINT" | return_ => "RETURN" | super_ => "SUPER"
  | this_ => "THIS" | true_ => "TRUE" | var_ => "VAR" | while_ => "WHILE"

/-- Every reserved word. -/
def all : List Keyword :=
  [and_, class_, else_, false_, for_, fun_, if_, nil_, or_, print_, return_, super_, this_, true_,
    var_, while_]

/-- The reserved word that is written so. -/
def ofText? (s : String) : Option Keyword := all.find? fun k => k.text == s

theorem ofText?_text (k : Keyword) : ofText? k.text = some k := by cases k <;> decide

theorem text_of_ofText? {s : String} {k : Keyword} (h : ofText? s = some k) : k.text = s := by
  simpa using List.find?_some h

end Keyword

/-- What a token is. -/
inductive Kind where
  | symbol (symbol : Symbol)
  | keyword (keyword : Keyword)
  | identifier (name : String)
  /-- A string literal; `text` is what stands between its quotes. -/
  | string (text : String)
  | number (value : Float)
  | endOfInput

namespace Kind

/-- The label of a kind in a listing of tokens. -/
def label : Kind → String
  | symbol s => s.label
  | keyword k => k.label
  | identifier _ => "IDENTIFIER"
  | string _ => "STRING"
  | number _ => "NUMBER"
  | endOfInput => "EOF"

end Kind

/-- A token. -/
structure Token where
  kind : Kind
  lexeme : String
  line : Nat

namespace Token

/-- Is this the mark that ends the input? -/
def isEnd (t : Token) : Bool :=
  match t.kind with
  | .endOfInput => true
  | _ => false

/-- Is this the symbol `s`? -/
def isSymbol (t : Token) (s : Symbol) : Bool :=
  match t.kind with
  | .symbol s' => s' == s
  | _ => false

/-- Is this the reserved word `k`? -/
def isKeyword (t : Token) (k : Keyword) : Bool :=
  match t.kind with
  | .keyword k' => k' == k
  | _ => false

/-- Is this a name? -/
def isName (t : Token) : Bool :=
  match t.kind with
  | .identifier _ => true
  | _ => false

theorem kind_of_isSymbol {t : Token} {s : Symbol} (h : t.isSymbol s = true) :
    t.kind = .symbol s := by
  unfold isSymbol at h
  split at h
  · rename_i known; rw [known, eq_of_beq h]
  · contradiction

theorem kind_of_isKeyword {t : Token} {k : Keyword} (h : t.isKeyword k = true) :
    t.kind = .keyword k := by
  unfold isKeyword at h
  split at h
  · rename_i known; rw [known, eq_of_beq h]
  · contradiction

/-- A token in a listing: its label and lexeme, and the value of a literal. -/
def text (t : Token) : String :=
  let plain := t.kind.label ++ " " ++ t.lexeme
  match t.kind with
  | .string s => plain ++ " " ++ s
  | .number x => plain ++ " " ++ Number.text x
  | _ => plain

end Token

end Lox
