import Lox.Proofs.Syntax.Form
import Lox.Proofs.Syntax.Kept
import Lox.Proofs.Syntax.Relabel
import Lox.Proofs.Token.Longest

/-!
# The text of a tree determines the tree

A program is printed as nested forms, one line for each statement.  Nothing is printed of the lines and
the depths of a tree, and of a number only its text; two programs with the same text are the same but for
these (`program_of_programText`).  This takes two steps:

* the text determines the forms (`Form.Proper.lines_injective`), since names, operators and numbers are
  words without blanks and parentheses (`Stmt.proper_form`);
* the form determines the tree: `Form.stmt` reads a tree off a form, and reads back what was shown
  (`Stmt.stmt_form`).

A string is printed as it is, without quotes, and could look like anything.  A number that is not finite
is printed as a word, `inf`, and could be a name.  Programs with either are excluded (`Kind.IsPlain`).
Otherwise a word is a name unless it is one of `nil`, `true`, `false` and `this`, and the names that are
at the head of a list, like `group`, are told from variables by their place.

What is asked of the names and operators of a tree (`Node.Legible`) holds of whatever is parsed, also
where there are errors (`legible_parseProgram`).
-/

namespace Lox

/-! ## Trees with their numbers as they are printed -/

/-- A literal, of which only the text remains if it is a number. -/
def Literal.printed : Literal → Literal
  | number x => string (Number.text x)
  | value => value

mutual

/-- An expression with its numbers as they are printed. -/
def Expr.printed : Expr → Expr
  | .literal value => .literal value.printed
  | .group inner => .group inner.printed
  | .unary op operand => .unary op operand.printed
  | .binary left op right => .binary left.printed op right.printed
  | .logical left op right => .logical left.printed op right.printed
  | .variable_ ref => .variable_ ref
  | .assign target value => .assign target value.printed
  | .call callee arguments line => .call callee.printed (Expr.printedAll arguments) line
  | .get object name => .get object.printed name
  | .set object name value => .set object.printed name value.printed
  | .this keyword depth => .this keyword depth
  | .super keyword method depth => .super keyword method depth
  | .function decl => .function decl.printed

/-- Expressions with their numbers as they are printed. -/
def Expr.printedAll : List Expr → List Expr
  | [] => []
  | e :: rest => e.printed :: Expr.printedAll rest

/-- A statement with its numbers as they are printed. -/
def Stmt.printed : Stmt → Stmt
  | .expression value => .expression value.printed
  | .print line value => .print line value.printed
  | .var name none => .var name none
  | .var name (some initial) => .var name (some initial.printed)
  | .block body => .block (Stmt.printedAll body)
  | .branch condition yes none => .branch condition.printed yes.printed none
  | .branch condition yes (some no) => .branch condition.printed yes.printed (some no.printed)
  | .loop condition body => .loop condition.printed body.printed
  | .function decl => .function decl.printed
  | .return_ keyword none => .return_ keyword none
  | .return_ keyword (some value) => .return_ keyword (some value.printed)
  | .class_ name superclass methods => .class_ name superclass (Function.printedAll methods)

/-- Statements with their numbers as they are printed. -/
def Stmt.printedAll : List Stmt → List Stmt
  | [] => []
  | s :: rest => s.printed :: Stmt.printedAll rest

/-- A function with the numbers in its body as they are printed. -/
def Function.printed : Function → Function
  | ⟨name, parameters, body⟩ => ⟨name, parameters, Stmt.printedAll body⟩

/-- Functions with the numbers in their bodies as they are printed. -/
def Function.printedAll : List Function → List Function
  | [] => []
  | f :: rest => f.printed :: Function.printedAll rest

end

/-- What a program is besides lines, depths, and the numbers that are printed alike. -/
def shownPart (program : List Stmt) : List Stmt := Stmt.printedAll (Stmt.relabelAll .bare program)

/-! ## Reading a form back -/

/-- The name that is written so. -/
def Ident.ofText (s : String) : Ident := ⟨s, s, 0⟩

/-- The name of a function that is written so. -/
def FunctionName.ofText (s : String) : FunctionName :=
  if s = "" then .anonymous 0 else .named (.ofText s)

/-- The keyword as it is spelled. -/
def Word.ofKeyword (k : Keyword) : Word := ⟨k.text, 0⟩

/-- The operator between two operands that is written so. -/
def BinaryOp.ofText : String → BinaryOp
  | "==" => .equal
  | "!=" => .notEqual
  | ">" => .greater
  | ">=" => .greaterEqual
  | "<" => .less
  | "<=" => .lessEqual
  | "+" => .add
  | "-" => .subtract
  | "*" => .multiply
  | "/" => .divide
  | _ => .remainder

/-- The expression that an atom shows. -/
def Expr.ofAtom (s : String) : Expr :=
  match Keyword.ofText? s with
  | some .nil_ => .literal .nil
  | some .true_ => .literal (.boolean true)
  | some .false_ => .literal (.boolean false)
  | some .this_ => .this (.ofKeyword .this_) none
  | _ =>
      if s.toList.head?.any Segment.isNameStart then .variable_ ⟨.ofText s, none⟩
      else .literal (.string s)

/-- The operation that a head with two more parts shows. -/
def Expr.ofOperation (head : String) (left right : Expr) : Expr :=
  match head with
  | "and" => .logical left ⟨.and, "and", 0⟩ right
  | "or" => .logical left ⟨.or, "or", 0⟩ right
  | op => .binary left ⟨.ofText op, op, 0⟩ right

namespace Form

mutual

/-- The expression that a form shows. -/
def expr : Form → Expr
  | .atom s => .ofAtom s
  | .list [.atom "group", inner] => .group inner.expr
  | .list [.atom "!", operand] => .unary ⟨.not, "!", 0⟩ operand.expr
  | .list [.atom "-", operand] => .unary ⟨.negate, "-", 0⟩ operand.expr
  | .list [.atom "super", .atom method] => .super (.ofKeyword .super_) (.ofText method) none
  | .list [.atom "assign", .atom name, value] => .assign ⟨.ofText name, none⟩ value.expr
  | .list [.atom "get", object, .atom name] => .get object.expr (.ofText name)
  | .list [.atom "set", object, .atom name, value] => .set object.expr (.ofText name) value.expr
  | .list (.atom "call" :: callee :: arguments) => .call callee.expr (exprs arguments) 0
  | .list (.atom "fun" :: .signature name parameters :: body) =>
      .function ⟨.ofText name, parameters.map .ofText, stmts body⟩
  | .list [.atom head, left, right] => .ofOperation head left.expr right.expr
  | _ => .literal .nil

/-- The expressions that forms show. -/
def exprs : List Form → List Expr
  | [] => []
  | f :: rest => f.expr :: exprs rest

/-- The statement that a form shows. -/
def stmt : Form → Stmt
  | .list [.atom ";", value] => .expression value.expr
  | .list [.atom "print", value] => .print 0 value.expr
  | .list [.atom "var", .atom name] => .var (.ofText name) none
  | .list [.atom "var", .atom name, initial] => .var (.ofText name) (some initial.expr)
  | .list (.atom "block" :: body) => .block (stmts body)
  | .list [.atom "if", condition, yes] => .branch condition.expr yes.stmt none
  | .list [.atom "if", condition, yes, no] => .branch condition.expr yes.stmt (some no.stmt)
  | .list [.atom "while", condition, body] => .loop condition.expr body.stmt
  | .list (.atom "fun" :: .signature name parameters :: body) =>
      .function ⟨.ofText name, parameters.map .ofText, stmts body⟩
  | .list [.atom "return"] => .return_ (.ofKeyword .return_) none
  | .list [.atom "return", value] => .return_ (.ofKeyword .return_) (some value.expr)
  | .list (.atom "class" :: .atom name :: .atom "<" :: .atom parent :: methods) =>
      .class_ (.ofText name) (some ⟨.ofText parent, none⟩) (functions methods)
  | .list (.atom "class" :: .atom name :: methods) => .class_ (.ofText name) none (functions methods)
  | _ => .block []

/-- The statements that forms show. -/
def stmts : List Form → List Stmt
  | [] => []
  | f :: rest => f.stmt :: stmts rest

/-- The function that a form shows. -/
def function : Form → Function
  | .list (.atom "fun" :: .signature name parameters :: body) =>
      ⟨.ofText name, parameters.map .ofText, stmts body⟩
  | _ => ⟨.anonymous 0, [], []⟩

/-- The functions that forms show. -/
def functions : List Form → List Function
  | [] => []
  | f :: rest => f.function :: functions rest

end

end Form

/-! ## Numbers -/

/-- The number is finite. -/
def Number.IsFinite (x : Float) : Prop := ∃ value, decode x = .finite value

instance (x : Float) : Decidable (Number.IsFinite x) :=
  match decoded : Number.decode x with
  | .finite value => isTrue ⟨value, decoded⟩
  | .nan => isFalse fun ⟨_, finite⟩ => by cases decoded.symm.trans finite
  | .infinite _ => isFalse fun ⟨_, finite⟩ => by cases decoded.symm.trans finite

/-- A character that the texts of numbers are made of. -/
def Number.isPart (c : Char) : Bool := c.isDigit || c == '.' || c == '-'

/-- A text such as finite numbers have. -/
structure IsNumeric (s : String) : Prop where
  nonempty : s.toList ≠ []
  parts : ∀ c ∈ s.toList, Number.isPart c = true

namespace Number

theorem isNumeric_decimal (d : Decimal) : IsNumeric d.text := by
  have digits : ∀ c ∈ Nat.toDigits 10 d.coefficient, isPart c = true := fun c mem => by
    rw [isPart, Nat.isDigit_of_mem_toDigits (by decide) (by decide) mem]
    rfl
  have zeros (n : Nat) : ∀ c ∈ List.replicate n '0', isPart c = true := fun c mem => by
    rw [List.eq_of_mem_replicate mem]
    decide
  unfold Decimal.text
  simp only
  split
  · refine ⟨by simp [Nat.toDigits_ne_nil], ?_⟩
    rw [String.toList_ofList]
    exact List.forall_mem_append.mpr ⟨digits, zeros _⟩
  · split
    · refine ⟨by simp, ?_⟩
      rw [String.toList_ofList]
      refine List.forall_mem_append.mpr ⟨fun c mem => digits c (List.mem_of_mem_take mem), ?_⟩
      exact List.forall_mem_cons.mpr ⟨by decide, fun c mem => digits c (List.mem_of_mem_drop mem)⟩
    · refine ⟨by simp, ?_⟩
      rw [String.toList_ofList]
      refine List.forall_mem_append.mpr ⟨List.forall_mem_cons.mpr ⟨by decide, ?_⟩, digits⟩
      exact List.forall_mem_cons.mpr ⟨by decide, zeros _⟩

/-- The text of a finite number. -/
theorem isNumeric_text {x : Float} (finite : IsFinite x) : IsNumeric (text x) := by
  obtain ⟨value, finite⟩ := finite
  have size : IsNumeric
      (if value.mantissa = 0 then "0" else (shortest value.mantissa value.exponent).text) := by
    split
    · exact ⟨by decide, List.forall_mem_singleton.mpr (by decide)⟩
    · exact isNumeric_decimal _
  rw [text, finite]
  simp only
  split
  · refine ⟨by simp, ?_⟩
    rw [String.toList_append]
    exact List.forall_mem_append.mpr ⟨List.forall_mem_singleton.mpr (by decide), size.parts⟩
  · exact size

end Number

/-! ## What can be told from its form -/

/-- The name is a word that is not reserved, and is called as it is written. -/
structure Ident.Legible (name : Ident) : Prop where
  same : name.name = name.lexeme
  isWord : IsWord name.lexeme.toList
  free : ∀ k : Keyword, k.text ≠ name.lexeme

/-- Names that are legible, and keywords that are spelled as they should be. -/
def Vocabulary.legible : Vocabulary := ⟨Ident.Legible, fun k keyword => keyword.Spells k⟩

/-- The operator and the words of the node are spelled as they should be, and it is no string and no
number that is not finite. -/
def Node.Legible : Node → Prop
  | .expr (.literal (.number x)) => Number.IsFinite x
  | .expr (.literal (.string _)) => False
  | .expr (.unary op _) => op.lexeme = String.ofList op.op.symbol.text
  | .expr (.binary _ op _) => op.lexeme = String.ofList op.op.symbol.text
  | .expr (.logical _ op _) => op.lexeme = op.op.keyword.text
  | n => n.Names .legible

/-- A kind that is no string and no number that is not finite. -/
def Kind.IsPlain : Kind → Prop
  | .string _ => False
  | .number x => Number.IsFinite x
  | _ => True

instance : (kind : Kind) → Decidable kind.IsPlain
  | .string _ => isFalse id
  | .number x => inferInstanceAs (Decidable (Number.IsFinite x))
  | .symbol _ | .keyword _ | .identifier _ | .endOfInput => isTrue trivial

/-- The token is a lexeme, unless it is the mark for the end, and it is plain. -/
structure Token.Legible (t : Token) : Prop where
  lexeme : t.kind ≠ .endOfInput → Lexeme t.kind t.lexeme.toList
  plain : t.kind.IsPlain

theorem Ident.Keeps.legible {name : Ident} (h : name.Keeps Token.Legible) : name.Legible := by
  obtain ⟨t, legible, kind, written⟩ := h
  have isLexeme := legible.lexeme (kind ▸ nofun)
  rw [kind, written] at isLexeme
  generalize spelled : name.lexeme.toList = text at isLexeme
  obtain ⟨name, lexeme, line⟩ := name
  cases isLexeme with
  | identifier isWord free =>
    have same : String.ofList text = lexeme := by rw [← spelled, String.ofList_toList]
    exact ⟨same, spelled ▸ isWord, fun k => same ▸ free k⟩

theorem Word.Keeps.spells {k : Keyword} {keyword : Word} (h : keyword.Keeps Token.Legible k) :
    keyword.Spells k := by
  obtain ⟨t, legible, kind, written⟩ := h
  exact written.symm.trans (Token.lexeme_of_keyword (legible.lexeme (kind ▸ nofun)) kind)

/-- What is kept of legible tokens can be told from its form. -/
theorem Node.Keeps.legible {n : Node} (h : n.Keeps Token.Legible) : n.Legible := by
  match n with
  | .expr (.literal (.number x)) =>
    obtain ⟨t, legible, kind⟩ := h
    have plain := legible.plain
    rw [kind] at plain
    exact plain
  | .expr (.literal (.string s)) =>
    obtain ⟨t, legible, kind⟩ := h
    have plain := legible.plain
    rw [kind] at plain
    exact plain
  | .expr (.unary op _) | .expr (.binary _ op _) =>
    obtain ⟨t, legible, kind, written⟩ := h
    exact written.symm.trans (Token.lexeme_of_symbol (legible.lexeme (kind ▸ nofun)) kind)
  | .expr (.logical _ op _) =>
    obtain ⟨t, legible, kind, written⟩ := h
    exact written.symm.trans (Token.lexeme_of_keyword (legible.lexeme (kind ▸ nofun)) kind)
  | .expr (.variable_ _) | .expr (.assign _ _) | .expr (.get _ _) | .expr (.set _ _ _)
  | .stmt (.var _ _) => exact Ident.Keeps.legible h
  | .expr (.this _ _) | .stmt (.return_ _ _) => exact Word.Keeps.spells h
  | .expr (.super _ _ _) => exact ⟨h.1.spells, h.2.legible⟩
  | .stmt (.class_ _ _ _) => exact ⟨h.1.legible, fun ref mem => (h.2 ref mem).legible⟩
  | .function _ =>
    exact ⟨fun name same => (h.1 name same).legible, fun name mem => (h.2 name mem).legible⟩
  | .expr (.literal .nil) | .expr (.literal (.boolean _)) | .expr (.group _) | .expr (.call _ _ _)
  | .expr (.function _) | .stmt (.expression _) | .stmt (.print _ _) | .stmt (.block _)
  | .stmt (.branch _ _ _) | .stmt (.loop _ _) | .stmt (.function _) => trivial

theorem legible_parseProgram {source : String} (plain : ∀ t ∈ (scan source).tokens, t.kind.IsPlain) :
    ∀ s ∈ (parseProgram (scan source).tokens).statements, s.Every Node.Legible := by
  have legible : ∀ t ∈ (scan source).tokens, t.Legible := by
    intro t mem
    exact ⟨lexeme_of_mem_scan mem, plain t mem⟩
  exact fun s mem => (keeps_parseProgram legible s mem).mono fun _ keeps => keeps.legible

/-! ## Atoms of programs -/

/-- Where no delimiter is allowed, there is none. -/
theorem Form.isDelimiter_eq_false {p : Char → Bool}
    (none : p ' ' = false ∧ p '\n' = false ∧ p '(' = false ∧ p ')' = false) {c : Char}
    (allowed : p c = true) : isDelimiter c = false := by
  by_contra delimits
  simp only [isDelimiter, decide_eq_true_eq, Bool.not_eq_false] at delimits
  obtain ⟨blank, newline, opening, closing⟩ := none
  rcases delimits with rfl | rfl | rfl | rfl
  · exact absurd (blank.symm.trans allowed) (by decide)
  · exact absurd (newline.symm.trans allowed) (by decide)
  · exact absurd (opening.symm.trans allowed) (by decide)
  · exact absurd (closing.symm.trans allowed) (by decide)

theorem IsNumeric.isAtom {s : String} (h : IsNumeric s) : Form.IsAtom s :=
  ⟨h.nonempty, fun c mem => Form.isDelimiter_eq_false (by decide) (h.parts c mem)⟩

namespace Ident.Legible

variable {name : Ident} (h : name.Legible)

include h

theorem isAtom : Form.IsAtom name.lexeme := by
  have parts : ∀ c ∈ name.lexeme.toList, Segment.isNamePart c = true := by
    have isWord := h.isWord
    generalize name.lexeme.toList = text at isWord
    cases isWord with
    | word start parts =>
      refine List.forall_mem_cons.mpr ⟨?_, parts⟩
      rw [Segment.isNamePart, start, Bool.true_or]
  exact ⟨h.isWord.ne_nil, fun c mem => Form.isDelimiter_eq_false (by decide) (parts c mem)⟩

theorem ofText_lexeme : Ident.ofText name.lexeme = name.relabel .bare := by
  obtain ⟨name, lexeme, line⟩ := name
  cases h.same
  rfl

theorem ofAtom_lexeme :
    Expr.ofAtom name.lexeme = .variable_ ⟨name.relabel .bare, none⟩ := by
  have unknown : Keyword.ofText? name.lexeme = none := by
    simpa [Keyword.ofText?, List.find?_eq_none] using fun k _ => h.free k
  have start : name.lexeme.toList.head?.any Segment.isNameStart = true := by
    have isWord := h.isWord
    generalize name.lexeme.toList = text at isWord
    cases isWord with
    | word start => simpa using start
  rw [Expr.ofAtom, unknown]
  simp only [start, if_true, h.ofText_lexeme]

end Ident.Legible

theorem Word.Spells.ofKeyword {k : Keyword} {keyword : Word} (h : keyword.Spells k) :
    Word.ofKeyword k = keyword.relabel .bare := by
  obtain ⟨lexeme, line⟩ := keyword
  cases h
  rfl

theorem Ident.map_ofText {names : List Ident} (h : ∀ name ∈ names, name.Legible) :
    (names.map Ident.lexeme).map Ident.ofText = names.map (·.relabel .bare) := by
  rw [List.map_map]
  exact List.map_congr_left fun name mem => (h name mem).ofText_lexeme

/-- What is called a function is legible. -/
def FunctionName.Legible (name : FunctionName) : Prop := ∀ n, name = .named n → n.Legible

theorem FunctionName.Legible.ofText_lexeme {name : FunctionName} (h : name.Legible) :
    FunctionName.ofText name.lexeme = name.relabel .bare := by
  cases name with
  | anonymous line => rfl
  | named name =>
    have legible := h name rfl
    have nonempty : name.lexeme ≠ "" := fun empty => legible.isAtom.nonempty (by rw [empty]; rfl)
    rw [FunctionName.lexeme, FunctionName.ofText, if_neg nonempty, legible.ofText_lexeme]
    rfl

theorem FunctionName.Legible.solid {name : FunctionName} (h : name.Legible) :
    ∀ c ∈ name.lexeme.toList, Form.isDelimiter c = false := by
  cases name with
  | anonymous line => exact nofun
  | named name => exact (h name rfl).isAtom.solid

theorem not_isNameStart_of_isPart {c : Char} (part : Number.isPart c = true) :
    Segment.isNameStart c = false := by
  rw [Bool.eq_false_iff]
  intro start
  rw [Number.isPart, not_isDigit_of_isNameStart start] at part
  simp only [Bool.false_or, Bool.or_eq_true, beq_iff_eq] at part
  rcases part with rfl | rfl <;> exact absurd start (by decide)

/-- No word begins as a number does. -/
theorem IsNumeric.ofAtom {s : String} (h : IsNumeric s) : Expr.ofAtom s = .literal (.string s) := by
  -- The first character tells: keywords are words, and begin as names do.
  obtain ⟨c, cs, written⟩ := List.exists_cons_of_ne_nil h.nonempty
  have noStart : Segment.isNameStart c = false :=
    not_isNameStart_of_isPart (h.parts c (by rw [written]; exact List.mem_cons_self))
  have unknown : Keyword.ofText? s = none := by
    rw [Option.eq_none_iff_forall_ne_some]
    intro k known
    have isWord := k.isWord
    rw [Keyword.text_of_ofText? known, written] at isWord
    rw [isWord.isNameStart] at noStart
    cases noStart
  have plain : s.toList.head?.any Segment.isNameStart = false := by rw [written]; exact noStart
  rw [Expr.ofAtom, unknown]
  simp only [plain, if_false, Bool.false_eq_true]

/-! ## What is shown is proper -/

theorem UnaryOp.isHead (op : UnaryOp) :
    Form.IsAtom (String.ofList op.symbol.text) ∧ String.ofList op.symbol.text ≠ "fun" := by
  cases op <;> decide

theorem BinaryOp.isHead (op : BinaryOp) :
    Form.IsAtom (String.ofList op.symbol.text) ∧ String.ofList op.symbol.text ≠ "fun" := by
  cases op <;> decide

theorem LogicalOp.isHead (op : LogicalOp) : Form.IsAtom op.keyword.text ∧ op.keyword.text ≠ "fun" := by
  cases op <;> decide

mutual

theorem Expr.proper_form {e : Expr} (h : e.Every Node.Legible) : e.form.Proper := by
  cases e with
  | literal value =>
    cases value with
    | nil => exact .atom (by decide)
    | boolean b => cases b <;> exact .atom (by decide)
    | number x => exact .atom (Number.isNumeric_text h).isAtom
    | string s => exact h.elim
  | group inner => exact .headed (by decide) (by simpa using Expr.proper_form h.2)
  | unary op operand =>
    have spelled : op.lexeme = _ := h.1
    rw [Expr.form, spelled]
    exact .headed op.op.isHead (by simpa using Expr.proper_form h.2)
  | binary left op right =>
    have spelled : op.lexeme = _ := h.1
    rw [Expr.form, spelled]
    exact .headed op.op.isHead (by simpa using ⟨Expr.proper_form h.2.1, Expr.proper_form h.2.2⟩)
  | logical left op right =>
    have spelled : op.lexeme = _ := h.1
    rw [Expr.form, spelled]
    exact .headed op.op.isHead (by simpa using ⟨Expr.proper_form h.2.1, Expr.proper_form h.2.2⟩)
  | variable_ ref => exact .atom (Ident.Legible.isAtom h)
  | assign target value =>
    have name : (Form.atom target.name.lexeme).Proper := .atom (Ident.Legible.isAtom h.1)
    exact .headed (by decide) (by simpa using ⟨name, Expr.proper_form h.2⟩)
  | call callee arguments line =>
    exact .headed (by decide)
      (List.forall_mem_cons.mpr ⟨Expr.proper_form h.2.1, Expr.proper_forms h.2.2⟩)
  | get object name =>
    have isName : (Form.atom name.lexeme).Proper := .atom (Ident.Legible.isAtom h.1)
    exact .headed (by decide) (by simpa using ⟨Expr.proper_form h.2, isName⟩)
  | set object name value =>
    have isName : (Form.atom name.lexeme).Proper := .atom (Ident.Legible.isAtom h.1)
    exact .headed (by decide) (by simpa using ⟨Expr.proper_form h.2.1, isName, Expr.proper_form h.2.2⟩)
  | this keyword depth => exact .atom (by decide)
  | super keyword method depth =>
    have name : (Form.atom method.lexeme).Proper := .atom (Ident.Legible.isAtom h.2)
    exact .headed (by decide) (by simpa using name)
  | function decl => exact Function.proper_form h.2

theorem Expr.proper_forms {es : List Expr} (h : Expr.EveryAll Node.Legible es) :
    ∀ f ∈ Expr.forms es, f.Proper := by
  cases es with
  | nil => exact nofun
  | cons e rest => exact List.forall_mem_cons.mpr ⟨Expr.proper_form h.1, Expr.proper_forms h.2⟩

theorem Stmt.proper_form {s : Stmt} (h : s.Every Node.Legible) : s.form.Proper := by
  cases s with
  | expression value => exact .headed (by decide) (by simpa using Expr.proper_form h.2)
  | print line value => exact .headed (by decide) (by simpa using Expr.proper_form h.2)
  | var name initial =>
    have isName : (Form.atom name.lexeme).Proper := .atom (Ident.Legible.isAtom h.self)
    cases initial with
    | none => exact .headed (by decide) (by simpa using isName)
    | some e => exact .headed (by decide) (by simpa using ⟨isName, Expr.proper_form h.2⟩)
  | block body => exact .headed (by decide) (Stmt.proper_forms h.2)
  | branch condition yes no =>
    cases no with
    | none => exact .headed (by decide) (by simpa using ⟨Expr.proper_form h.2.1, Stmt.proper_form h.2.2⟩)
    | some no =>
      exact .headed (by decide) (by
        simpa using ⟨Expr.proper_form h.2.1, Stmt.proper_form h.2.2.1, Stmt.proper_form h.2.2.2⟩)
  | loop condition body =>
    exact .headed (by decide) (by simpa using ⟨Expr.proper_form h.2.1, Stmt.proper_form h.2.2⟩)
  | function decl => exact Function.proper_form h.2
  | return_ keyword value =>
    cases value with
    | none => exact .headed (by decide) nofun
    | some e => exact .headed (by decide) (by simpa using Expr.proper_form h.2)
  | class_ name superclass methods =>
    have isName : (Form.atom name.lexeme).Proper := .atom (Ident.Legible.isAtom h.1.1)
    have areMethods := Function.proper_forms h.2
    cases superclass with
    | none => exact .headed (by decide) (List.forall_mem_cons.mpr ⟨isName, areMethods⟩)
    | some ref =>
      have less : (Form.atom "<").Proper := .atom (by decide)
      have parent : (Form.atom ref.name.lexeme).Proper := .atom (h.1.2 ref rfl).isAtom
      refine .headed (by decide) (List.forall_mem_cons.mpr ⟨isName, ?_⟩)
      exact List.forall_mem_cons.mpr ⟨less, List.forall_mem_cons.mpr ⟨parent, areMethods⟩⟩

theorem Stmt.proper_forms {ss : List Stmt} (h : Stmt.EveryAll Node.Legible ss) :
    ∀ f ∈ Stmt.forms ss, f.Proper := by
  cases ss with
  | nil => exact nofun
  | cons s rest => exact List.forall_mem_cons.mpr ⟨Stmt.proper_form h.1, Stmt.proper_forms h.2⟩

theorem Function.proper_form {f : Function} (h : f.Every Node.Legible) : f.form.Proper := by
  cases f with
  | mk name parameters body =>
    have named : name.Legible := h.1.1
    exact .function named.solid
      (List.forall_mem_map.mpr fun name mem => (h.1.2 name mem).isAtom) (Stmt.proper_forms h.2)

theorem Function.proper_forms {fs : List Function} (h : Function.EveryAll Node.Legible fs) :
    ∀ f ∈ Function.forms fs, f.Proper := by
  cases fs with
  | nil => exact nofun
  | cons f rest => exact List.forall_mem_cons.mpr ⟨Function.proper_form h.1, Function.proper_forms h.2⟩

end

/-! ## What is shown can be read back -/

namespace Form

theorem expr_unary (op : UnaryOp) (operand : Form) :
    (list [.atom (String.ofList op.symbol.text), operand]).expr =
      .unary ⟨op, String.ofList op.symbol.text, 0⟩ operand.expr := by
  cases op <;> simp [expr, UnaryOp.symbol, Symbol.text]

theorem expr_binary (op : BinaryOp) (left right : Form) :
    (list [.atom (String.ofList op.symbol.text), left, right]).expr =
      .binary left.expr ⟨op, String.ofList op.symbol.text, 0⟩ right.expr := by
  cases op <;> simp [expr, BinaryOp.symbol, Symbol.text, Expr.ofOperation, BinaryOp.ofText]

theorem expr_logical (op : LogicalOp) (left right : Form) :
    (list [.atom op.keyword.text, left, right]).expr =
      .logical left.expr ⟨op, op.keyword.text, 0⟩ right.expr := by
  cases op <;> simp [expr, LogicalOp.keyword, Keyword.text, Expr.ofOperation]

theorem expr_function (f : Function) : f.form.expr = .function f.form.function := by
  cases f
  rw [Function.form, expr, function]

theorem stmt_function (f : Function) : f.form.stmt = .function f.form.function := by
  cases f
  rw [Function.form, stmt, function]

/-- A class without a superclass: the form of a method is a list, and never `<`. -/
theorem stmt_class (name : String) (methods : List Function) :
    (list (.atom "class" :: .atom name :: Function.forms methods)).stmt =
      .class_ (.ofText name) none (functions (Function.forms methods)) := by
  cases methods with
  | nil =>
    rw [Function.forms, stmt]
    exact nofun
  | cons f rest =>
    cases f
    rw [Function.forms, Function.form, stmt]
    exact nofun

end Form

mutual

/-- The form of an expression shows it. -/
theorem Expr.expr_form {e : Expr} (h : e.Every Node.Legible) :
    e.form.expr = (e.relabel .bare).printed := by
  cases e with
  | literal value =>
    cases value with
    | nil => rfl
    | boolean b => cases b <;> rfl
    | number x =>
      have finite : Number.IsFinite x := h
      rw [Expr.form, Form.expr, Literal.text, (Number.isNumeric_text finite).ofAtom]
      rfl
    | string s => exact h.elim
  | group inner =>
    rw [Expr.form, Form.expr, Expr.expr_form h.2]
    rfl
  | unary op operand =>
    have spelled : op.lexeme = _ := h.1
    rw [Expr.form, spelled, Form.expr_unary, Expr.expr_form h.2, ← spelled]
    rfl
  | binary left op right =>
    have spelled : op.lexeme = _ := h.1
    rw [Expr.form, spelled, Form.expr_binary, Expr.expr_form h.2.1, Expr.expr_form h.2.2, ← spelled]
    rfl
  | logical left op right =>
    have spelled : op.lexeme = _ := h.1
    rw [Expr.form, spelled, Form.expr_logical, Expr.expr_form h.2.1, Expr.expr_form h.2.2, ← spelled]
    rfl
  | variable_ ref =>
    rw [Expr.form, Form.expr, Ident.Legible.ofAtom_lexeme h]
    rfl
  | assign target value =>
    rw [Expr.form, Form.expr, Ident.Legible.ofText_lexeme h.1, Expr.expr_form h.2]
    rfl
  | call callee arguments line =>
    rw [Expr.form, Form.expr, Expr.expr_form h.2.1, Expr.exprs_forms h.2.2]
    rfl
  | get object name =>
    rw [Expr.form, Form.expr, Ident.Legible.ofText_lexeme h.1, Expr.expr_form h.2]
    rfl
  | set object name value =>
    rw [Expr.form, Form.expr, Ident.Legible.ofText_lexeme h.1, Expr.expr_form h.2.1,
      Expr.expr_form h.2.2]
    rfl
  | this keyword depth =>
    change Expr.this (.ofKeyword .this_) none = Expr.this (keyword.relabel .bare) none
    rw [Word.Spells.ofKeyword h]
  | super keyword method depth =>
    rw [Expr.form, Form.expr, Ident.Legible.ofText_lexeme h.2, Word.Spells.ofKeyword h.1]
    rfl
  | function decl =>
    rw [Expr.form, Form.expr_function, Function.function_form h.2]
    rfl

theorem Expr.exprs_forms {es : List Expr} (h : Expr.EveryAll Node.Legible es) :
    Form.exprs (Expr.forms es) = Expr.printedAll (Expr.relabelAll .bare es) := by
  cases es with
  | nil => rfl
  | cons e rest =>
    rw [Expr.forms, Form.exprs, Expr.expr_form h.1, Expr.exprs_forms h.2]
    rfl

/-- The form of a statement shows it. -/
theorem Stmt.stmt_form {s : Stmt} (h : s.Every Node.Legible) :
    s.form.stmt = (s.relabel .bare).printed := by
  cases s with
  | expression value =>
    rw [Stmt.form, Form.stmt, Expr.expr_form h.2]
    rfl
  | print line value =>
    rw [Stmt.form, Form.stmt, Expr.expr_form h.2]
    rfl
  | var name initial =>
    have shown := Ident.Legible.ofText_lexeme h.self
    cases initial with
    | none =>
      rw [Stmt.form, Form.stmt, shown]
      rfl
    | some e =>
      rw [Stmt.form, Form.stmt, shown, Expr.expr_form h.2]
      rfl
  | block body =>
    rw [Stmt.form, Form.stmt, Stmt.stmts_forms h.2]
    rfl
  | branch condition yes no =>
    cases no with
    | none =>
      rw [Stmt.form, Form.stmt, Expr.expr_form h.2.1, Stmt.stmt_form h.2.2]
      rfl
    | some no =>
      rw [Stmt.form, Form.stmt, Expr.expr_form h.2.1, Stmt.stmt_form h.2.2.1, Stmt.stmt_form h.2.2.2]
      rfl
  | loop condition body =>
    rw [Stmt.form, Form.stmt, Expr.expr_form h.2.1, Stmt.stmt_form h.2.2]
    rfl
  | function decl =>
    rw [Stmt.form, Form.stmt_function, Function.function_form h.2]
    rfl
  | return_ keyword value =>
    cases value with
    | none =>
      rw [Stmt.form, Form.stmt, Word.Spells.ofKeyword h]
      rfl
    | some e =>
      rw [Stmt.form, Form.stmt, Expr.expr_form h.2, Word.Spells.ofKeyword h.1]
      rfl
  | class_ name superclass methods =>
    cases superclass with
    | none =>
      rw [Stmt.form, List.cons_append, List.cons_append, List.nil_append, Form.stmt_class,
        Ident.Legible.ofText_lexeme h.1.1, Function.functions_forms h.2]
      rfl
    | some ref =>
      rw [Stmt.form, List.cons_append, List.cons_append, List.cons_append, List.cons_append,
        List.nil_append, Form.stmt, Ident.Legible.ofText_lexeme h.1.1,
        (h.1.2 ref rfl).ofText_lexeme, Function.functions_forms h.2]
      rfl

theorem Stmt.stmts_forms {ss : List Stmt} (h : Stmt.EveryAll Node.Legible ss) :
    Form.stmts (Stmt.forms ss) = Stmt.printedAll (Stmt.relabelAll .bare ss) := by
  cases ss with
  | nil => rfl
  | cons s rest =>
    rw [Stmt.forms, Form.stmts, Stmt.stmt_form h.1, Stmt.stmts_forms h.2]
    rfl

/-- The form of a function shows it, as an expression, as a statement and as a method. -/
theorem Function.function_form {f : Function} (h : f.Every Node.Legible) :
    f.form.function = (f.relabel .bare).printed := by
  cases f with
  | mk name parameters body =>
    have named : name.Legible := h.1.1
    rw [Function.form, Form.function, named.ofText_lexeme, Ident.map_ofText h.1.2,
      Stmt.stmts_forms h.2]
    rfl

theorem Function.functions_forms {fs : List Function} (h : Function.EveryAll Node.Legible fs) :
    Form.functions (Function.forms fs) = Function.printedAll (Function.relabelAll .bare fs) := by
  cases fs with
  | nil => rfl
  | cons f rest =>
    rw [Function.forms, Form.functions, Function.function_form h.1, Function.functions_forms h.2]
    rfl

end

theorem Stmt.forms_eq_map (ss : List Stmt) : Stmt.forms ss = ss.map Stmt.form := by
  induction ss with
  | nil => rfl
  | cons s rest ih => rw [Stmt.forms, ih, List.map_cons]

/-! ## The text of a program -/

/-- **Two programs that are printed alike are the same** but for lines, depths, and numbers with the same
text. -/
theorem program_of_programText {source source' : String}
    (plain : ∀ t ∈ (scan source).tokens, t.kind.IsPlain)
    (plain' : ∀ t ∈ (scan source').tokens, t.kind.IsPlain)
    (same : programText (parseProgram (scan source).tokens).statements =
      programText (parseProgram (scan source').tokens).statements) :
    shownPart (parseProgram (scan source).tokens).statements =
      shownPart (parseProgram (scan source').tokens).statements := by
  have legible := (Stmt.everyAll_iff _).mpr (legible_parseProgram plain)
  have legible' := (Stmt.everyAll_iff _).mpr (legible_parseProgram plain')
  generalize (parseProgram (scan source).tokens).statements = program at *
  generalize (parseProgram (scan source').tokens).statements = program' at *
  have text_eq (p : List Stmt) : programText p = "\n".intercalate ((Stmt.forms p).map Form.text) := by
    rw [programText, Stmt.forms_eq_map, List.map_map]
    rfl
  rw [text_eq, text_eq] at same
  have forms : Stmt.forms program = Stmt.forms program' :=
    Form.Proper.lines_injective (Stmt.proper_forms legible) (Stmt.proper_forms legible') same
  calc shownPart program
      = Form.stmts (Stmt.forms program) := (Stmt.stmts_forms legible).symm
    _ = Form.stmts (Stmt.forms program') := by rw [forms]
    _ = shownPart program' := Stmt.stmts_forms legible'

/-- The same number written with a digit more, and on other lines. -/
theorem program_of_programText_moreDigits :
    let source := "var x = 1.5; print x + x;"
    let source' := "var x =\n1.50;\nprint x\n+ x;"
    (∀ t ∈ (scan source).tokens, t.kind.IsPlain) ∧ (∀ t ∈ (scan source').tokens, t.kind.IsPlain) ∧
      programText (parseProgram (scan source).tokens).statements =
        programText (parseProgram (scan source').tokens).statements ∧
      shownPart (parseProgram (scan source).tokens).statements =
        shownPart (parseProgram (scan source').tokens).statements := by
  intro source source'
  have plain : ∀ t ∈ (scan source).tokens, t.kind.IsPlain := by decide +kernel
  have plain' : ∀ t ∈ (scan source').tokens, t.kind.IsPlain := by decide +kernel
  have same : programText (parseProgram (scan source).tokens).statements =
      programText (parseProgram (scan source').tokens).statements := by decide +kernel
  exact ⟨plain, plain', same, program_of_programText plain plain' same⟩

end Lox
