import Mathlib.Data.List.Forall2
import Lox.Proofs.Plan.Lockstep
import Lox.Proofs.Syntax.Relabel
import Lox.Syntax.Program

/-!
# Lines do not matter to the parser

A tree keeps of a token its kind and its line, and the lexeme of a name, of an operator, and of the
keywords that resolution looks at.  So tokens that agree in kinds and in those lexemes (`Token.Alike`) are
parsed into the same trees on the lines that they have, or not at all (`Phrase.alike_parse`).

The two runs of the parser go in step: at each point they ask for the same phrases, of tokens that are
alike.
-/

namespace Lox

variable {m : Relabeling}

/-- Does a tree keep the lexeme of a token of this kind? -/
def Kind.isKept : Kind → Bool
  | .identifier _ | .keyword .this_ | .keyword .super_ | .keyword .return_ => true
  | kind => (Connective.ofKind? kind).isSome || (UnaryOp.ofKind? kind).isSome

theorem Kind.isKept_of_connective {kind : Kind} {c : Connective}
    (known : Connective.ofKind? kind = some c) : kind.isKept = true := by
  unfold isKept
  split
  · rfl
  · rfl
  · rfl
  · rfl
  · rw [known]
    rfl

theorem Kind.isKept_of_unary {kind : Kind} {op : UnaryOp} (known : UnaryOp.ofKind? kind = some op) :
    kind.isKept = true := by
  unfold isKept
  split
  · rfl
  · rfl
  · rfl
  · rfl
  · rw [known]
    exact Bool.or_true _

/-- The tokens are the same to the parser, but for their lines. -/
structure Token.Alike (m : Relabeling) (t t' : Token) : Prop where
  kind : t'.kind = t.kind
  lexeme : t.kind.isKept = true → t'.lexeme = t.lexeme
  /-- The mark at the end of the input may be on any line. -/
  line : t.isEnd = false → t'.line = m.line t.line

theorem Token.Alike.isSymbol {t t' : Token} (h : t.Alike m t') (s : Symbol) :
    t'.isSymbol s = t.isSymbol s := by
  simp only [Token.isSymbol, h.kind]

theorem Token.Alike.isKeyword {t t' : Token} (h : t.Alike m t') (k : Keyword) :
    t'.isKeyword k = t.isKeyword k := by
  simp only [Token.isKeyword, h.kind]

theorem Token.Alike.word {t t' : Token} (h : t.Alike m t') (kept : t.kind.isKept = true)
    (more : t.isEnd = false) : t'.word = t.word.relabel m := by
  rw [Token.word, h.lexeme kept, h.line more]
  rfl

theorem Token.Alike.isEnd {t t' : Token} (h : t.Alike m t') : t'.isEnd = t.isEnd := by
  simp only [Token.isEnd, h.kind]

theorem Token.Alike.isName {t t' : Token} (h : t.Alike m t') : t'.isName = t.isName := by
  simp only [Token.isName, h.kind]

/-- Token by token the same to the parser. -/
abbrev TokensAlike (m : Relabeling) : List Token → List Token → Prop :=
  List.Forall₂ (Token.Alike m)

theorem tokensAlike_map {m : Relabeling} {tokens : List Token} {f : Token → Token}
    (alike : ∀ t ∈ tokens, t.Alike m (f t)) : TokensAlike m tokens (tokens.map f) :=
  List.forall₂_map_right_iff.mpr (List.forall₂_same.mpr alike)

/-- What is parsed for a phrase, with other lines and depths. -/
def PhraseSort.relabel (m : Relabeling) : {sort : PhraseSort} → sort.Tree → sort.Tree
  | expression => Expr.relabel m
  | expressions => Expr.relabelAll m
  | names => List.map (Ident.relabel m)
  | statement => Stmt.relabel m
  | declaration => Option.map (Stmt.relabel m)
  | statements => Stmt.relabelAll m
  | functions => Function.relabelAll m

/-- A phrase that goes on from a tree with other lines and depths. -/
def Phrase.relabel (m : Relabeling) : {sort : PhraseSort} → Phrase sort → Phrase sort
  | _, .operators level left => .operators level (left.relabel m)
  | _, .accesses object => .accesses (object.relabel m)
  | _, p => p

/-- Outcomes with related results.  As for errors, there are as many in the one as in the other. -/
structure Outcome.Alike {α β : Type} (m : Relabeling) (R : α → β → Prop) (o : Outcome α)
    (o' : Outcome β) : Prop where
  result : (∃ a b, o.result = .ok a ∧ o'.result = .ok b ∧ R a b) ∨
    ∃ e e', o.result = .error e ∧ o'.result = .error e'
  noted : o'.noted.length = o.noted.length
  rest : TokensAlike m o.rest o'.rest

namespace Grammar

/-- Both runs ask for the same phrase, of tokens that are alike. -/
def AskedAlike (m : Relabeling) (sort : PhraseSort) (q q' : Question sort) : Prop :=
  q'.phrase = q.phrase.relabel m ∧ TokensAlike m q.tokens q'.tokens

/-- Both runs get the same tree, but for lines and depths. -/
def AnsweredAlike (m : Relabeling) (sort : PhraseSort) (_ _ : Question sort)
    (o o' : Answer sort) : Prop :=
  o.Alike m (fun tree tree' => tree' = PhraseSort.relabel m tree) o'

end Grammar

namespace Parser

open Grammar

variable {α β α' β' : Type} {tokens tokens' : List Token}

theorem front_alike (h : TokensAlike m tokens tokens') : (front tokens).Alike m (front tokens') := by
  cases h with
  | nil => exact ⟨rfl, fun _ => rfl, fun more => by cases more⟩
  | cons first _ => exact first

/-- Run on tokens that are alike, the parsers go in step to related results. -/
def Alike (m : Relabeling) (parser : Parser α) (parser' : Parser β) (R : α → β → Prop) : Prop :=
  ∀ tokens tokens', TokensAlike m tokens tokens' →
    Plan.InStep (AskedAlike m) (AnsweredAlike m) (Outcome.Alike m R) (parser tokens) (parser' tokens')

namespace Alike

variable {parser : Parser α} {parser' : Parser β} {R : α → β → Prop} {R' : α' → β' → Prop}

theorem done {a : α} {b : β} {rest rest' : List Token} (related : R a b)
    (left : TokensAlike m rest rest') :
    Plan.InStep (AskedAlike m) (AnsweredAlike m) (Outcome.Alike m R) (.done ⟨.ok a, [], rest⟩)
      (.done ⟨.ok b, [], rest'⟩) :=
  .done ⟨.inl ⟨a, b, rfl, rfl, related⟩, rfl, left⟩

theorem pure {a : α} {b : β} (related : R a b) :
    Alike m (Pure.pure a : Parser α) (Pure.pure b) R :=
  fun _ _ left => done related left

theorem fail (cause : ParseError.Cause) : Alike m (Parser.fail cause) (Parser.fail cause) R :=
  fun _ _ left => .done ⟨.inr ⟨_, _, rfl, rfl⟩, rfl, left⟩

theorem note (t t' : Token) (cause : ParseError.Cause) :
    Alike m (Parser.note t cause) (Parser.note t' cause) fun _ _ => True :=
  fun _ _ left => .done ⟨.inl ⟨_, _, rfl, rfl, trivial⟩, rfl, left⟩

theorem bind {next : α → Parser α'} {next' : β → Parser β'} (h : Alike m parser parser' R)
    (rest : ∀ a b, R a b → Alike m (next a) (next' b) R') :
    Alike m (parser >>= next) (parser' >>= next') R' := by
  intro tokens tokens' left
  refine (h tokens tokens' left).bind fun o o' alike => ?_
  obtain ⟨result, noted, left⟩ := o
  obtain ⟨result', noted', left'⟩ := o'
  obtain ⟨(⟨a, b, ok, ok', related⟩ | ⟨e, e', error, error'⟩), length, left⟩ := alike
  · subst ok ok'
    refine (rest a b related _ _ left).bind fun second second' alike' => .done ⟨alike'.result, ?_,
      alike'.rest⟩
    rw [List.length_append, List.length_append, length, alike'.noted]
  · subst error error'
    exact .done ⟨.inr ⟨e, e', rfl, rfl⟩, length, left⟩

theorem map {f : α → α'} {g : β → β'} (h : Alike m parser parser' R)
    (related : ∀ a b, R a b → R' (f a) (g b)) : Alike m (f <$> parser) (g <$> parser') R' :=
  bind h fun a b r => pure (related a b r)

/-! ### Tokens -/

theorem look : Alike m Parser.look Parser.look (Token.Alike m) :=
  fun _ _ left => done (front_alike left) left

theorem skip : Alike m Parser.skip Parser.skip fun _ _ => True :=
  fun _ _ left => done trivial (List.forall₂_drop 1 left)

theorem sees (s : Symbol) : Alike m (Parser.sees s) (Parser.sees s) Eq :=
  fun _ _ left => done ((front_alike left).isSymbol s).symm left

theorem seesNameSecond : Alike m Parser.seesNameSecond Parser.seesNameSecond Eq :=
  fun _ _ left => done (front_alike (List.forall₂_drop 1 left)).isName.symm left

theorem atEnd : Alike m Parser.atEnd Parser.atEnd Eq :=
  fun _ _ left => done (front_alike left).isEnd.symm left

theorem accept (s : Symbol) : Alike m (Parser.accept s) (Parser.accept s) Eq := by
  intro tokens tokens' left
  have same := (front_alike left).isSymbol s
  unfold Parser.accept
  rw [same]
  split
  · exact done rfl (List.forall₂_drop 1 left)
  · exact done rfl left

theorem acceptWord (k : Keyword) : Alike m (Parser.acceptWord k) (Parser.acceptWord k) Eq := by
  intro tokens tokens' left
  have same := (front_alike left).isKeyword k
  unfold Parser.acceptWord
  rw [same]
  split
  · exact done rfl (List.forall₂_drop 1 left)
  · exact done rfl left

theorem expect (s : Symbol) (spot : ParseError.Spot) :
    Alike m (Parser.expect s spot) (Parser.expect s spot)
      fun t t' => t'.line = m.line t.line := by
  intro tokens tokens' left
  have alike := front_alike left
  unfold Parser.expect
  rw [alike.isSymbol s]
  split
  · rename_i seen
    have more : (front tokens).isEnd = false := by
      rw [Token.isEnd, Token.kind_of_isSymbol seen]
    exact done (alike.line more) (List.forall₂_drop 1 left)
  · exact fail _ _ _ left

theorem expectName (role : ParseError.NameRole) :
    Alike m (Parser.expectName role) (Parser.expectName role)
      fun name name' => name' = name.relabel m := by
  intro tokens tokens' left
  have alike := front_alike left
  unfold Parser.expectName
  simp only [alike.kind]
  split
  · rename_i name kind
    have more : (front tokens).isEnd = false := by rw [Token.isEnd, kind]
    have kept : (front tokens).kind.isKept = true := by rw [kind, Kind.isKept]
    refine done ?_ (List.forall₂_drop 1 left)
    rw [Ident.relabel, alike.line more, alike.lexeme kept]
  · exact fail _ _ _ left

/-! ### Phrases and what may be missing -/

theorem phrase {sort : PhraseSort} (p : Phrase sort) :
    Alike m (Parser.phrase p) (Parser.phrase (p.relabel m))
      fun tree tree' => tree' = PhraseSort.relabel m tree :=
  fun _ _ left => .ask ⟨rfl, left⟩ fun _ _ alike => .done alike

theorem ite {p : Prop} [Decidable p] {yes no : Parser α} {yes' no' : Parser β} (h : Alike m yes yes' R)
    (h' : Alike m no no' R) :
    Alike m (if p then yes else no) (if p then yes' else no') R := by
  split
  · exact h
  · exact h'

/-- What may be missing is missing in both or in neither. -/
theorem optional {present : Parser Bool} (first : Alike m present present Eq)
    {f : α → β} (h : Alike m parser parser' fun a b => b = f a) :
    Alike m (Parser.optional present parser) (Parser.optional present parser')
      fun a b => b = a.map f := by
  refine first.bind fun found _ same => ?_
  subst same
  exact ite (h.map fun a b same => by rw [same]; rfl) (pure rfl)

theorem unlessAt (s : Symbol) {f : α → β} (h : Alike m parser parser' fun a b => b = f a) :
    Alike m (Parser.unlessAt s parser) (Parser.unlessAt s parser') fun a b => b = a.map f := by
  refine (sees s).bind fun found _ same => ?_
  subst same
  exact ite (pure rfl) (h.map fun a b same => by rw [same]; rfl)

theorem limitTo (count : Nat) (cause : ParseError.Cause) :
    Alike m (Parser.limitTo count cause) (Parser.limitTo count cause) fun _ _ => True := by
  refine look.bind fun t t' _ => ?_
  split
  · exact note t t' cause
  · exact pure trivial

/-! ### Functions -/

theorem parameters :
    Alike m Parser.parameters Parser.parameters fun a b => b = a.map (Ident.relabel m) := by
  refine (unlessAt _ (phrase (.parameters 0))).bind fun names _ same => ?_
  subst same
  refine (expect _ _).bind fun _ _ _ => pure ?_
  cases names <;> rfl

theorem block : Alike m Parser.block Parser.block fun a b => b = Stmt.relabelAll m a := by
  refine (phrase (.declarations true)).bind fun body _ same => ?_
  subst same
  exact (expect _ _).bind fun _ _ _ => pure rfl

theorem functionFrom (sort : FunctionSort) (name : FunctionName) :
    Alike m (Parser.functionFrom sort name) (Parser.functionFrom sort (name.relabel m))
      fun a b => b = a.relabel m := by
  refine parameters.bind fun names _ same => ?_
  subst same
  refine (expect _ _).bind fun _ _ _ => block.bind fun body _ same => ?_
  subst same
  exact pure rfl

theorem namedFunction (sort : FunctionSort) :
    Alike m (Parser.namedFunction sort) (Parser.namedFunction sort) fun a b => b = a.relabel m := by
  refine (expectName _).bind fun name _ same => ?_
  subst same
  exact (expect _ _).bind fun _ _ _ => functionFrom sort (.named name)

/-! ### Statements and declarations -/

theorem varDeclaration :
    Alike m Parser.varDeclaration Parser.varDeclaration fun a b => b = a.relabel m := by
  refine (expectName _).bind fun name _ same => ?_
  subst same
  refine (optional (accept _) (phrase .expression)).bind fun initial _ same => ?_
  subst same
  refine (expect _ _).bind fun _ _ _ => pure ?_
  cases initial <;> rfl

theorem expressionStatement :
    Alike m Parser.expressionStatement Parser.expressionStatement fun a b => b = a.relabel m := by
  refine (phrase .expression).bind fun value _ same => ?_
  subst same
  exact (expect _ _).bind fun _ _ _ => pure rfl

theorem ifStatement :
    Alike m Parser.ifStatement Parser.ifStatement fun a b => b = a.relabel m := by
  refine (expect _ _).bind fun _ _ _ => (phrase .expression).bind fun condition _ same => ?_
  subst same
  refine (expect _ _).bind fun _ _ _ => (phrase .statement).bind fun yes _ same => ?_
  subst same
  refine (optional (acceptWord _) (phrase .statement)).bind fun no _ same => pure ?_
  subst same
  cases no <;> rfl

theorem whileStatement :
    Alike m Parser.whileStatement Parser.whileStatement fun a b => b = a.relabel m := by
  refine (expect _ _).bind fun _ _ _ => (phrase .expression).bind fun condition _ same => ?_
  subst same
  refine (expect _ _).bind fun _ _ _ => (phrase .statement).bind fun body _ same => ?_
  subst same
  exact pure rfl

theorem forInitializer :
    Alike m Parser.forInitializer Parser.forInitializer fun a b => b = a.map (Stmt.relabel m) := by
  refine (accept _).bind fun found _ same => ?_
  subst same
  refine ite (pure rfl) ((acceptWord _).bind fun found _ same => ?_)
  subst same
  exact ite (varDeclaration.map fun _ _ same => by rw [same]; rfl)
    (expressionStatement.map fun _ _ same => by rw [same]; rfl)

theorem forLoop_relabel (initial : Option Stmt) (condition increment : Option Expr) (body : Stmt) :
    (forLoop initial condition increment body).relabel m =
      forLoop (initial.map (Stmt.relabel m)) (condition.map (Expr.relabel m))
        (increment.map (Expr.relabel m)) (body.relabel m) := by
  cases initial <;> cases condition <;> cases increment <;> rfl

theorem forStatement :
    Alike m Parser.forStatement Parser.forStatement fun a b => b = a.relabel m := by
  refine (expect _ _).bind fun _ _ _ => forInitializer.bind fun initial _ same => ?_
  subst same
  refine (unlessAt _ (phrase .expression)).bind fun condition _ same => ?_
  subst same
  refine (expect _ _).bind fun _ _ _ => ?_
  refine (unlessAt _ (phrase .expression)).bind fun increment _ same => ?_
  subst same
  refine (expect _ _).bind fun _ _ _ => (phrase .statement).bind fun body _ same => ?_
  subst same
  exact pure (forLoop_relabel ..).symm

theorem returnStatement (keyword : Word) :
    Alike m (Parser.returnStatement keyword) (Parser.returnStatement (keyword.relabel m))
      fun a b => b = a.relabel m := by
  refine (unlessAt _ (phrase .expression)).bind fun value _ same => ?_
  subst same
  refine (expect _ _).bind fun _ _ _ => pure ?_
  cases value <;> rfl

theorem printStatement (line : Nat) :
    Alike m (Parser.printStatement line) (Parser.printStatement (m.line line))
      fun a b => b = a.relabel m := by
  refine (phrase .expression).bind fun value _ same => ?_
  subst same
  exact (expect _ _).bind fun _ _ _ => pure rfl

theorem statement : Alike m Parser.statement Parser.statement fun a b => b = a.relabel m := by
  refine look.bind fun t t' alike => ?_
  have line {kind : Kind} (same : t.kind = kind) (ne : kind ≠ .endOfInput) :
      t'.line = m.line t.line := alike.line (isEnd_of_kind same ne)
  rw [alike.kind]
  split
  · exact skip.bind fun _ _ _ => ifStatement
  · rename_i kind
    rw [line kind (by simp)]
    exact skip.bind fun _ _ _ => printStatement _
  · rename_i kind
    rw [alike.word (by rw [kind, Kind.isKept]) (isEnd_of_kind kind (by simp))]
    exact skip.bind fun _ _ _ => returnStatement _
  · refine skip.bind fun _ _ _ => block.bind fun body _ same => ?_
    subst same
    exact pure rfl
  · exact skip.bind fun _ _ _ => whileStatement
  · exact skip.bind fun _ _ _ => forStatement
  · exact expressionStatement

theorem callOf (callee : Expr) :
    Alike m (Parser.callOf callee) (Parser.callOf (callee.relabel m)) fun a b => b = a.relabel m := by
  refine (unlessAt _ (phrase (.arguments 0))).bind fun arguments _ same => ?_
  subst same
  refine (expect _ _).bind fun paren _ line => pure ?_
  rw [line]
  cases arguments <;> rfl

theorem combine_relabel {t t' : Token} (alike : t.Alike m t') {c : Connective}
    (known : Connective.ofKind? t.kind = some c) (left right : Expr) :
    c.combine t' (left.relabel m) (right.relabel m) = (c.combine t left right).relabel m := by
  have more : t.isEnd = false := Within.isEnd_of_connective known
  have kept : t.kind.isKept = true := Kind.isKept_of_connective known
  cases c <;> simp [Connective.combine, Operator.relabel, alike.line more, alike.lexeme kept]

theorem afterMistake_alike {tokens tokens' : List Token} (h : TokensAlike m tokens tokens') :
    TokensAlike m (afterMistake tokens) (afterMistake tokens') := by
  induction h with
  | nil => exact .nil
  | @cons t t' rest rest' first left ih =>
    have next := front_alike left
    simp only [afterMistake, first.isEnd, first.isSymbol, next.isEnd, next.kind]
    split
    · exact .cons first left
    · split
      · exact left
      · exact ih

section Plain

/- The parser finds no depths. -/
variable (plain : m.depth none = none)

include plain

theorem classDeclaration :
    Alike m Parser.classDeclaration Parser.classDeclaration fun a b => b = a.relabel m := by
  refine (expectName _).bind fun name _ same => ?_
  subst same
  refine (optional (accept _) (expectName _)).bind fun superclass _ same => ?_
  subst same
  refine (expect _ _).bind fun _ _ _ => (phrase .methods).bind fun methods _ same => ?_
  subst same
  refine (expect _ _).bind fun _ _ _ => pure ?_
  cases superclass with
  | none => rfl
  | some name => simp [Reference.relabel, plain, PhraseSort.relabel]

theorem declare : Alike m Parser.declare Parser.declare fun a b => b = a.relabel m := by
  refine look.bind fun t t' alike => ?_
  rw [alike.kind]
  split
  · exact skip.bind fun _ _ _ => classDeclaration plain
  · refine seesNameSecond.bind fun named _ same => ?_
    subst same
    refine ite (skip.bind fun _ _ _ => (namedFunction _).map fun _ _ same => by rw [same]; rfl)
      (phrase .statement)
  · exact skip.bind fun _ _ _ => varDeclaration
  · exact phrase .statement

/-! ### Expressions -/

theorem assignTo (left : Expr) (t t' : Token) (value : Expr) :
    Alike m (Parser.assignTo left t value) (Parser.assignTo (left.relabel m) t' (value.relabel m))
      fun a b => b = a.relabel m := by
  cases left with
  | variable_ ref => exact pure (by simp [Reference.relabel, plain])
  | get object name => exact pure rfl
  | _ => exact (note t t' _).bind fun _ _ _ => pure rfl

theorem primary : Alike m Parser.primary Parser.primary fun a b => b = a.relabel m := by
  refine look.bind fun t t' alike => ?_
  have line {kind : Kind} (same : t.kind = kind) (ne : kind ≠ .endOfInput) :
      t'.line = m.line t.line := alike.line (isEnd_of_kind same ne)
  rw [alike.kind]
  split
  · exact skip.bind fun _ _ _ => pure rfl
  · exact skip.bind fun _ _ _ => pure rfl
  · exact skip.bind fun _ _ _ => pure rfl
  · exact skip.bind fun _ _ _ => pure rfl
  · exact skip.bind fun _ _ _ => pure rfl
  · rename_i name kind
    rw [line kind (by simp), alike.lexeme (by rw [kind, Kind.isKept])]
    exact skip.bind fun _ _ _ => pure (by simp [Reference.relabel, Ident.relabel, plain])
  · rename_i kind
    rw [alike.word (by rw [kind, Kind.isKept]) (isEnd_of_kind kind (by simp))]
    exact skip.bind fun _ _ _ => pure (by simp [plain])
  · rename_i kind
    rw [alike.word (by rw [kind, Kind.isKept]) (isEnd_of_kind kind (by simp))]
    refine skip.bind fun _ _ _ => (expect _ _).bind fun _ _ _ => ?_
    refine (expectName _).bind fun name _ same => pure ?_
    subst same
    simp [plain]
  · rename_i kind
    rw [line kind (by simp)]
    refine skip.bind fun _ _ _ => (expect _ _).bind fun _ _ _ => ?_
    exact (functionFrom _ (.anonymous t.line)).map fun _ _ same => by rw [same]; rfl
  · refine skip.bind fun _ _ _ => (phrase .expression).bind fun inner _ same => ?_
    subst same
    exact (expect _ _).bind fun _ _ _ => pure rfl
  · exact fail _

/-- Each phrase is parsed in step. -/
theorem rule {sort : PhraseSort} (p : Phrase sort) :
    Alike m p.parser (p.relabel m).parser fun a b => b = PhraseSort.relabel m a := by
  cases p with
  | expression =>
    refine (phrase (.operation Level.or)).bind fun left _ same => look.bind fun t t' _ => ?_
    subst same
    refine (accept _).bind fun found _ same => ?_
    subst same
    refine ite ((phrase .expression).bind fun value _ same => ?_) (pure rfl)
    subst same
    exact assignTo plain left t t' value
  | operation level =>
    refine (phrase .unary).bind fun left _ same => ?_
    subst same
    exact phrase (.operators level left)
  | operators level left =>
    refine look.bind fun t t' alike => ?_
    rw [alike.kind]
    cases known : Connective.ofKind? t.kind with
    | none => exact pure rfl
    | some c =>
      refine ite (skip.bind fun _ _ _ => ?_) (pure rfl)
      refine (phrase (.operation (c.level + 1))).bind fun right _ same => ?_
      subst same
      rw [PhraseSort.relabel, combine_relabel alike known]
      exact phrase (.operators level (c.combine t left right))
  | unary =>
    refine look.bind fun t t' alike => ?_
    rw [alike.kind]
    cases known : UnaryOp.ofKind? t.kind with
    | none =>
      refine (phrase .primary).bind fun object _ same => ?_
      subst same
      exact phrase (.accesses object)
    | some op =>
      refine skip.bind fun _ _ _ => (phrase .unary).bind fun operand _ same => pure ?_
      subst same
      have more : t.isEnd = false := Within.isEnd_of_unary known
      have kept : t.kind.isKept = true := Kind.isKept_of_unary known
      simp [PhraseSort.relabel, Operator.relabel, alike.line more, alike.lexeme kept]
  | accesses object =>
    refine (accept _).bind fun found _ same => ?_
    subst same
    refine ite ((callOf object).bind fun call _ same => ?_) ((accept _).bind fun found _ same => ?_)
    · subst same
      exact phrase (.accesses call)
    · subst same
      refine ite ((expectName _).bind fun name _ same => ?_) (pure rfl)
      subst same
      exact phrase (.accesses (.get object name))
  | primary => exact primary plain
  | arguments count =>
    refine (limitTo _ _).bind fun _ _ _ => (phrase .expression).bind fun argument _ same => ?_
    subst same
    refine (accept _).bind fun found _ same => ?_
    subst same
    refine ite ((phrase (.arguments (count + 1))).bind fun rest _ same => ?_) (pure rfl)
    subst same
    exact pure rfl
  | parameters count =>
    refine (limitTo _ _).bind fun _ _ _ => (expectName _).bind fun name _ same => ?_
    subst same
    refine (accept _).bind fun found _ same => ?_
    subst same
    refine ite ((phrase (.parameters (count + 1))).bind fun rest _ same => ?_) (pure rfl)
    subst same
    exact pure rfl
  | statement => exact statement
  | declaration =>
    intro tokens tokens' left
    refine (declare plain tokens tokens' left).bind fun o o' alike => ?_
    obtain ⟨result, noted, rest⟩ := o
    obtain ⟨result', noted', rest'⟩ := o'
    obtain ⟨(⟨s, _, ok, ok', same⟩ | ⟨e, e', error, error'⟩), length, left⟩ := alike
    · subst ok ok' same
      exact .done ⟨.inl ⟨_, _, rfl, rfl, rfl⟩, length, left⟩
    · subst error error'
      refine .done ⟨.inl ⟨_, _, rfl, rfl, rfl⟩, ?_, afterMistake_alike left⟩
      simp only [List.length_append, List.length_singleton, length]
  | declarations inBlock =>
    refine (sees _).bind fun closing _ same => atEnd.bind fun ends _ same' => ?_
    subst same same'
    refine ite (pure rfl) (ite (pure rfl) ((phrase .declaration).bind fun first _ same => ?_))
    subst same
    refine (phrase (.declarations inBlock)).bind fun rest _ same => pure ?_
    subst same
    cases first <;> rfl
  | methods =>
    refine atEnd.bind fun ends _ same => ?_
    subst same
    refine ite (pure rfl) ((sees _).bind fun closing _ same => ?_)
    subst same
    refine ite (pure rfl) ((namedFunction _).bind fun first _ same => ?_)
    subst same
    refine (phrase .methods).bind fun rest _ same => pure ?_
    subst same
    rfl

end Plain

end Alike

end Parser

/-! ## The grammar as a whole -/

section Parse

variable (plain : m.depth none = none) {tokens tokens' : List Token}
  (alike : TokensAlike m tokens tokens')

include plain alike

/-- **Lines do not matter to the parser.** -/
theorem Phrase.alike_parse {sort : PhraseSort} (p : Phrase sort) :
    (p.parse tokens).Alike m (fun tree tree' => tree' = PhraseSort.relabel m tree)
      ((p.relabel m).parse tokens') := by
  have keeps (sort : PhraseSort) (q q' : Grammar.Question sort) (asked : Grammar.AskedAlike m sort q q') :
      (grammar sort q).InStep (Grammar.AskedAlike m) (Grammar.AnsweredAlike m)
        (Rules.SettlesInStep (Grammar.AskedAlike m) (Grammar.AnsweredAlike m) q q')
        (grammar sort q') := by
    obtain ⟨p, tokens⟩ := q
    obtain ⟨p', tokens'⟩ := q'
    obtain ⟨rfl, alike⟩ := asked
    exact (Parser.Alike.rule plain p tokens tokens' alike).bind fun _ _ answered =>
      .done (.answer answered)
  obtain ⟨answer, found, answered⟩ := Rules.Answers.inStep keeps
    (show Grammar.AskedAlike m sort ⟨p, tokens⟩ ⟨p.relabel m, tokens'⟩ from ⟨rfl, alike⟩)
    ⟨_, p.solve_eq_parse tokens⟩
  obtain ⟨fuel, found⟩ := found
  rwa [Phrase.parse_of_solve found]

theorem parseProgram_alike :
    (parseProgram tokens').statements = Stmt.relabelAll m (parseProgram tokens).statements ∧
      (parseProgram tokens').errors.length = (parseProgram tokens).errors.length := by
  have outcome := Phrase.alike_parse plain alike (.declarations false)
  unfold parseProgram
  generalize (Phrase.declarations false).parse tokens = o at outcome
  change Outcome.Alike m _ o ((Phrase.declarations false).parse tokens') at outcome
  generalize (Phrase.declarations false).parse tokens' = o' at outcome
  obtain ⟨result, noted, rest⟩ := o
  obtain ⟨result', noted', rest'⟩ := o'
  obtain ⟨(⟨ss, _, ok, ok', same⟩ | ⟨e, e', error, error'⟩), length, -⟩ := outcome
  · subst ok ok' same
    exact ⟨rfl, length⟩
  · subst error error'
    exact ⟨rfl, by simp only [List.length_append, List.length_singleton, length]⟩

end Parse

end Lox
