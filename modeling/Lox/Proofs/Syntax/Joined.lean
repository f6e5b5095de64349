import Lox.Proofs.Syntax.Takes

/-!
# Programs behind one another

What the parser makes of some tokens in front of the end of the input, it makes of them where other tokens
follow, as long as it has not looked at the end: it has found all it needed before.  A statement needs no
more than its own tokens, except that an `if` looks out for an `else`; an expression needs to see what comes
behind it (`Parser.Joins`).

So the statements of two programs that are each parsed without an error are the statements of the two
together (`parseProgram_append`).
-/

namespace Lox

open Lox.Parser

namespace Parser

variable {α β : Type} {parser : Parser α} {next : α → Parser β} {fuel : Nat} {tokens rest : List Token}
  {a : α} {b : β}

/-! ## What has been read -/

/-- Run from `tokens`, the parser builds `a` without an error and leaves `rest`, and it has asked for
phrases to this depth only. -/
def Reads (fuel : Nat) (parser : Parser α) (tokens : List Token) (a : α) (rest : List Token) : Prop :=
  (parser tokens).eval (grammar.solve fuel) = some ⟨.ok a, [], rest⟩

namespace Reads

/-- What is read by two parsers in sequence is read by the first and then by the second. -/
theorem of_bind (h : (parser >>= next).Reads fuel tokens b rest) :
    ∃ a between, parser.Reads fuel tokens a between ∧ (next a).Reads fuel between b rest := by
  unfold Reads at h
  change (andThen parser next tokens).eval _ = _ at h
  rw [andThen, Plan.eval_bind, Option.bind_eq_some_iff] at h
  obtain ⟨⟨result, noted, between⟩, first, h⟩ := h
  cases result with
  | error e => cases h
  | ok a =>
    simp only [Plan.eval_bind, Option.bind_eq_some_iff] at h
    obtain ⟨⟨result', noted', rest'⟩, second, same⟩ := h
    simp only [Plan.pure_eq_done, Plan.eval, Option.some.injEq, Outcome.mk.injEq,
      List.append_eq_nil_iff] at same
    obtain ⟨rfl, ⟨rfl, rfl⟩, rfl⟩ := same
    exact ⟨a, between, first, second⟩

theorem of_pure {a' : α} (h : (Pure.pure a : Parser α).Reads fuel tokens a' rest) :
    a' = a ∧ rest = tokens := by
  cases h
  exact ⟨rfl, rfl⟩

theorem of_map {f : α → β} (h : (f <$> parser).Reads fuel tokens b rest) :
    ∃ a, parser.Reads fuel tokens a rest ∧ b = f a := by
  obtain ⟨a, between, first, last⟩ := of_bind h
  obtain ⟨rfl, rfl⟩ := of_pure last
  exact ⟨a, first, rfl⟩

theorem of_look {t : Token} (h : Parser.look.Reads fuel tokens t rest) :
    t = front tokens ∧ rest = tokens := by
  cases h
  exact ⟨rfl, rfl⟩

theorem of_look_bind {next : Token → Parser β} (h : (Parser.look >>= next).Reads fuel tokens b rest) :
    (next (front tokens)).Reads fuel tokens b rest := by
  obtain ⟨_, _, looked, h⟩ := of_bind h
  obtain ⟨rfl, rfl⟩ := of_look looked
  exact h

theorem of_skip (h : Parser.skip.Reads fuel tokens () rest) : rest = tokens.drop 1 := by
  cases h
  rfl

theorem not_fail {cause : ParseError.Cause} : ¬(Parser.fail cause : Parser α).Reads fuel tokens a rest :=
  nofun

/-- What has to be there is there. -/
theorem of_expect {s : Symbol} {spot : ParseError.Spot} {t : Token}
    (h : (Parser.expect s spot).Reads fuel tokens t rest) :
    (front tokens).isSymbol s = true ∧ t = front tokens ∧ rest = tokens.drop 1 := by
  unfold Reads Parser.expect at h
  split at h
  · cases h
    exact ⟨‹_›, rfl, rfl⟩
  · cases h

theorem of_expectName {role : ParseError.NameRole} {name : Ident}
    (h : (Parser.expectName role).Reads fuel tokens name rest) :
    ∃ s, (front tokens).kind = .identifier s ∧ name = ⟨s, (front tokens).lexeme, (front tokens).line⟩ ∧
      rest = tokens.drop 1 := by
  unfold Reads Parser.expectName at h
  simp only at h
  split at h
  · cases h
    exact ⟨_, ‹_›, rfl, rfl⟩
  · cases h

theorem of_accept {s : Symbol} {found : Bool} (h : (Parser.accept s).Reads fuel tokens found rest) :
    found = (front tokens).isSymbol s ∧ rest = if found then tokens.drop 1 else tokens := by
  unfold Reads Parser.accept at h
  split at h
  · cases h
    exact ⟨(‹_› : _ = true).symm, rfl⟩
  · cases h
    exact ⟨(Bool.eq_false_iff.mpr ‹_›).symm, rfl⟩

theorem of_acceptWord {k : Keyword} {found : Bool}
    (h : (Parser.acceptWord k).Reads fuel tokens found rest) :
    found = (front tokens).isKeyword k ∧ rest = if found then tokens.drop 1 else tokens := by
  unfold Reads Parser.acceptWord at h
  split at h
  · cases h
    exact ⟨(‹_› : _ = true).symm, rfl⟩
  · cases h
    exact ⟨(Bool.eq_false_iff.mpr ‹_›).symm, rfl⟩

/-- What is read without an error is not resumed from. -/
theorem of_orResume {resume : List Token → List Token} {found : Option α}
    (h : (parser.orResume resume).Reads fuel tokens found rest) :
    ∃ a, found = some a ∧ parser.Reads fuel tokens a rest := by
  unfold Reads Parser.orResume at h
  rw [Plan.eval_bind, Option.bind_eq_some_iff] at h
  obtain ⟨⟨result, noted, between⟩, first, same⟩ := h
  cases result with
  | error e =>
    simp only [Plan.pure_eq_done, Plan.eval, Option.some.injEq, Outcome.mk.injEq] at same
    exact absurd same.2.1 (by simp)
  | ok a =>
    cases same
    exact ⟨a, rfl, first⟩

/-- What is read for a phrase is read by its rule. -/
theorem of_phrase {sort : PhraseSort} {p : Phrase sort} {tree : sort.Tree}
    (h : (Parser.phrase p).Reads fuel tokens tree rest) :
    ∃ fuel', fuel = fuel' + 1 ∧ p.parser.Reads fuel' tokens tree rest := by
  have found : grammar.solve fuel _ ⟨p, tokens⟩ = some ⟨.ok tree, [], rest⟩ := by
    unfold Reads Parser.phrase at h
    rw [Plan.eval] at h
    split at h
    · cases h
    · rename_i o known
      cases h
      exact known
  cases fuel with
  | zero => cases found
  | succ fuel =>
    refine ⟨fuel, rfl, ?_⟩
    rw [Rules.solve_succ, grammar, Plan.map_eq_bind, Plan.eval_bind, Option.bind_assoc,
      Option.bind_eq_some_iff] at found
    obtain ⟨o, evaluated, same⟩ := found
    cases same
    exact evaluated

theorem of_parse {sort : PhraseSort} {p : Phrase sort} {tree : sort.Tree}
    (h : p.parse tokens = ⟨.ok tree, [], rest⟩) :
    ∃ fuel, (Parser.phrase p).Reads fuel tokens tree rest := by
  refine ⟨(Grammar.Question.mk p tokens).measure + 1, ?_⟩
  unfold Reads Parser.phrase
  rw [Plan.eval, p.solve_eq_parse]
  exact congrArg some h

end Reads

/-! ## Reading on -/

section Joins

variable (last : Token) (more : List Token)

/-- What the parser reads from tokens in front of the last one, it reads where more follow, if it is
`closed` or leaves one of the tokens. -/
def Joins (fuel : Nat) (closed : Bool) (parser : Parser α) (tokens : List Token) : Prop :=
  ∀ a rest, parser.Reads fuel (tokens ++ [last]) a rest →
    ∃ left, left <:+ tokens ∧ rest = left ++ [last] ∧
      (closed = true ∨ left ≠ [] → parser.Takes (tokens ++ more) a (left ++ more))

/-- The parser reads nothing where only the last token is left. -/
def Stuck (fuel : Nat) (parser : Parser α) : Prop := ∀ a rest, ¬parser.Reads fuel [last] a rest

variable {last more} {closed closed' : Bool} {t : Token}

namespace Joins

theorem pure (a : α) : (Pure.pure a : Parser α).Joins last more fuel closed tokens := by
  intro a' rest h
  obtain ⟨rfl, rfl⟩ := h.of_pure
  exact ⟨tokens, List.suffix_refl _, rfl, fun _ => .pure a'⟩

/-- **Sequences.**  What the first parser leaves open, the second one has to look at. -/
theorem bind (h : parser.Joins last more fuel closed tokens)
    (h' : ∀ a left, (next a).Joins last more fuel closed' left)
    (looks : closed = true ∨ closed' = false ∨ ∀ a, (next a).Stuck last fuel) :
    (parser >>= next).Joins last more fuel closed' tokens := by
  intro b rest reads
  obtain ⟨a, between, first, second⟩ := reads.of_bind
  obtain ⟨left, suffix, rfl, takes⟩ := h _ _ first
  obtain ⟨left', suffix', rfl, takes'⟩ := h' a left _ _ second
  refine ⟨left', suffix'.trans suffix, rfl, fun ends => .bind (takes ?_) (takes' ends)⟩
  rcases looks with closed | open_ | stuck
  · exact .inl closed
  · -- Something is left in the end, so that there was something before.
    right
    rintro rfl
    rcases ends with closed' | some
    · rw [open_] at closed'
      cases closed'
    · exact some (List.suffix_nil.mp suffix')
  · right
    rintro rfl
    exact stuck a _ _ second

/-- The first parser ends on its own. -/
theorem andThen (h : parser.Joins last more fuel true tokens)
    (h' : ∀ a left, (next a).Joins last more fuel closed left) :
    (parser >>= next).Joins last more fuel closed tokens :=
  bind h h' (.inl rfl)

/-- Both parsers look at what comes behind them. -/
theorem andOn (h : parser.Joins last more fuel closed tokens)
    (h' : ∀ a left, (next a).Joins last more fuel false left) :
    (parser >>= next).Joins last more fuel false tokens :=
  bind h h' (.inr (.inl rfl))

/-- What the first parser looks at, the second one takes. -/
theorem andTake (h : parser.Joins last more fuel false tokens)
    (h' : ∀ a left, (next a).Joins last more fuel closed left)
    (stuck : ∀ a, (next a).Stuck last fuel) :
    (parser >>= next).Joins last more fuel closed tokens :=
  bind h h' (.inr (.inr stuck))

theorem map {f : α → β} (h : parser.Joins last more fuel closed tokens) :
    (f <$> parser).Joins last more fuel closed tokens := by
  intro b rest reads
  obtain ⟨a, first, rfl⟩ := reads.of_map
  obtain ⟨left, suffix, rfl, takes⟩ := h _ _ first
  exact ⟨left, suffix, rfl, fun ends => .map f (takes ends)⟩

theorem ite {p : Prop} [Decidable p] {yes no : Parser α} (h : p → yes.Joins last more fuel closed tokens)
    (h' : ¬p → no.Joins last more fuel closed tokens) :
    (if p then yes else no).Joins last more fuel closed tokens := by
  split
  · exact h ‹_›
  · exact h' ‹_›

theorem fail {cause : ParseError.Cause} :
    (Parser.fail cause : Parser α).Joins last more fuel closed tokens :=
  fun _ _ reads => reads.not_fail.elim

/-! ### Tokens -/

theorem look : Parser.look.Joins last more fuel false tokens := by
  intro t rest reads
  obtain ⟨rfl, rfl⟩ := reads.of_look
  refine ⟨tokens, List.suffix_refl _, rfl, fun ends => ?_⟩
  cases tokens with
  | nil => simp at ends
  | cons t tokens => exact .look

/-- Where there is a token, it is looked at. -/
theorem look_bind {next : Token → Parser β} (h : (next t).Joins last more fuel closed (t :: tokens)) :
    (Parser.look >>= next).Joins last more fuel closed (t :: tokens) := by
  intro b rest reads
  obtain ⟨left, suffix, rfl, takes⟩ := h _ _ reads.of_look_bind
  exact ⟨left, suffix, rfl, fun ends => .look_bind (takes ends)⟩

/-- Where there is a token, it is taken. -/
theorem skip_bind {next : Unit → Parser β} (h : (next ()).Joins last more fuel closed tokens) :
    (Parser.skip >>= next).Joins last more fuel closed (t :: tokens) := by
  intro b rest reads
  obtain ⟨_, _, skipped, reads⟩ := reads.of_bind
  obtain rfl := skipped.of_skip
  obtain ⟨left, suffix, rfl, takes⟩ := h _ _ reads
  exact ⟨left, suffix.trans (List.suffix_cons ..), rfl, fun ends => .skip_bind (takes ends)⟩

theorem sees (s : Symbol) : (Parser.sees s).Joins last more fuel false tokens := by
  intro seen rest reads
  cases reads
  refine ⟨tokens, List.suffix_refl _, rfl, fun ends => ?_⟩
  cases tokens with
  | nil => simp at ends
  | cons t tokens => exact .sees s

theorem atEnd : Parser.atEnd.Joins last more fuel false tokens := by
  intro ended rest reads
  cases reads
  refine ⟨tokens, List.suffix_refl _, rfl, fun ends => ?_⟩
  cases tokens with
  | nil => simp at ends
  | cons t tokens => exact .atEnd

/-- Where there are two tokens, the second one is looked at. -/
theorem seesNameSecond_bind {t' : Token} {next : Bool → Parser β}
    (h : (next t'.isName).Joins last more fuel closed (t :: t' :: tokens)) :
    (Parser.seesNameSecond >>= next).Joins last more fuel closed (t :: t' :: tokens) := by
  intro b rest reads
  obtain ⟨_, _, seen, reads⟩ := reads.of_bind
  cases seen
  obtain ⟨left, suffix, rfl, takes⟩ := h _ _ reads
  exact ⟨left, suffix, rfl, fun ends => .seesNameSecond_bind (takes ends)⟩

theorem limitTo (count : Nat) (cause : ParseError.Cause) :
    (Parser.limitTo count cause).Joins last more fuel closed tokens := by
  intro a rest reads
  have noted := reads.of_look_bind
  split at noted
  · cases noted
  · obtain ⟨-, rfl⟩ := noted.of_pure
    exact ⟨tokens, List.suffix_refl _, rfl, fun _ => .limitTo cause (Nat.lt_of_not_le ‹_›)⟩

/-- A parser that reads nothing without a token. -/
theorem of_stuck (stuck : parser.Stuck last fuel) : parser.Joins last more fuel closed [] :=
  fun _ _ reads => (stuck _ _ reads).elim

end Joins

variable (isEnd : last.isEnd = true)

include isEnd

theorem isSymbol_of_isEnd (s : Symbol) : last.isSymbol s = false := by
  cases last with
  | mk kind _ _ => cases kind <;> first | rfl | cases isEnd

theorem isKeyword_of_isEnd (k : Keyword) : last.isKeyword k = false := by
  cases last with
  | mk kind _ _ => cases kind <;> first | rfl | cases isEnd

theorem kind_of_isEnd : last.kind = .endOfInput := by
  cases last with
  | mk kind _ _ => cases kind <;> first | rfl | cases isEnd

namespace Joins

theorem accept (s : Symbol) : (Parser.accept s).Joins last more fuel false tokens := by
  intro found rest reads
  obtain ⟨seen, rfl⟩ := reads.of_accept
  cases tokens with
  | nil =>
    obtain rfl : found = false := seen.trans (isSymbol_of_isEnd isEnd s)
    exact ⟨[], List.suffix_refl _, rfl, by simp⟩
  | cons t tokens =>
    have seen : found = t.isSymbol s := seen
    cases found with
    | true => exact ⟨tokens, List.suffix_cons .., rfl, fun _ => .accept seen.symm⟩
    | false => exact ⟨t :: tokens, List.suffix_refl _, rfl, fun _ => .not_accept seen.symm⟩

/-- A reserved word that what follows does not begin with. -/
theorem acceptWord {k : Keyword} (other : closed = true → (front more).isKeyword k = false) :
    (Parser.acceptWord k).Joins last more fuel closed tokens := by
  intro found rest reads
  obtain ⟨seen, rfl⟩ := reads.of_acceptWord
  cases tokens with
  | nil =>
    obtain rfl : found = false := seen.trans (isKeyword_of_isEnd isEnd k)
    refine ⟨[], List.suffix_refl _, rfl, fun ends => .not_acceptWord (other ?_)⟩
    simpa using ends
  | cons t tokens =>
    have seen : found = t.isKeyword k := seen
    cases found with
    | true => exact ⟨tokens, List.suffix_cons .., rfl, fun _ => .acceptWord seen.symm⟩
    | false => exact ⟨t :: tokens, List.suffix_refl _, rfl, fun _ => .not_acceptWord seen.symm⟩

theorem expect (s : Symbol) (spot : ParseError.Spot) :
    (Parser.expect s spot).Joins last more fuel closed tokens := by
  intro t rest reads
  obtain ⟨seen, rfl, rfl⟩ := reads.of_expect
  cases tokens with
  | nil =>
    rw [show (front ([] ++ [last])).isSymbol s = false from isSymbol_of_isEnd isEnd s] at seen
    cases seen
  | cons t tokens => exact ⟨tokens, List.suffix_cons .., rfl, fun _ => .expect spot seen⟩

theorem expectName (role : ParseError.NameRole) :
    (Parser.expectName role).Joins last more fuel closed tokens := by
  intro name rest reads
  obtain ⟨s, kind, rfl, rfl⟩ := reads.of_expectName
  cases tokens with
  | nil =>
    rw [show (front ([] ++ [last])).kind = .endOfInput from kind_of_isEnd isEnd] at kind
    cases kind
  | cons t tokens =>
    obtain ⟨_, lexeme, line⟩ := t
    cases kind
    exact ⟨tokens, List.suffix_cons .., rfl, fun _ => .expectName role s lexeme line⟩

omit isEnd in
/-- What is parsed only if something is present. -/
theorem optional {present : Parser Bool} (h : present.Joins last more fuel closed tokens)
    (h' : ∀ left, parser.Joins last more fuel closed left) :
    (Parser.optional present parser).Joins last more fuel closed tokens := by
  have next (found : Bool) (left : List Token) : (if found then some <$> parser else return none).Joins
      last more fuel closed left :=
    ite (fun _ => map (h' left)) fun _ => pure none
  cases closed with
  | true => exact h.andThen next
  | false => exact h.andOn next

omit isEnd in
/-- What is parsed unless a symbol comes next. -/
theorem unlessAt (s : Symbol) (h : ∀ left, parser.Joins last more fuel false left) :
    (Parser.unlessAt s parser).Joins last more fuel false tokens :=
  (sees s).andOn fun _ left => ite (fun _ => pure none) fun _ => map (h left)

end Joins

namespace Stuck

theorem expect (s : Symbol) (spot : ParseError.Spot) : (Parser.expect s spot).Stuck last fuel := by
  intro t rest reads
  have seen := reads.of_expect.1
  rw [show (front [last]).isSymbol s = false from isSymbol_of_isEnd isEnd s] at seen
  cases seen

theorem expectName (role : ParseError.NameRole) : (Parser.expectName role).Stuck last fuel := by
  intro name rest reads
  obtain ⟨s, kind, -⟩ := reads.of_expectName
  rw [show (front [last]).kind = .endOfInput from kind_of_isEnd isEnd] at kind
  cases kind

omit isEnd in
theorem bind (h : parser.Stuck last fuel) : (parser >>= next).Stuck last fuel := by
  intro b rest reads
  obtain ⟨_, _, first, -⟩ := reads.of_bind
  exact h _ _ first

omit isEnd in
/-- What takes no token leaves it to what follows to be stuck. -/
theorem behind (h : parser.Joins last more fuel false []) (stuck : ∀ a, (next a).Stuck last fuel) :
    (parser >>= next).Stuck last fuel := by
  intro b rest reads
  obtain ⟨a, _, first, second⟩ := reads.of_bind
  obtain ⟨left, suffix, rfl, -⟩ := h _ _ first
  obtain rfl := List.suffix_nil.mp suffix
  exact stuck a _ _ second

end Stuck

end Joins

end Parser

/-! ## Phrases -/

/-- Does a phrase end on its own?  Statements do; all others have to see what comes next. -/
def Phrase.isClosed : {sort : PhraseSort} → Phrase sort → Bool
  | _, .statement => true
  | _, .declaration => true
  | _, _ => false

/-- What is known of all phrases that are asked for. -/
structure Grammar.JoinsAll (last : Token) (more : List Token) (fuel : Nat) : Prop where
  joins : ∀ {sort} (p : Phrase sort) (tokens : List Token),
    (phrase p).Joins last more fuel p.isClosed tokens
  stuck : ∀ {sort} (p : Phrase sort), p.isSolid = true → (phrase p).Stuck last fuel

namespace Parser

variable {last : Token} {more : List Token} {fuel : Nat} {closed : Bool} {tokens : List Token}
  (isEnd : last.isEnd = true) (all : Grammar.JoinsAll last more fuel)

include isEnd all

open Joins

/-- An expression, and behind it a symbol. -/
theorem joins_expression_expect {β : Type} {next : Expr → Token → Parser β} {s : Symbol}
    {spot : ParseError.Spot} (h : ∀ e t left, (next e t).Joins last more fuel closed left) :
    (do let e ← phrase .expression; let t ← expect s spot; next e t).Joins last more fuel closed
      tokens :=
  (all.joins .expression tokens).andTake
    (fun e _ => (Joins.expect isEnd s spot).andThen fun t left => h e t left)
    fun _ => .bind (.expect isEnd s spot)

/-- An expression that may be missing, and behind it a symbol. -/
theorem joins_unlessAt_expect {β : Type} {next : Option Expr → Token → Parser β} {s s' : Symbol}
    {spot : ParseError.Spot} (h : ∀ e t left, (next e t).Joins last more fuel closed left) :
    (do let e ← unlessAt s' (phrase .expression); let t ← expect s spot; next e t).Joins last more fuel
      closed tokens :=
  (Joins.unlessAt s' fun left => all.joins .expression left).andTake
    (fun e _ => (Joins.expect isEnd s spot).andThen fun t left => h e t left)
    fun _ => .bind (.expect isEnd s spot)

theorem joins_parameters : parameters.Joins last more fuel closed tokens :=
  (Joins.unlessAt _ fun left => all.joins (.parameters 0) left).andTake
    (fun _ _ => (Joins.expect isEnd _ _).andThen fun _ _ => .pure _) fun _ => .bind (.expect isEnd _ _)

theorem joins_block : block.Joins last more fuel closed tokens :=
  (all.joins (.declarations true) tokens).andTake
    (fun _ _ => (Joins.expect isEnd _ _).andThen fun _ _ => .pure _) fun _ => .bind (.expect isEnd _ _)

theorem joins_functionFrom (sort : FunctionSort) (name : FunctionName) :
    (functionFrom sort name).Joins last more fuel closed tokens :=
  (joins_parameters isEnd all).andThen fun _ _ => (Joins.expect isEnd _ _).andThen fun _ _ =>
    (joins_block isEnd all).andThen fun _ _ => .pure _

theorem joins_namedFunction (sort : FunctionSort) :
    (namedFunction sort).Joins last more fuel closed tokens :=
  (Joins.expectName isEnd _).andThen fun _ _ => (Joins.expect isEnd _ _).andThen fun _ _ =>
    joins_functionFrom isEnd all _ _

theorem joins_classDeclaration : classDeclaration.Joins last more fuel closed tokens := by
  refine (Joins.expectName isEnd _).andThen fun _ left => ?_
  refine (Joins.optional (Joins.accept isEnd _) fun left => Joins.expectName isEnd _).andTake
    (fun _ left => ?_) fun _ => .bind (.expect isEnd _ _)
  refine (Joins.expect isEnd _ _).andThen fun _ left => ?_
  exact (all.joins .methods left).andTake
    (fun _ _ => (Joins.expect isEnd _ _).andThen fun _ _ => .pure _) fun _ => .bind (.expect isEnd _ _)

theorem joins_varDeclaration : varDeclaration.Joins last more fuel closed tokens := by
  refine (Joins.expectName isEnd _).andThen fun _ left => ?_
  exact (Joins.optional (Joins.accept isEnd _) fun left => all.joins .expression left).andTake
    (fun _ _ => (Joins.expect isEnd _ _).andThen fun _ _ => .pure _) fun _ => .bind (.expect isEnd _ _)

theorem joins_expressionStatement : expressionStatement.Joins last more fuel closed tokens :=
  joins_expression_expect isEnd all fun _ _ _ => .pure _

theorem joins_printStatement (line : Nat) :
    (printStatement line).Joins last more fuel closed tokens :=
  joins_expression_expect isEnd all fun _ _ _ => .pure _

theorem joins_returnStatement (keyword : Word) :
    (returnStatement keyword).Joins last more fuel closed tokens :=
  joins_unlessAt_expect isEnd all fun _ _ _ => .pure _

/-- An `if` looks out for an `else`, and finds none behind its own tokens. -/
theorem joins_ifStatement (other : (front more).isKeyword .else_ = false) :
    ifStatement.Joins last more fuel true tokens := by
  refine (Joins.expect isEnd _ _).andThen fun _ left => ?_
  refine joins_expression_expect isEnd all fun condition _ left => ?_
  refine (all.joins .statement left).andThen fun yes left => ?_
  refine (Joins.optional (Joins.acceptWord isEnd fun _ => other) fun left => ?_).andThen
    fun _ _ => .pure _
  exact all.joins .statement left

theorem joins_whileStatement : whileStatement.Joins last more fuel true tokens := by
  refine (Joins.expect isEnd _ _).andThen fun _ left => ?_
  refine joins_expression_expect isEnd all fun condition _ left => ?_
  exact (all.joins .statement left).andThen fun _ _ => .pure _

theorem joins_forInitializer : forInitializer.Joins last more fuel false tokens := by
  refine (Joins.accept isEnd _).andOn fun found left => .ite (fun _ => .pure _) fun _ => ?_
  have word : (acceptWord .var_).Joins last more fuel false left :=
    Joins.acceptWord isEnd fun closed => by cases closed
  refine word.andOn fun found left => .ite (fun _ => ?_) fun _ => ?_
  · exact .map (joins_varDeclaration isEnd all)
  · exact .map (joins_expressionStatement isEnd all)

theorem joins_forStatement : forStatement.Joins last more fuel true tokens := by
  refine (Joins.expect isEnd _ _).andThen fun _ left => ?_
  refine (joins_forInitializer isEnd all).andTake (fun initial left => ?_) fun initial => ?_
  · refine joins_unlessAt_expect isEnd all fun condition _ left => ?_
    refine joins_unlessAt_expect isEnd all fun increment _ left => ?_
    exact (all.joins .statement left).andThen fun _ _ => .pure _
  · exact .behind (Joins.unlessAt _ fun left => all.joins .expression left) fun _ =>
      .bind (.expect isEnd _ _)

omit isEnd in
theorem stuck_expressionStatement : expressionStatement.Stuck last fuel :=
  .bind (all.stuck .expression rfl)

theorem stuck_statement : statement.Stuck last fuel := by
  intro s rest reads
  have reads := reads.of_look_bind
  rw [show (front [last]).kind = .endOfInput from kind_of_isEnd isEnd] at reads
  exact stuck_expressionStatement all _ _ reads

theorem joins_statement (other : (front more).isKeyword .else_ = false) :
    statement.Joins last more fuel true tokens := by
  cases tokens with
  | nil => exact .of_stuck (stuck_statement isEnd all)
  | cons t tokens =>
    refine .look_bind ?_
    split
    · exact .skip_bind (joins_ifStatement isEnd all other)
    · exact .skip_bind (joins_printStatement isEnd all _)
    · exact .skip_bind (joins_returnStatement isEnd all _)
    · exact .skip_bind ((joins_block isEnd all).andThen fun _ _ => .pure _)
    · exact .skip_bind (joins_whileStatement isEnd all)
    · exact .skip_bind (joins_forStatement isEnd all)
    · exact joins_expressionStatement isEnd all

omit isEnd all in
/-- An expression without a unary operator in front begins with what has no operators. -/
theorem exists_reads_primary {tokens rest : List Token} {e : Expr}
    (none : UnaryOp.ofKind? (front tokens).kind = none)
    (h : (phrase .expression).Reads fuel tokens e rest) :
    ∃ fuel e rest, primary.Reads fuel tokens e rest := by
  obtain ⟨_, -, expression⟩ := h.of_phrase
  obtain ⟨_, _, h, -⟩ := expression.of_bind
  obtain ⟨_, -, operation⟩ := h.of_phrase
  obtain ⟨_, _, h, -⟩ := operation.of_bind
  obtain ⟨_, -, unary⟩ := h.of_phrase
  have unary := unary.of_look_bind
  rw [none] at unary
  obtain ⟨_, _, h, -⟩ := unary.of_bind
  obtain ⟨_, -, primary⟩ := h.of_phrase
  exact ⟨_, _, _, primary⟩

omit all in
/-- No statement is a `fun` alone. -/
theorem not_reads_fun {t : Token} (kind : t.kind = .keyword .fun_) {s : Stmt} {rest : List Token} :
    ¬(phrase .statement).Reads fuel [t, last] s rest := by
  intro h
  have first : (front [t, last]).kind = .keyword .fun_ := kind
  obtain ⟨_, -, statement⟩ := h.of_phrase
  have statement := statement.of_look_bind
  rw [first] at statement
  obtain ⟨_, _, expression, -⟩ := statement.of_bind
  obtain ⟨_, _, _, primary⟩ := exists_reads_primary (by rw [first]; rfl) expression
  have primary := primary.of_look_bind
  rw [first] at primary
  obtain ⟨_, _, skipped, rest⟩ := primary.of_bind
  obtain rfl := skipped.of_skip
  exact Stuck.bind (.expect isEnd .leftParen .afterFun) _ _ rest

theorem joins_declare : declare.Joins last more fuel true tokens := by
  have plain (tokens : List Token) : (phrase .statement).Joins last more fuel true tokens :=
    all.joins .statement tokens
  cases tokens with
  | nil =>
    refine .of_stuck fun s rest reads => ?_
    have reads := reads.of_look_bind
    rw [show (front [last]).kind = .endOfInput from kind_of_isEnd isEnd] at reads
    exact all.stuck .statement rfl _ _ reads
  | cons t tokens =>
    refine .look_bind ?_
    split
    · exact .skip_bind (joins_classDeclaration isEnd all)
    · rename_i kind
      cases tokens with
      | nil =>
        -- Behind the `fun` comes the end, so that it would have to be a statement.
        intro s rest reads
        obtain ⟨second, _, seen, reads⟩ := reads.of_bind
        cases seen
        have name : last.isName = false := by
          rw [Token.isName, kind_of_isEnd isEnd]
        change Reads fuel (if last.isName then _ else _) [t, last] s rest at reads
        rw [name] at reads
        exact (not_reads_fun isEnd kind reads).elim
      | cons t' tokens =>
        refine .seesNameSecond_bind (.ite (fun _ => ?_) fun _ => plain _)
        exact .skip_bind (.map (joins_namedFunction isEnd all _))
    · exact .skip_bind (joins_varDeclaration isEnd all)
    · exact plain _

omit isEnd all in
theorem joins_assignTo (left : Expr) (equals : Token) (value : Expr) :
    (assignTo left equals value).Joins last more fuel closed tokens := by
  unfold assignTo
  split
  · exact .pure _
  · exact .pure _
  · intro e rest reads
    obtain ⟨_, _, noted, -⟩ := reads.of_bind
    cases noted

omit all in
theorem stuck_primary : primary.Stuck last fuel := by
  intro e rest reads
  have reads := reads.of_look_bind
  rw [show (front [last]).kind = .endOfInput from kind_of_isEnd isEnd] at reads
  exact reads.not_fail

theorem joins_primary : primary.Joins last more fuel closed tokens := by
  cases tokens with
  | nil => exact .of_stuck (stuck_primary isEnd)
  | cons t tokens =>
    refine .look_bind ?_
    split
    iterate 7 exact .skip_bind (.pure _)
    · exact .skip_bind ((Joins.expect isEnd _ _).andThen fun _ _ =>
        (Joins.expectName isEnd _).andThen fun _ _ => .pure _)
    · exact .skip_bind ((Joins.expect isEnd _ _).andThen fun _ _ =>
        .map (joins_functionFrom isEnd all _ _))
    · exact .skip_bind (joins_expression_expect isEnd all fun _ _ _ => .pure _)
    · exact .fail

theorem joins_callOf (callee : Expr) : (callOf callee).Joins last more fuel closed tokens :=
  (Joins.unlessAt _ fun left => all.joins (.arguments 0) left).andTake
    (fun _ _ => (Joins.expect isEnd _ _).andThen fun _ _ => .pure _) fun _ => .bind (.expect isEnd _ _)

end Parser

namespace Phrase

variable {last : Token} {more : List Token} {fuel : Nat} {tokens : List Token}
  (isEnd : last.isEnd = true) (all : Grammar.JoinsAll last more fuel)

include isEnd all

open Joins

theorem joins_expression : (parser .expression).Joins last more fuel false tokens := by
  refine (all.joins (.operation Level.or) tokens).andOn fun e left => ?_
  refine Joins.look.andOn fun t left => ?_
  refine (Joins.accept isEnd _).andOn fun found left => .ite (fun _ => ?_) fun _ => .pure _
  exact (all.joins .expression left).andOn fun value left => joins_assignTo _ _ _

theorem joins_operators (level : Nat) (e : Expr) :
    (parser (.operators level e)).Joins last more fuel false tokens := by
  cases tokens with
  | nil =>
    intro e' rest reads
    have reads := reads.of_look_bind
    rw [show (front ([] ++ [last])).kind = .endOfInput from kind_of_isEnd isEnd] at reads
    obtain ⟨rfl, rfl⟩ := reads.of_pure
    exact ⟨[], List.suffix_refl _, rfl, by simp⟩
  | cons t tokens =>
    refine .look_bind ?_
    split
    · exact .pure _
    · refine .ite (fun _ => .skip_bind ?_) fun _ => .pure _
      exact (all.joins (.operation _) tokens).andOn fun right left => all.joins (.operators _ _) left

theorem stuck_unary : (parser .unary).Stuck last fuel := by
  intro e rest reads
  have reads := reads.of_look_bind
  rw [show (front [last]).kind = .endOfInput from kind_of_isEnd isEnd] at reads
  exact Stuck.bind (all.stuck .primary rfl) _ _ reads

theorem joins_unary : (parser .unary).Joins last more fuel false tokens := by
  cases tokens with
  | nil => exact .of_stuck (stuck_unary isEnd all)
  | cons t tokens =>
    refine .look_bind ?_
    split
    · exact .skip_bind ((all.joins .unary tokens).andOn fun _ _ => .pure _)
    · exact (all.joins .primary _).andOn fun object left => all.joins (.accesses object) left

theorem joins_accesses (object : Expr) :
    (parser (.accesses object)).Joins last more fuel false tokens := by
  refine (Joins.accept isEnd _).andOn fun found left => .ite (fun _ => ?_) fun _ => ?_
  · exact (joins_callOf isEnd all object).andThen fun call left => all.joins (.accesses call) left
  · refine (Joins.accept isEnd _).andOn fun found left => .ite (fun _ => ?_) fun _ => .pure _
    exact (Joins.expectName isEnd _).andThen fun name left => all.joins (.accesses _) left

theorem joins_arguments (count : Nat) :
    (parser (.arguments count)).Joins last more fuel false tokens := by
  refine (Joins.limitTo _ _).andThen fun _ left => ?_
  refine (all.joins .expression left).andOn fun argument left => ?_
  refine (Joins.accept isEnd _).andOn fun found left => .ite (fun _ => ?_) fun _ => .pure _
  exact (all.joins (.arguments (count + 1)) left).andOn fun _ _ => .pure _

theorem joins_parameters (count : Nat) :
    (parser (.parameters count)).Joins last more fuel false tokens := by
  refine (Joins.limitTo _ _).andThen fun _ left => ?_
  refine (Joins.expectName isEnd _).andThen fun name left => ?_
  refine (Joins.accept isEnd _).andOn fun found left => .ite (fun _ => ?_) fun _ => .pure _
  exact (all.joins (.parameters (count + 1)) left).andOn fun _ _ => .pure _

theorem joins_declaration : (parser .declaration).Joins last more fuel true tokens := by
  intro found rest reads
  obtain ⟨s, rfl, declared⟩ := reads.of_orResume
  obtain ⟨left, suffix, rfl, takes⟩ := joins_declare isEnd all _ _ declared
  exact ⟨left, suffix, rfl, fun ends => .orResume (takes ends)⟩

omit isEnd in
theorem joins_declarations (inBlock : Bool) :
    (parser (.declarations inBlock)).Joins last more fuel false tokens := by
  refine (Joins.sees _).andOn fun closing left => ?_
  refine Joins.atEnd.andOn fun ended left => .ite (fun _ => .pure _) fun _ =>
    .ite (fun _ => .pure _) fun _ => ?_
  exact ((all.joins .declaration left).andThen fun first left =>
    (all.joins (.declarations inBlock) left).andOn fun _ _ => .pure _)

theorem joins_methods : (parser .methods).Joins last more fuel false tokens := by
  refine Joins.atEnd.andOn fun ended left => .ite (fun _ => .pure _) fun _ => ?_
  refine (Joins.sees _).andOn fun closing left => .ite (fun _ => .pure _) fun _ => ?_
  exact (joins_namedFunction isEnd all _).andThen fun first left =>
    (all.joins .methods left).andOn fun _ _ => .pure _

/-- The rule for each phrase joins, if all phrases that it asks for do. -/
theorem joins {sort : PhraseSort} (p : Phrase sort) (other : (front more).isKeyword .else_ = false) :
    p.parser.Joins last more fuel p.isClosed tokens := by
  cases p with
  | expression => exact joins_expression isEnd all
  | operation level =>
    exact (all.joins .unary tokens).andOn fun e left => all.joins (.operators level e) left
  | operators level e => exact joins_operators isEnd all level e
  | unary => exact joins_unary isEnd all
  | accesses object => exact joins_accesses isEnd all object
  | primary => exact joins_primary isEnd all
  | arguments count => exact joins_arguments isEnd all count
  | parameters count => exact joins_parameters isEnd all count
  | statement => exact joins_statement isEnd all other
  | declaration => exact joins_declaration isEnd all
  | declarations inBlock => exact joins_declarations all inBlock
  | methods => exact joins_methods isEnd all

/-- The rule for each phrase that stands for a token is stuck without one. -/
theorem stuck {sort : PhraseSort} (p : Phrase sort) (solid : p.isSolid = true) :
    p.parser.Stuck last fuel := by
  cases p with
  | expression => exact .bind (all.stuck (.operation Level.or) rfl)
  | operation level => exact .bind (all.stuck .unary rfl)
  | unary => exact stuck_unary isEnd all
  | primary => exact stuck_primary isEnd
  | arguments count =>
    have few : (Parser.limitTo count .tooManyArguments).Joins last more fuel false [] := .limitTo _ _
    exact .behind few fun _ => .bind (all.stuck .expression rfl)
  | parameters count =>
    have few : (Parser.limitTo count .tooManyParameters).Joins last more fuel false [] := .limitTo _ _
    exact .behind few fun _ => .bind (.expectName isEnd _)
  | statement => exact stuck_statement isEnd all
  | operators _ _ | accesses _ | declaration | declarations _ | methods => cases solid

omit all in
/-- **All phrases join.** -/
theorem joinsAll (other : (front more).isKeyword .else_ = false) (fuel : Nat) :
    Grammar.JoinsAll last more fuel := by
  induction fuel with
  | zero =>
    have none {sort : PhraseSort} {p : Phrase sort} {tokens rest : List Token} {tree : sort.Tree} :
        ¬(phrase p).Reads 0 tokens tree rest := by
      intro reads
      obtain ⟨_, less, -⟩ := reads.of_phrase
      cases less
    exact ⟨fun _ _ _ _ reads => (none reads).elim, fun _ _ _ _ => none⟩
  | succ fuel ih =>
    constructor
    · intro sort p tokens tree rest reads
      obtain ⟨_, same, reads⟩ := reads.of_phrase
      obtain rfl := Nat.succ.inj same
      obtain ⟨left, suffix, rfl, takes⟩ := joins isEnd ih p other _ _ reads
      exact ⟨left, suffix, rfl, fun ends => .phrase (takes ends)⟩
    · intro sort p solid tree rest reads
      obtain ⟨_, same, reads⟩ := reads.of_phrase
      obtain rfl := Nat.succ.inj same
      exact stuck isEnd ih p solid _ _ reads

omit all in
/-- The declarations in front of other tokens, whatever these are parsed into. -/
theorem parse_declarations_append {ss : List Stmt} {rest : List Token}
    (other : (front more).isKeyword .else_ = false) (noEnd : ∀ t ∈ tokens, t.isEnd = false)
    (reads : (phrase (.declarations false)).Reads fuel (tokens ++ [last]) ss rest) :
    (Phrase.declarations false).parse (tokens ++ more) =
      let later := (Phrase.declarations false).parse more
      ⟨later.result.map (ss ++ ·), later.noted, later.rest⟩ := by
  induction fuel generalizing tokens ss with
  | zero =>
    obtain ⟨_, less, -⟩ := reads.of_phrase
    cases less
  | succ fuel ih =>
    obtain ⟨_, same, reads⟩ := reads.of_phrase
    obtain rfl := Nat.succ.inj same
    obtain ⟨_, _, closing, reads⟩ := reads.of_bind
    cases closing
    obtain ⟨_, _, ended, reads⟩ := reads.of_bind
    cases ended
    cases tokens with
    | nil =>
      change Reads fuel (if last.isEnd = true then _ else _) _ ss rest at reads
      rw [if_pos isEnd] at reads
      obtain ⟨rfl, -⟩ := reads.of_pure
      rw [List.nil_append]
      generalize (Phrase.declarations false).parse more = later
      obtain ⟨result, _, _⟩ := later
      cases result <;> rfl
    | cons t tokens =>
      have more_ : t.isEnd = false := noEnd t List.mem_cons_self
      change Reads fuel (if t.isEnd = true then _ else _) _ ss rest at reads
      rw [if_neg (by simp [more_]), if_neg (by simp)] at reads
      obtain ⟨first, between, declaration, reads⟩ := reads.of_bind
      -- The first declaration ends on its own, so that it is the same in front of other tokens.
      obtain ⟨left, suffix, rfl, takes⟩ := (joinsAll isEnd other fuel).joins .declaration _ _ _ declaration
      have first_ := takes_phrase_iff.mp (takes (.inl rfl))
      obtain ⟨others, _, reads, pure⟩ := reads.of_bind
      obtain ⟨rfl, rfl⟩ := pure.of_pure
      have later := ih (fun t mem => noEnd t (suffix.subset mem)) reads
      have apart : (Phrase.declarations false).parse (t :: tokens ++ more) = _ :=
        Phrase.parse_declarations_cons more_ rfl first_
      rw [apart, later]
      generalize (Phrase.declarations false).parse more = behind
      obtain ⟨result, noted, _⟩ := behind
      cases result with
      | error e => rfl
      | ok ss' =>
        show Outcome.mk (.ok (first.toList ++ (others ++ ss'))) noted _ = _
        rw [← List.append_assoc]
        rfl

omit isEnd all in
/-- No statement begins with `else`. -/
theorem not_else_of_takes {ss : List Stmt} {rest : List Token}
    (h : (phrase (.declarations false)).Takes tokens ss rest) :
    (front tokens).isKeyword .else_ = false := by
  rw [Bool.eq_false_iff]
  intro other
  have first : (front tokens).kind = .keyword .else_ := Token.kind_of_isKeyword other
  obtain ⟨_, reads⟩ := Reads.of_parse (takes_phrase_iff.mp h)
  obtain ⟨_, -, reads⟩ := reads.of_phrase
  obtain ⟨_, _, closing, reads⟩ := reads.of_bind
  cases closing
  obtain ⟨_, _, ended, reads⟩ := reads.of_bind
  cases ended
  have more_ : (front tokens).isEnd = false := by rw [Token.isEnd, first]
  rw [more_, if_neg (by simp), if_neg (by simp)] at reads
  obtain ⟨_, _, declaration, -⟩ := reads.of_bind
  obtain ⟨_, -, declaration⟩ := declaration.of_phrase
  obtain ⟨_, -, declared⟩ := declaration.of_orResume
  have declared := declared.of_look_bind
  rw [first] at declared
  obtain ⟨_, -, statement⟩ := declared.of_phrase
  have statement := statement.of_look_bind
  rw [first] at statement
  obtain ⟨_, _, expression, -⟩ := statement.of_bind
  obtain ⟨_, _, _, primary⟩ := exists_reads_primary (by rw [first]; rfl) expression
  have primary := primary.of_look_bind
  rw [first] at primary
  exact primary.not_fail

end Phrase

theorem takes_of_parseProgram {tokens : List Token} {ss : List Stmt}
    (h : parseProgram tokens = ⟨ss, []⟩) :
    ∃ rest, (phrase (.declarations false)).Takes tokens ss rest := by
  unfold parseProgram at h
  generalize parsed : (Phrase.declarations false).parse tokens = outcome at h
  obtain ⟨result, noted, rest⟩ := outcome
  cases result with
  | error e => simp at h
  | ok statements =>
    cases h
    exact ⟨rest, takes_phrase_iff.mpr parsed⟩

/-- **Programs behind one another.**  Of two programs that are parsed without an error, the first one in
front of the end of its input, the tokens of the first one followed by those of the second one are
parsed into the statements of both. -/
theorem parseProgram_append {tokens more : List Token} {last : Token} {ss ss' : List Stmt}
    (isEnd : last.isEnd = true) (noEnd : ∀ t ∈ tokens, t.isEnd = false)
    (first : parseProgram (tokens ++ [last]) = ⟨ss, []⟩) (second : parseProgram more = ⟨ss', []⟩) :
    parseProgram (tokens ++ more) = ⟨ss ++ ss', []⟩ := by
  obtain ⟨_, first⟩ := takes_of_parseProgram first
  obtain ⟨_, second⟩ := takes_of_parseProgram second
  obtain ⟨fuel, reads⟩ := Reads.of_parse (takes_phrase_iff.mp first)
  have joined := Phrase.parse_declarations_append isEnd (Phrase.not_else_of_takes second) noEnd reads
  rw [takes_phrase_iff.mp second] at joined
  unfold parseProgram
  rw [joined]
  rfl

end Lox
