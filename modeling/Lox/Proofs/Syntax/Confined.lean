import Lox.Proofs.Plan.Lockstep
import Lox.Proofs.Syntax.Soundness

/-!
# The parser stays in front of the end

Tokens are read up to the first mark for the end of the input, and no further.  The parser is run on two
inputs that begin with the same tokens and the same mark, and that go on behind the mark in any way
(`Forked`).  The two runs ask for the same phrases at the same places, all of them in front of the mark,
and come to the same outcomes (`Parser.Confined`); so the one cannot have looked at what only it has.

`Phrase.agree_parse` is the result for every phrase.  It says besides that a phrase fails at the token that
it is left standing before.  `parseProgram_confined` sums up how programs are parsed: the parser comes to
an end, every round of a loop takes a token, and nothing behind the mark counts.
-/

namespace Lox

open Lox.Parser

/-! ## Inputs that go apart -/

/-- Two inputs that go apart: `body` and a mark for the end are common to both, and the mark is the first
token of `tail` and `tail'`.  An input that is empty ends there. -/
structure Forked (body tail tail' : List Token) : Prop where
  noEnd : NoEnd body
  ends : (front tail).isEnd = true
  same : front tail' = front tail

/-- Of both inputs the same part of `body` is left, and all that stands behind `body`. -/
def LeftOver (body tail tail' tokens tokens' : List Token) : Prop :=
  ∃ left, left <:+ body ∧ tokens = left ++ tail ∧ tokens' = left ++ tail'

/-- Two outcomes that do not tell the inputs apart.  Where a parser has failed, the error points at the
next token. -/
structure Outcome.Agree {α : Type} (body tail tail' : List Token) (o o' : Outcome α) : Prop where
  result : o'.result = o.result
  noted : o'.noted = o.noted
  rest : LeftOver body tail tail' o.rest o'.rest
  place : ∀ e, o.result = .error e → ∃ cause, e = .atToken (front o.rest) cause

namespace Grammar

/-- Both runs ask for the same phrase at the same place. -/
def AskedAlong (body tail tail' : List Token) (sort : PhraseSort) (q q' : Question sort) : Prop :=
  q'.phrase = q.phrase ∧ LeftOver body tail tail' q.tokens q'.tokens

/-- Both runs get the same outcome. -/
def AnsweredAlong (body tail tail' : List Token) (sort : PhraseSort) (_ _ : Question sort)
    (o o' : Answer sort) : Prop :=
  o.Agree body tail tail' o'

end Grammar

namespace Forked

variable {body tail tail' left : List Token}

/-- The next token is the same in both inputs. -/
theorem front_append (h : Forked body tail tail') (left : List Token) :
    front (left ++ tail') = front (left ++ tail) := by
  cases left with
  | nil => exact h.same
  | cons t left => rfl

/-- What does not end the input stands in the common part of both. -/
theorem exists_cons (h : Forked body tail tail') (more : (front (left ++ tail)).isEnd = false) :
    ∃ t rest, left = t :: rest := by
  cases left with
  | nil =>
    have ends := h.ends
    rw [show front tail = front ([] ++ tail) from rfl, more] at ends
    cases ends
  | cons t rest => exact ⟨t, rest, rfl⟩

theorem afterMistake_end {tokens : List Token} (ends : (front tokens).isEnd = true) :
    afterMistake tokens = tokens := by
  cases tokens with
  | nil => rfl
  | cons t rest =>
    have ends : t.isEnd = true := ends
    rw [afterMistake, if_pos ends]

/-- After a mistake both runs go on from the same place. -/
theorem afterMistake_append (h : Forked body tail tail') (noEnd : NoEnd left) :
    ∃ left', left' <:+ left ∧ afterMistake (left ++ tail) = left' ++ tail ∧
      afterMistake (left ++ tail') = left' ++ tail' := by
  induction left with
  | nil =>
    have ends' : (front tail').isEnd = true := h.same ▸ h.ends
    exact ⟨[], List.suffix_refl _, afterMistake_end h.ends, afterMistake_end ends'⟩
  | cons t rest ih =>
    have more : t.isEnd = false := noEnd t List.mem_cons_self
    obtain ⟨left', suffix, resumes, resumes'⟩ :=
      ih fun t' mem => noEnd t' (List.mem_cons_of_mem t mem)
    simp only [List.cons_append, afterMistake, more, h.front_append rest, Bool.false_eq_true, if_false]
    split
    · exact ⟨rest, List.suffix_cons t rest, rfl, rfl⟩
    · exact ⟨left', suffix.trans (List.suffix_cons t rest), resumes, resumes'⟩

end Forked

/-! ## Parsers that do not look behind the mark -/

namespace Parser

open Grammar

variable {α β : Type}

/-- Where `left` is left of the common part of both inputs, the parser goes in step on both. -/
def Confined (body tail tail' : List Token) (parser : Parser α) (left : List Token) : Prop :=
  left <:+ body → Plan.InStep (AskedAlong body tail tail') (AnsweredAlong body tail tail')
    (Outcome.Agree body tail tail') (parser (left ++ tail)) (parser (left ++ tail'))

namespace Confined

variable {body tail tail' left : List Token} {parser : Parser α}

theorem of_done {a : α} {noted : List ParseError} {left' : List Token} (suffix : left' <:+ left)
    (done : parser (left ++ tail) = .done ⟨.ok a, noted, left' ++ tail⟩)
    (done' : parser (left ++ tail') = .done ⟨.ok a, noted, left' ++ tail'⟩) :
    Confined body tail tail' parser left := by
  intro inside
  rw [done, done']
  exact .done ⟨rfl, rfl, ⟨left', suffix.trans inside, rfl, rfl⟩, nofun⟩

theorem pure (a : α) : Confined body tail tail' (Pure.pure a : Parser α) left :=
  of_done (List.suffix_refl _) rfl rfl

theorem note (t : Token) (cause : ParseError.Cause) :
    Confined body tail tail' (Parser.note t cause) left :=
  of_done (List.suffix_refl _) rfl rfl

theorem bind {next : α → Parser β} (h : Confined body tail tail' parser left)
    (h' : ∀ a left', Confined body tail tail' (next a) left') :
    Confined body tail tail' (parser >>= next) left := by
  intro inside
  apply (h inside).bind
  intro o o' agree
  obtain ⟨result, noted, rest⟩ := o
  obtain ⟨result', noted', rest'⟩ := o'
  obtain ⟨result_eq, noted_eq, ⟨left', inside', rfl, rfl⟩, place⟩ := agree
  cases result_eq
  cases noted_eq
  cases result with
  | error e =>
    refine .done ⟨rfl, rfl, ⟨left', inside', rfl, rfl⟩, fun e' same => ?_⟩
    cases same
    exact place e rfl
  | ok a =>
    apply (h' a left' inside').bind
    intro second second' agree'
    apply Plan.InStep.done
    exact { agree' with noted := congrArg (noted ++ ·) agree'.noted }

theorem map {f : α → β} (h : Confined body tail tail' parser left) :
    Confined body tail tail' (f <$> parser) left :=
  h.bind fun _ _ => pure _

theorem ite {p : Prop} [Decidable p] {yes no : Parser α} (h : Confined body tail tail' yes left)
    (h' : Confined body tail tail' no left) :
    Confined body tail tail' (if p then yes else no) left := by
  split
  · exact h
  · exact h'

theorem phrase {sort : PhraseSort} (p : Phrase sort) :
    Confined body tail tail' (Parser.phrase p) left := by
  intro inside
  apply Plan.InStep.ask ⟨rfl, left, inside, rfl, rfl⟩
  intro o o' agree
  exact .done agree

/-! ### Single tokens -/

/- The inputs go apart behind the mark. -/
variable (forked : Forked body tail tail')

include forked

theorem fail (cause : ParseError.Cause) :
    Confined body tail tail' (Parser.fail cause : Parser α) left := by
  intro inside
  unfold Parser.fail
  rw [forked.front_append left]
  refine .done ⟨rfl, rfl, ⟨left, inside, rfl, rfl⟩, fun e same => ⟨cause, ?_⟩⟩
  cases same
  rfl

theorem sees (s : Symbol) : Confined body tail tail' (Parser.sees s) left :=
  of_done (List.suffix_refl _) rfl (by rw [Parser.sees, forked.front_append left])

theorem atEnd : Confined body tail tail' Parser.atEnd left :=
  of_done (List.suffix_refl _) rfl (by rw [Parser.atEnd, forked.front_append left])

/-- A parser that goes on as the next token says. -/
theorem look_bind {next : Token → Parser β}
    (h : Confined body tail tail' (next (front (left ++ tail))) left) :
    Confined body tail tail' (Parser.look >>= next) left := by
  intro inside
  have looked (tokens : List Token) : (Parser.look >>= next) tokens = next (front tokens) tokens := by
    show (next (front tokens) tokens >>= fun second =>
      Plan.done { second with noted := [] ++ second.noted }) = _
    exact Plan.bind_done _
  rw [looked, looked, forked.front_append left]
  exact h inside

/-- A token is skipped only where it is not the mark. -/
theorem skip_bind {next : Unit → Parser β} {kind : Kind} (same : (front (left ++ tail)).kind = kind)
    (ne : kind ≠ .endOfInput) (h : ∀ left', Confined body tail tail' (next ()) left') :
    Confined body tail tail' (Parser.skip >>= next) left := by
  -- The token is none of the mark's kind, so it is in the common part, and so is what follows it.
  obtain ⟨t, rest, rfl⟩ := forked.exists_cons (isEnd_of_kind same ne)
  have first : Confined body tail tail' Parser.skip (t :: rest) :=
    of_done (List.suffix_cons t rest) rfl rfl
  exact first.bind fun _ => h

/-- The second token is looked at only where the first one is not the mark. -/
theorem seesNameSecond_bind {next : Bool → Parser β} {kind : Kind}
    (same : (front (left ++ tail)).kind = kind) (ne : kind ≠ .endOfInput)
    (h : ∀ second, Confined body tail tail' (next second) left) :
    Confined body tail tail' (Parser.seesNameSecond >>= next) left := by
  obtain ⟨t, rest, rfl⟩ := forked.exists_cons (isEnd_of_kind same ne)
  intro inside
  have seen (tokens : List Token) : (Parser.seesNameSecond >>= next) (t :: tokens) =
      next (front tokens).isName (t :: tokens) := by
    show (next (front tokens).isName (t :: tokens) >>= fun second =>
      Plan.done { second with noted := [] ++ second.noted }) = _
    exact Plan.bind_done _
  rw [List.cons_append, List.cons_append, seen, seen, forked.front_append rest]
  exact h _ inside

theorem accept (s : Symbol) : Confined body tail tail' (Parser.accept s) left := by
  by_cases seen : (front (left ++ tail)).isSymbol s = true
  · obtain ⟨t, rest, rfl⟩ := forked.exists_cons (isEnd_of_kind (Token.kind_of_isSymbol seen) nofun)
    exact of_done (List.suffix_cons t rest) (by rw [Parser.accept, if_pos seen]; rfl)
      (by rw [Parser.accept, forked.front_append, if_pos seen]; rfl)
  · exact of_done (List.suffix_refl _) (by rw [Parser.accept, if_neg seen])
      (by rw [Parser.accept, forked.front_append, if_neg seen])

theorem acceptWord (k : Keyword) : Confined body tail tail' (Parser.acceptWord k) left := by
  by_cases seen : (front (left ++ tail)).isKeyword k = true
  · obtain ⟨t, rest, rfl⟩ := forked.exists_cons (isEnd_of_kind (Token.kind_of_isKeyword seen) nofun)
    exact of_done (List.suffix_cons t rest) (by rw [Parser.acceptWord, if_pos seen]; rfl)
      (by rw [Parser.acceptWord, forked.front_append, if_pos seen]; rfl)
  · exact of_done (List.suffix_refl _) (by rw [Parser.acceptWord, if_neg seen])
      (by rw [Parser.acceptWord, forked.front_append, if_neg seen])

theorem expect (s : Symbol) (spot : ParseError.Spot) :
    Confined body tail tail' (Parser.expect s spot) left := by
  by_cases seen : (front (left ++ tail)).isSymbol s = true
  · obtain ⟨t, rest, rfl⟩ := forked.exists_cons (isEnd_of_kind (Token.kind_of_isSymbol seen) nofun)
    exact of_done (List.suffix_cons t rest) (by rw [Parser.expect, if_pos seen]; rfl)
      (by rw [Parser.expect, forked.front_append, if_pos seen]; rfl)
  · intro inside
    rw [Parser.expect, if_neg seen, Parser.expect, forked.front_append, if_neg seen]
    exact fail forked _ inside

theorem expectName (role : ParseError.NameRole) :
    Confined body tail tail' (Parser.expectName role) left := by
  intro inside
  unfold Parser.expectName
  rw [forked.front_append]
  simp only
  split
  · rename_i name kind
    obtain ⟨t, rest, rfl⟩ := forked.exists_cons (isEnd_of_kind kind nofun)
    exact .done ⟨rfl, rfl, ⟨rest, (List.suffix_cons t rest).trans inside, rfl, rfl⟩, nofun⟩
  · exact fail forked _ inside

omit forked in
theorem optional {present : Parser Bool} (h : Confined body tail tail' present left)
    (h' : ∀ left', Confined body tail tail' parser left') :
    Confined body tail tail' (Parser.optional present parser) left :=
  h.bind fun _ left' => ite (h' left').map (pure _)

theorem unlessAt (s : Symbol) (h : ∀ left', Confined body tail tail' parser left') :
    Confined body tail tail' (Parser.unlessAt s parser) left :=
  (sees forked s).bind fun _ left' => ite (pure _) (h left').map

theorem limitTo (count : Nat) (cause : ParseError.Cause) :
    Confined body tail tail' (Parser.limitTo count cause) left :=
  look_bind forked (ite (note _ _) (pure _))

/-! ### Functions -/

theorem parameters : Confined body tail tail' Parser.parameters left := by
  apply (unlessAt forked _ fun _ => phrase (.parameters 0)).bind
  intro names left
  apply (expect forked _ _).bind
  intro _ left
  exact pure _

theorem block : Confined body tail tail' Parser.block left := by
  apply (phrase (.declarations true)).bind
  intro statements left
  apply (expect forked _ _).bind
  intro _ left
  exact pure _

theorem functionFrom (sort : FunctionSort) (name : FunctionName) :
    Confined body tail tail' (Parser.functionFrom sort name) left := by
  apply (parameters forked).bind
  intro names left
  apply (expect forked _ _).bind
  intro _ left
  exact (block forked).bind fun _ _ => pure _

theorem namedFunction (sort : FunctionSort) :
    Confined body tail tail' (Parser.namedFunction sort) left := by
  apply (expectName forked _).bind
  intro name left
  apply (expect forked _ _).bind
  intro _ left
  exact functionFrom forked sort (.named name)

/-! ### Statements -/

theorem classDeclaration : Confined body tail tail' Parser.classDeclaration left := by
  apply (expectName forked _).bind
  intro name left
  apply (optional (accept forked _) fun _ => expectName forked _).bind
  intro superclass left
  apply (expect forked _ _).bind
  intro _ left
  apply (phrase .methods).bind
  intro methods left
  exact (expect forked _ _).bind fun _ _ => pure _

theorem varDeclaration : Confined body tail tail' Parser.varDeclaration left := by
  apply (expectName forked _).bind
  intro name left
  apply (optional (accept forked _) fun _ => phrase .expression).bind
  intro initial left
  exact (expect forked _ _).bind fun _ _ => pure _

theorem expressionStatement : Confined body tail tail' Parser.expressionStatement left := by
  apply (phrase .expression).bind
  intro value left
  exact (expect forked _ _).bind fun _ _ => pure _

theorem ifStatement : Confined body tail tail' Parser.ifStatement left := by
  apply (expect forked _ _).bind
  intro _ left
  apply (phrase .expression).bind
  intro condition left
  apply (expect forked _ _).bind
  intro _ left
  apply (phrase .statement).bind
  intro yes left
  exact (optional (acceptWord forked _) fun _ => phrase .statement).bind fun _ _ => pure _

theorem whileStatement : Confined body tail tail' Parser.whileStatement left := by
  apply (expect forked _ _).bind
  intro _ left
  apply (phrase .expression).bind
  intro condition left
  apply (expect forked _ _).bind
  intro _ left
  exact (phrase .statement).bind fun _ _ => pure _

theorem forInitializer : Confined body tail tail' Parser.forInitializer left := by
  apply (accept forked _).bind
  intro none left
  apply ite (pure _)
  apply (acceptWord forked _).bind
  intro declares left
  exact ite (varDeclaration forked).map (expressionStatement forked).map

theorem forStatement : Confined body tail tail' Parser.forStatement left := by
  apply (expect forked _ _).bind
  intro _ left
  apply (forInitializer forked).bind
  intro initial left
  apply (unlessAt forked _ fun _ => phrase .expression).bind
  intro condition left
  apply (expect forked _ _).bind
  intro _ left
  apply (unlessAt forked _ fun _ => phrase .expression).bind
  intro increment left
  apply (expect forked _ _).bind
  intro _ left
  exact (phrase .statement).bind fun _ _ => pure _

theorem returnStatement (keyword : Word) :
    Confined body tail tail' (Parser.returnStatement keyword) left := by
  apply (unlessAt forked _ fun _ => phrase .expression).bind
  intro value left
  exact (expect forked _ _).bind fun _ _ => pure _

theorem printStatement (line : Nat) : Confined body tail tail' (Parser.printStatement line) left := by
  apply (phrase .expression).bind
  intro value left
  exact (expect forked _ _).bind fun _ _ => pure _

theorem statement : Confined body tail tail' Parser.statement left := by
  apply look_bind forked
  split
  · rename_i kind
    exact skip_bind forked kind (by simp) fun _ => ifStatement forked
  · rename_i kind
    exact skip_bind forked kind (by simp) fun _ => printStatement forked _
  · rename_i kind
    exact skip_bind forked kind (by simp) fun _ => returnStatement forked _
  · rename_i kind
    exact skip_bind forked kind (by simp) fun _ => (block forked).bind fun _ _ => pure _
  · rename_i kind
    exact skip_bind forked kind (by simp) fun _ => whileStatement forked
  · rename_i kind
    exact skip_bind forked kind (by simp) fun _ => forStatement forked
  · exact expressionStatement forked

theorem declare : Confined body tail tail' Parser.declare left := by
  apply look_bind forked
  split
  · rename_i kind
    exact skip_bind forked kind (by simp) fun _ => classDeclaration forked
  · rename_i kind
    apply seesNameSecond_bind forked kind nofun
    intro named
    exact ite (skip_bind forked kind nofun fun _ => (namedFunction forked _).map) (phrase .statement)
  · rename_i kind
    exact skip_bind forked kind (by simp) fun _ => varDeclaration forked
  · exact phrase .statement

/-! ### Expressions -/

omit forked in
theorem assignTo (target : Expr) (equals : Token) (value : Expr) :
    Confined body tail tail' (Parser.assignTo target equals value) left := by
  unfold Parser.assignTo
  split
  · exact pure _
  · exact pure _
  · exact (note _ _).bind fun _ _ => pure _

theorem primary : Confined body tail tail' Parser.primary left := by
  apply look_bind forked
  split
  · rename_i kind
    exact skip_bind forked kind (by simp) fun _ => pure _
  · rename_i kind
    exact skip_bind forked kind (by simp) fun _ => pure _
  · rename_i kind
    exact skip_bind forked kind (by simp) fun _ => pure _
  · rename_i kind
    exact skip_bind forked kind (by simp) fun _ => pure _
  · rename_i kind
    exact skip_bind forked kind (by simp) fun _ => pure _
  · rename_i kind
    exact skip_bind forked kind (by simp) fun _ => pure _
  · rename_i kind
    exact skip_bind forked kind (by simp) fun _ => pure _
  · rename_i kind
    apply skip_bind forked kind (by simp)
    intro left
    apply (expect forked _ _).bind
    intro _ left
    exact (expectName forked _).bind fun _ _ => pure _
  · rename_i kind
    apply skip_bind forked kind (by simp)
    intro left
    apply (expect forked _ _).bind
    intro _ left
    exact (functionFrom forked _ _).map
  · rename_i kind
    apply skip_bind forked kind (by simp)
    intro left
    apply (phrase .expression).bind
    intro inner left
    exact (expect forked _ _).bind fun _ _ => pure _
  · exact fail forked _

theorem callOf (callee : Expr) : Confined body tail tail' (Parser.callOf callee) left := by
  apply (unlessAt forked _ fun _ => phrase (.arguments 0)).bind
  intro arguments left
  exact (expect forked _ _).bind fun _ _ => pure _

/-! ### Phrases -/

theorem expression : Confined body tail tail' Phrase.expression.parser left := by
  apply (phrase (.operation Level.or)).bind
  intro target left
  apply look_bind forked
  apply (accept forked _).bind
  intro assigns left
  exact ite ((phrase .expression).bind fun _ _ => assignTo _ _ _) (pure _)

theorem operators (level : Nat) (operand : Expr) :
    Confined body tail tail' (Phrase.operators level operand).parser left := by
  apply look_bind forked
  split
  · exact pure _
  · rename_i c known
    have kind := (Connective.kind_of_ofKind? known).symm
    refine ite (skip_bind forked kind (by cases c <;> nofun) fun _ => ?_) (pure _)
    exact (phrase (.operation (c.level + 1))).bind fun _ _ => phrase _

theorem unary : Confined body tail tail' Phrase.unary.parser left := by
  apply look_bind forked
  split
  · rename_i op known
    apply skip_bind forked (UnaryOp.symbol_of_ofKind? known).symm nofun
    intro left
    exact (phrase .unary).bind fun _ _ => pure _
  · exact (phrase .primary).bind fun _ _ => phrase _

theorem accesses (object : Expr) :
    Confined body tail tail' (Phrase.accesses object).parser left := by
  apply (accept forked _).bind
  intro calls left
  apply ite ((callOf forked object).bind fun _ _ => phrase _)
  apply (accept forked _).bind
  intro gets left
  exact ite ((expectName forked _).bind fun _ _ => phrase _) (pure _)

theorem arguments (count : Nat) :
    Confined body tail tail' (Phrase.arguments count).parser left := by
  apply (limitTo forked _ _).bind
  intro _ left
  apply (phrase .expression).bind
  intro argument left
  apply (accept forked _).bind
  intro more left
  exact ite ((phrase (.arguments (count + 1))).bind fun _ _ => pure _) (pure _)

theorem parametersFrom (count : Nat) :
    Confined body tail tail' (Phrase.parameters count).parser left := by
  apply (limitTo forked _ _).bind
  intro _ left
  apply (expectName forked _).bind
  intro name left
  apply (accept forked _).bind
  intro more left
  exact ite ((phrase (.parameters (count + 1))).bind fun _ _ => pure _) (pure _)

/-- A declaration that has failed is resumed from at the same place in both inputs. -/
theorem declaration : Confined body tail tail' Phrase.declaration.parser left := by
  intro inside
  apply (declare forked inside).bind
  intro o o' agree
  obtain ⟨result, noted, rest⟩ := o
  obtain ⟨result', noted', rest'⟩ := o'
  obtain ⟨result_eq, noted_eq, ⟨left', inside', rfl, rfl⟩, place⟩ := agree
  cases result_eq
  cases noted_eq
  cases result with
  | ok s => exact .done ⟨rfl, rfl, ⟨left', inside', rfl, rfl⟩, nofun⟩
  | error e =>
    -- Both runs have failed at the same place, and they look for a boundary in the common part only.
    have noEnd : NoEnd left' := fun t mem => forked.noEnd t (inside'.subset mem)
    obtain ⟨left'', suffix, resumes, resumes'⟩ := forked.afterMistake_append noEnd
    exact .done ⟨rfl, rfl, ⟨left'', suffix.trans inside', resumes, resumes'⟩, nofun⟩

theorem declarations (inBlock : Bool) :
    Confined body tail tail' (Phrase.declarations inBlock).parser left := by
  apply (sees forked _).bind
  intro closing left
  apply (atEnd forked).bind
  intro ends left
  apply ite (pure _)
  apply ite (pure _)
  apply (phrase .declaration).bind
  intro first left
  exact (phrase (.declarations inBlock)).bind fun _ _ => pure _

theorem methods : Confined body tail tail' Phrase.methods.parser left := by
  apply (atEnd forked).bind
  intro ends left
  apply ite (pure _)
  apply (sees forked _).bind
  intro closing left
  apply ite (pure _)
  apply (namedFunction forked _).bind
  intro first left
  exact (phrase .methods).bind fun _ _ => pure _

/-- No phrase looks behind the mark. -/
theorem rule {sort : PhraseSort} (p : Phrase sort) (left : List Token) :
    Confined body tail tail' p.parser left := by
  cases p with
  | expression => exact expression forked
  | operation level => exact (phrase .unary).bind fun _ _ => phrase _
  | operators level operand => exact operators forked level operand
  | unary => exact unary forked
  | accesses object => exact accesses forked object
  | primary => exact primary forked
  | arguments count => exact arguments forked count
  | parameters count => exact parametersFrom forked count
  | statement => exact statement forked
  | declaration => exact declaration forked
  | declarations inBlock => exact declarations forked inBlock
  | methods => exact methods forked

end Confined

end Parser

/-! ## The grammar as a whole -/

section Parse

variable {body tail tail' : List Token}

/-- The rules keep in step on both inputs. -/
theorem Forked.keeps (forked : Forked body tail tail') (sort : PhraseSort)
    (q q' : Grammar.Question sort) (asked : Grammar.AskedAlong body tail tail' sort q q') :
    (grammar sort q).InStep (Grammar.AskedAlong body tail tail')
      (Grammar.AnsweredAlong body tail tail')
      (Rules.SettlesInStep (Grammar.AskedAlong body tail tail')
        (Grammar.AnsweredAlong body tail tail') q q') (grammar sort q') := by
  obtain ⟨p, tokens⟩ := q
  obtain ⟨p', tokens'⟩ := q'
  obtain ⟨rfl, left, inside, rfl, rfl⟩ := asked
  apply (Parser.Confined.rule forked p' left inside).bind
  intro o o' agree
  exact .done (.answer agree)

/-- **A phrase is parsed alike from both inputs**, and where it fails, the error points at the token
that it is left standing before. -/
theorem Phrase.agree_parse (forked : Forked body tail tail') {left : List Token}
    (inside : left <:+ body) {sort : PhraseSort} (p : Phrase sort) :
    (p.parse (left ++ tail)).Agree body tail tail' (p.parse (left ++ tail')) := by
  have asked : Grammar.AskedAlong body tail tail' sort ⟨p, left ++ tail⟩ ⟨p, left ++ tail'⟩ :=
    ⟨rfl, left, inside, rfl, rfl⟩
  obtain ⟨outcome, ⟨fuel, found⟩, agree⟩ := Rules.Answers.inStep forked.keeps asked
    ⟨_, p.solve_eq_parse (left ++ tail)⟩
  rw [Phrase.parse_of_solve found]
  exact agree

theorem parseProgram_of_forked (forked : Forked body tail tail') :
    parseProgram (body ++ tail') = parseProgram (body ++ tail) := by
  have agree := Phrase.agree_parse forked (List.suffix_refl body) (.declarations false)
  simp only [parseProgram, agree.result, agree.noted]

end Parse

/-! ## The places that the parser comes to -/

/-- `place` is what is left of `tokens`, and no mark for the end stands in front of it. -/
def Ahead (tokens place : List Token) : Prop :=
  ∃ taken, tokens = taken ++ place ∧ NoEnd taken

/-- There is a mark for the end, or the input ends because it is empty. -/
def Closed (tokens : List Token) : Prop :=
  tokens = [] ∨ ∃ t ∈ tokens, t.isEnd = true

/-- A loop of the parser, which goes round by asking for the same phrase again. -/
inductive Loop where
  | declarations (inBlock : Bool)
  | methods
  | arguments
  | parameters
  | operators (level : Nat)
  | accesses
  deriving DecidableEq, Repr

/-- The loop that a phrase is a round of. -/
def Phrase.loop? : {sort : PhraseSort} → Phrase sort → Option Loop
  | _, .declarations inBlock => some (.declarations inBlock)
  | _, .methods => some .methods
  | _, .arguments _ => some .arguments
  | _, .parameters _ => some .parameters
  | _, .operators level _ => some (.operators level)
  | _, .accesses _ => some .accesses
  | _, _ => none

theorem Phrase.rank_of_loop? {sort sort' : PhraseSort} {p : Phrase sort} {p' : Phrase sort'}
    {loop : Loop} (round : p.loop? = some loop) (round' : p'.loop? = some loop) :
    p'.rank = p.rank := by
  cases loop <;> cases p <;> cases round <;> cases p' <;> cases round' <;> rfl

namespace Grammar

/-- The rule for `q` asks `q'`, once what it has asked before is answered. -/
def Asks {sort sort' : PhraseSort} (q : Question sort) (q' : Question sort') : Prop :=
  ∃ next, (grammar sort q).Reaches grammar.Answers (.ask q' next)

/-- A question is asked only if it is smaller. -/
theorem Asks.measure_lt {sort sort' : PhraseSort} {q : Question sort} {q' : Question sort'}
    (asks : Asks q q') : q'.measure < q.measure := by
  obtain ⟨next, reaches⟩ := asks
  have ensures : (grammar sort q).Ensures (fun _ q₁ => q₁.measure < q.measure)
      (fun _ q₁ o => Taken q₁ o) fun _ => True :=
    Plan.Ensures.bind (Grammar.ensures q.phrase q.tokens) fun _ _ => trivial
  have sound sort (q₁ : Question sort) (o : Answer sort) (_ : q₁.measure < q.measure)
      (known : grammar.Answers sort q₁ o) : Taken q₁ o := by
    obtain ⟨fuel, found⟩ := known
    rw [← Phrase.parse_of_solve found]
    exact q₁.phrase.taken_parse q₁.tokens
  exact (Plan.Ensures.reaches sound reaches ensures).1

/-- While a program is parsed from `tokens`, the parser comes to `place`: a phrase is asked for there, or
it ends there. -/
def Visits (tokens place : List Token) : Prop :=
  ∃ (sort : PhraseSort) (q : Question sort),
    grammar.Arises (⟨.declarations false, tokens⟩ : Question .statements) q ∧
      (place = q.tokens ∨ ∃ outcome, grammar.Answers sort q outcome ∧ place = outcome.rest)

end Grammar

/-- How programs are parsed. -/
structure ParsesWithin (tokens : List Token) : Prop where
  /-- The parser comes to its end after finitely many steps. -/
  ends : ∃ fuel, grammar.run fuel ⟨.declarations false, tokens⟩ =
    some ((Phrase.declarations false).parse tokens)
  /-- It does not move behind the first mark for the end. -/
  cursor : ∀ place, Grammar.Visits tokens place → Ahead tokens place
  /-- Unless there are no tokens at all, it always stands before one of them, and if that one is not a
  mark for the end, there is one behind it to look at. -/
  looks : tokens ≠ [] → ∀ place, Grammar.Visits tokens place → front place ∈ tokens ∧
    ((front place).isEnd = false → front (place.drop 1) ∈ tokens)
  /-- A loop goes round only with fewer tokens. -/
  rounds : ∀ {sort sort' : PhraseSort} (q : Grammar.Question sort) (q' : Grammar.Question sort') loop,
    Grammar.Asks q q' → q.phrase.loop? = some loop → q'.phrase.loop? = some loop →
      q'.tokens.length < q.tokens.length
  /-- After a mistake a token is dropped if there is one, and a mark for the end is not passed. -/
  recovery : ∀ place, Ahead tokens place → Ahead place (afterMistake place) ∧
    ((front place).isEnd = false → (afterMistake place).length < place.length)
  /-- What follows the first mark does not count. -/
  unseen : ∀ body last after after', tokens = body ++ last :: after → NoEnd body →
    last.isEnd = true → parseProgram (body ++ last :: after') = parseProgram tokens

namespace Ahead

variable {tokens place : List Token}

/-- What is ahead of tokens that are closed is closed, and there is something. -/
theorem exists_end (h : Ahead tokens place) (closed : ∃ t ∈ tokens, t.isEnd = true) :
    ∃ t ∈ place, t.isEnd = true := by
  obtain ⟨taken, rfl, noEnd⟩ := h
  obtain ⟨t, mem, ends⟩ := closed
  rcases List.mem_append.mp mem with mem | mem
  · rw [noEnd t mem] at ends
    cases ends
  · exact ⟨t, mem, ends⟩

theorem front_mem (h : Ahead tokens place) (closed : ∃ t ∈ tokens, t.isEnd = true) :
    front place ∈ tokens := by
  obtain ⟨t, mem, _⟩ := h.exists_end closed
  obtain ⟨taken, rfl, _⟩ := h
  cases place with
  | nil => cases mem
  | cons first rest => exact List.mem_append_right taken List.mem_cons_self

/-- Behind a token that is not a mark there is another place. -/
theorem drop_one (h : Ahead tokens place) (more : (front place).isEnd = false) :
    Ahead tokens (place.drop 1) := by
  obtain ⟨taken, rfl, noEnd⟩ := h
  cases place with
  | nil => cases more
  | cons first rest =>
    refine ⟨taken ++ [first], by simp, NoEnd.append.mpr ⟨noEnd, ?_⟩⟩
    intro t mem
    rw [List.mem_singleton.mp mem]
    exact more

end Ahead

/-- After a mistake no mark for the end is passed. -/
theorem ahead_afterMistake (tokens : List Token) : Ahead tokens (afterMistake tokens) := by
  obtain ⟨skipped, split, noEnd⟩ := Phrase.exists_skipped_of_afterMistake tokens
  exact ⟨skipped, split.symm, noEnd⟩

/-- What stands in front of the first mark, and what follows it, twice. -/
theorem exists_forked (tokens : List Token) :
    ∃ body tail, tokens = body ++ tail ∧ Forked body tail tail := by
  induction tokens with
  | nil => exact ⟨[], [], rfl, NoEnd.nil, rfl, rfl⟩
  | cons t rest ih =>
    cases ends : t.isEnd with
    | true => exact ⟨[], t :: rest, rfl, NoEnd.nil, ends, rfl⟩
    | false =>
      obtain ⟨body, tail, rfl, noEnd, ends', _⟩ := ih
      refine ⟨t :: body, tail, rfl, ?_, ends', rfl⟩
      intro t' mem
      rcases List.mem_cons.mp mem with rfl | mem
      · exact ends
      · exact noEnd t' mem

/-- **The parser comes to an end on every input, and it does not pass the first mark.** -/
theorem parseProgram_confined (tokens : List Token) (closed : Closed tokens) : ParsesWithin tokens := by
  -- The input is compared with itself: in step with the same run, no place is behind the mark.
  obtain ⟨body, tail, rfl, forked⟩ := exists_forked tokens
  have start : Grammar.AskedAlong body tail tail .statements
      ⟨.declarations false, body ++ tail⟩ ⟨.declarations false, body ++ tail⟩ :=
    ⟨rfl, body, List.suffix_refl _, rfl, rfl⟩
  have ahead {place place' : List Token} (left : LeftOver body tail tail place place') :
      Ahead (body ++ tail) place := by
    obtain ⟨left, ⟨taken, rfl⟩, rfl, rfl⟩ := left
    exact ⟨taken, List.append_assoc _ _ _, (NoEnd.append.mp forked.noEnd).1⟩
  have cursor place (visits : Grammar.Visits (body ++ tail) place) : Ahead (body ++ tail) place := by
    obtain ⟨sort, q, arises, here⟩ := visits
    obtain ⟨q', _, asked⟩ := arises.inStep forked.keeps start
    rcases here with rfl | ⟨outcome, known, rfl⟩
    · exact ahead asked.2
    · obtain ⟨outcome', _, agree⟩ := known.inStep forked.keeps asked
      exact ahead agree.rest
  refine ⟨?ends, cursor, ?looks, ?rounds, ?recovery, ?unseen⟩
  case ends => exact (grammar.exists_run_iff _ _).mpr ⟨_, Phrase.solve_eq_parse _ _⟩
  case looks =>
    intro some place visits
    have marked : ∃ t ∈ body ++ tail, t.isEnd = true := closed.resolve_left some
    have here := cursor place visits
    exact ⟨here.front_mem marked, fun more => (here.drop_one more).front_mem marked⟩
  case rounds =>
    intro sort sort' q q' loop asks round round'
    -- The measure counts tokens first and ranks phrases second, and the ranks are the same.
    have lt := asks.measure_lt
    have same := Phrase.rank_of_loop? round round'
    unfold Grammar.Question.measure at lt
    omega
  case recovery => exact fun place _ => ⟨ahead_afterMistake place, length_afterMistake_lt⟩
  case unseen =>
    intro body' last after after' same noEnd ends
    rw [same]
    exact parseProgram_of_forked ⟨noEnd, ends, rfl⟩

/-- A lone `print` is a mistake, and the semicolon behind the end does not help. -/
theorem parsesWithin_lonePrint :
    let tokens : List Token :=
      [⟨.keyword .print_, "print", 1⟩, ⟨.endOfInput, "", 1⟩, ⟨.symbol .semicolon, ";", 2⟩]
    Closed tokens ∧ ParsesWithin tokens := by
  intro tokens
  have closed : Closed tokens := .inr ⟨⟨.endOfInput, "", 1⟩, by simp [tokens], rfl⟩
  exact ⟨closed, parseProgram_confined tokens closed⟩

end Lox
