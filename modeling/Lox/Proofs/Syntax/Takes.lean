import Lox.Syntax.Program

/-!
# What parsers take without an error

`parser.Takes tokens a rest` says that a parser, run from `tokens`, builds `a` without noting an error
and leaves `rest`.  There is one rule for each way of making a parser, so that what a parser takes can
be followed token by token.
-/

namespace Lox

namespace Parser

variable {α β : Type} {parser : Parser α} {tokens rest : List Token} {a : α} {b : β}

/-! ## Sequences -/

/-- What follows a parser that succeeds goes on from where it is done. -/
theorem eval_bind_of_ok {next : α → Parser β} {between : List Token} {noted : List ParseError}
    {answer? : (sort : PhraseSort) → Grammar.Question sort → Option (Grammar.Answer sort)}
    (first : (parser tokens).eval answer? = some ⟨.ok a, noted, between⟩) :
    ((parser >>= next) tokens).eval answer? = ((next a between).eval answer?).map fun second =>
      ⟨second.result, noted ++ second.noted, second.rest⟩ := by
  show (andThen parser next tokens).eval answer? = _
  rw [andThen, Plan.eval_bind, first, Option.bind_some, Plan.eval_bind]
  cases (next a between).eval answer? <;> rfl

theorem eval_map (f : α → β)
    (answer? : (sort : PhraseSort) → Grammar.Question sort → Option (Grammar.Answer sort)) :
    ((f <$> parser) tokens).eval answer? = ((parser tokens).eval answer?).map fun first =>
      ⟨first.result.map f, first.noted, first.rest⟩ := by
  show (andThen parser (fun a => succeed (f a)) tokens).eval answer? = _
  rw [andThen, Plan.eval_bind]
  cases (parser tokens).eval answer? with
  | none => rfl
  | some first =>
    obtain ⟨result, noted, rest⟩ := first
    cases result with
    | error e => rfl
    | ok a =>
      show some (Outcome.mk (.ok (f a)) (noted ++ []) rest) = _
      rw [List.append_nil]
      rfl

/-! ## What is taken -/

/-- Run from `tokens`, the parser builds `a` without an error and leaves `rest`. -/
def Takes (parser : Parser α) (tokens : List Token) (a : α) (rest : List Token) : Prop :=
  (parser tokens).eval (fun _ q => some (q.phrase.parse q.tokens)) = some ⟨.ok a, [], rest⟩

theorem takes_phrase_iff {sort : PhraseSort} {p : Phrase sort} {tree : sort.Tree} :
    (phrase p).Takes tokens tree rest ↔ p.parse tokens = ⟨.ok tree, [], rest⟩ :=
  Option.some.injEq .. ▸ Iff.rfl

namespace Takes

theorem pure (a : α) : (Pure.pure a : Parser α).Takes tokens a tokens := rfl

theorem bind {next : α → Parser β} {between : List Token} (h : parser.Takes tokens a between)
    (h' : (next a).Takes between b rest) : (parser >>= next).Takes tokens b rest := by
  unfold Takes at h h' ⊢
  change (andThen parser next tokens).eval _ = _
  rw [andThen, Plan.eval_bind, h, Option.bind_some, Plan.eval_bind, h']
  rfl

theorem map (f : α → β) (h : parser.Takes tokens a rest) : (f <$> parser).Takes tokens (f a) rest :=
  bind h (pure _)

/-- A phrase is taken if its rule takes it. -/
theorem phrase {sort : PhraseSort} {p : Phrase sort} {tree : sort.Tree}
    (h : p.parser.Takes tokens tree rest) : (Parser.phrase p).Takes tokens tree rest := by
  rw [takes_phrase_iff]
  unfold Takes at h
  rw [Phrase.eval_parse, Option.some.injEq] at h
  exact h

/-! ### Tokens -/

theorem look : Parser.look.Takes tokens (front tokens) tokens := rfl

theorem skip {t : Token} : Parser.skip.Takes (t :: tokens) () tokens := rfl

theorem sees (s : Symbol) : (Parser.sees s).Takes tokens ((front tokens).isSymbol s) tokens := rfl

theorem seesNameSecond :
    Parser.seesNameSecond.Takes tokens (front (tokens.drop 1)).isName tokens := rfl

theorem atEnd : Parser.atEnd.Takes tokens (front tokens).isEnd tokens := rfl

theorem look_bind {next : Token → Parser β} (h : (next (front tokens)).Takes tokens b rest) :
    (Parser.look >>= next).Takes tokens b rest :=
  bind look h

theorem skip_bind {t : Token} {next : Unit → Parser β} (h : (next ()).Takes tokens b rest) :
    (Parser.skip >>= next).Takes (t :: tokens) b rest :=
  bind skip h

theorem sees_bind {s : Symbol} {next : Bool → Parser β}
    (h : (next ((front tokens).isSymbol s)).Takes tokens b rest) :
    (Parser.sees s >>= next).Takes tokens b rest :=
  bind (sees s) h

theorem seesNameSecond_bind {next : Bool → Parser β}
    (h : (next (front (tokens.drop 1)).isName).Takes tokens b rest) :
    (Parser.seesNameSecond >>= next).Takes tokens b rest :=
  bind seesNameSecond h

theorem atEnd_bind {next : Bool → Parser β}
    (h : (next (front tokens).isEnd).Takes tokens b rest) :
    (Parser.atEnd >>= next).Takes tokens b rest :=
  bind atEnd h

theorem accept {t : Token} {s : Symbol} (same : t.isSymbol s = true) :
    (Parser.accept s).Takes (t :: tokens) true tokens := by
  unfold Takes Parser.accept
  rw [if_pos (show (front (t :: tokens)).isSymbol s = true from same)]
  rfl

theorem not_accept {s : Symbol} (other : (front tokens).isSymbol s = false) :
    (Parser.accept s).Takes tokens false tokens := by
  unfold Takes Parser.accept
  rw [if_neg (by simp [other])]
  rfl

theorem acceptWord {t : Token} {k : Keyword} (same : t.isKeyword k = true) :
    (Parser.acceptWord k).Takes (t :: tokens) true tokens := by
  unfold Takes Parser.acceptWord
  rw [if_pos (show (front (t :: tokens)).isKeyword k = true from same)]
  rfl

theorem not_acceptWord {k : Keyword} (other : (front tokens).isKeyword k = false) :
    (Parser.acceptWord k).Takes tokens false tokens := by
  unfold Takes Parser.acceptWord
  rw [if_neg (by simp [other])]
  rfl

theorem expect {t : Token} {s : Symbol} (spot : ParseError.Spot) (same : t.isSymbol s = true) :
    (Parser.expect s spot).Takes (t :: tokens) t tokens := by
  unfold Takes Parser.expect
  rw [if_pos (show (front (t :: tokens)).isSymbol s = true from same)]
  rfl

theorem expectName (role : ParseError.NameRole) (name : String) (lexeme : String) (line : Nat) :
    (Parser.expectName role).Takes (⟨.identifier name, lexeme, line⟩ :: tokens) ⟨name, lexeme, line⟩
      tokens :=
  rfl

theorem limitTo {count : Nat} (cause : ParseError.Cause) (few : count < maxArguments) :
    (Parser.limitTo count cause).Takes tokens () tokens := by
  refine look_bind ?_
  rw [if_neg (Nat.not_le_of_lt few)]
  exact pure ()

theorem orResume {resume : List Token → List Token} (h : parser.Takes tokens a rest) :
    (parser.orResume resume).Takes tokens (some a) rest := by
  unfold Takes at h ⊢
  rw [Parser.orResume, Plan.eval_bind, h]
  rfl

/-! ### What may be missing -/

theorem optional {present : Parser Bool} {between : List Token} (there : present.Takes tokens true between)
    (h : parser.Takes between a rest) : (Parser.optional present parser).Takes tokens (some a) rest :=
  bind there (map some h)

theorem not_optional {present : Parser Bool} (missing : present.Takes tokens false rest) :
    (Parser.optional present parser).Takes tokens none rest :=
  bind missing (pure none)

theorem unlessAt {s : Symbol} (other : (front tokens).isSymbol s = false)
    (h : parser.Takes tokens a rest) : (Parser.unlessAt s parser).Takes tokens (some a) rest := by
  refine sees_bind ?_
  rw [other]
  exact map some h

theorem not_unlessAt {s : Symbol} (same : (front tokens).isSymbol s = true) :
    (Parser.unlessAt s parser).Takes tokens none tokens := by
  refine sees_bind ?_
  rw [same]
  exact pure none

end Takes

end Parser

/-- A declaration is followed by those behind it. -/
theorem Phrase.parse_declarations_cons {tokens between : List Token} {found : Option Stmt}
    {noted : List ParseError} {inBlock : Bool} (more : (Parser.front tokens).isEnd = false)
    (isOpen : (inBlock && (Parser.front tokens).isSymbol .rightBrace) = false)
    (first : Phrase.declaration.parse tokens = ⟨.ok found, noted, between⟩) :
    (Phrase.declarations inBlock).parse tokens =
      let later := (Phrase.declarations inBlock).parse between
      ⟨later.result.map (found.toList ++ ·), noted ++ later.noted, later.rest⟩ := by
  have first : ((Parser.phrase Phrase.declaration) tokens).eval
      (fun _ q => some (q.phrase.parse q.tokens)) = some ⟨.ok found, noted, between⟩ :=
    congrArg some first
  apply Option.some.inj
  rw [← Phrase.eval_parse]
  show ((Parser.sees .rightBrace >>= fun closing => Parser.atEnd >>= fun ends => if ends then _ else
    if inBlock && closing then _ else Parser.phrase .declaration >>= fun first =>
      (first.toList ++ ·) <$> Parser.phrase (.declarations inBlock)) tokens).eval _ = _
  rw [Parser.eval_bind_of_ok rfl, Parser.eval_bind_of_ok rfl, more, isOpen,
    if_neg Bool.false_ne_true, if_neg Bool.false_ne_true, Parser.eval_bind_of_ok first,
    Parser.eval_map]
  rfl

end Lox
