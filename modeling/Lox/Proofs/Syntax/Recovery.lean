import Lox.Proofs.Syntax.Confined
import Lox.Proofs.Syntax.Takes

/-!
# Where the parser goes on after a mistake

A declaration fails at some token, and parsing goes on behind it.  The places to go on from are the
boundaries of statements: behind a semicolon, before a token that begins a statement, and at the end
(`FirstBoundary`).

`declare_resumes` says which of them is taken.  The token that the declaration has failed at is dropped,
whatever it is, unless it is the end.  For most tokens this is as it should be, since they are no
boundary: parsing goes on from the first boundary from there on.  But a token that begins a statement is
dropped too, and with it the statement (`swallowed_print`).
-/

namespace Lox

open Lox.Parser

/-! ## Boundaries of statements -/

/-- A token that ends no statement and begins none. -/
def Token.isPlain (t : Token) : Bool :=
  !t.isEnd && !t.isSymbol .semicolon && !t.kind.startsStatement

/-- Of the tokens, `resume` is left at the first boundary of a statement: directly behind the first
semicolon, or at the first token that begins a statement, or at the end, whichever comes first. -/
def FirstBoundary (tokens resume : List Token) : Prop :=
  ∃ skipped, (∀ t ∈ skipped, t.isPlain = true) ∧
    ((∃ t, t.isSymbol .semicolon = true ∧ tokens = skipped ++ t :: resume) ∨
      tokens = skipped ++ resume ∧
        ((front resume).isEnd = true ∨ (front resume).kind.startsStatement = true))

theorem isEnd_of_isSymbol {t : Token} {s : Symbol} (seen : t.isSymbol s = true) : t.isEnd = false :=
  isEnd_of_kind (Token.kind_of_isSymbol seen) nofun

theorem isEnd_of_startsStatement {t : Token} (starts : t.kind.startsStatement = true) :
    t.isEnd = false := by
  apply isEnd_of_kind rfl
  intro kind
  rw [kind] at starts
  cases starts

theorem isSymbol_of_startsStatement {t : Token} {s : Symbol} (starts : t.kind.startsStatement = true) :
    t.isSymbol s = false := by
  apply Bool.eq_false_iff.mpr
  intro seen
  rw [Token.kind_of_isSymbol seen] at starts
  cases starts

namespace FirstBoundary

variable {tokens resume resume' : List Token} {t : Token}

theorem here (stops : (front tokens).isEnd = true ∨ (front tokens).kind.startsStatement = true) :
    FirstBoundary tokens tokens :=
  ⟨[], nofun, .inr ⟨rfl, stops⟩⟩

theorem behind (seen : t.isSymbol .semicolon = true) : FirstBoundary (t :: tokens) tokens :=
  ⟨[], nofun, .inl ⟨t, seen, rfl⟩⟩

theorem cons (plain : t.isPlain = true) (h : FirstBoundary tokens resume) :
    FirstBoundary (t :: tokens) resume := by
  obtain ⟨skipped, allPlain, ends⟩ := h
  refine ⟨t :: skipped, List.forall_mem_cons.mpr ⟨plain, allPlain⟩, ?_⟩
  rcases ends with ⟨t', seen, rfl⟩ | ⟨rfl, stops⟩
  · exact .inl ⟨t', seen, rfl⟩
  · exact .inr ⟨rfl, stops⟩

/-- What the first token says about the boundary. -/
theorem cases_cons (h : FirstBoundary (t :: tokens) resume) :
    t.isPlain = true ∧ FirstBoundary tokens resume ∨
      t.isSymbol .semicolon = true ∧ resume = tokens ∨
      (t.isEnd = true ∨ t.kind.startsStatement = true) ∧ resume = t :: tokens := by
  obtain ⟨skipped, allPlain, ends⟩ := h
  cases skipped with
  | nil =>
    rcases ends with ⟨t', seen, same⟩ | ⟨same, stops⟩
    · cases same
      exact .inr (.inl ⟨seen, rfl⟩)
    · cases same
      exact .inr (.inr ⟨stops, rfl⟩)
  | cons first skipped =>
    obtain ⟨plain, restPlain⟩ := List.forall_mem_cons.mp allPlain
    rcases ends with ⟨t', seen, same⟩ | ⟨same, stops⟩
    · cases same
      exact .inl ⟨plain, skipped, restPlain, .inl ⟨t', seen, rfl⟩⟩
    · cases same
      exact .inl ⟨plain, skipped, restPlain, .inr ⟨rfl, stops⟩⟩

/-- There is only one first boundary. -/
theorem unique (h : FirstBoundary tokens resume) (h' : FirstBoundary tokens resume') :
    resume' = resume := by
  induction tokens with
  | nil =>
    have none {resume : List Token} (h : FirstBoundary [] resume) : resume = [] := by
      obtain ⟨skipped, -, ⟨t, -, same⟩ | ⟨same, -⟩⟩ := h
      · simp at same
      · exact (List.append_eq_nil_iff.mp same.symm).2
    rw [none h, none h']
  | cons t rest ih =>
    -- A token is plain, or a semicolon, or stops the search, and never two of these.
    have first := h.cases_cons
    have first' := h'.cases_cons
    unfold Token.isPlain at first first'
    by_cases seen : t.isSymbol .semicolon = true
    · have := isEnd_of_isSymbol seen
      have starts : t.kind.startsStatement = false := by
        rw [Token.kind_of_isSymbol seen]
        rfl
      simp_all
    · by_cases stops : t.isEnd = true ∨ t.kind.startsStatement = true
      · rcases stops with stops | stops <;> simp_all
      · rw [not_or] at stops
        simp only [seen, stops, Bool.false_eq_true, false_and, or_false] at first first'
        exact ih first.2 first'.2

/-- Where a statement begins, nothing is skipped. -/
theorem eq_of_startsStatement (starts : (front tokens).kind.startsStatement = true)
    (h : FirstBoundary tokens resume) : resume = tokens :=
  (here (.inr starts)).unique h

end FirstBoundary

/-- Parsing goes on from the first boundary, unless the token that is dropped begins a statement. -/
theorem firstBoundary_afterMistake {tokens : List Token}
    (plain : (front tokens).kind.startsStatement = false) :
    FirstBoundary tokens (afterMistake tokens) := by
  induction tokens with
  | nil => exact .here (.inl rfl)
  | cons t rest ih =>
    have plain : t.kind.startsStatement = false := plain
    rw [afterMistake]
    by_cases ends : t.isEnd = true
    · rw [if_pos ends]
      exact .here (.inl ends)
    · rw [if_neg ends]
      by_cases seen : t.isSymbol .semicolon = true
      · rw [if_pos (.inr (.inl seen))]
        exact .behind seen
      · have isPlain : t.isPlain = true := by simp [Token.isPlain, ends, seen, plain]
        split
        · rename_i stops
          apply FirstBoundary.cons isPlain
          apply FirstBoundary.here
          exact stops.imp_right fun h => h.resolve_left seen
        · rename_i goesOn
          simp only [not_or, Bool.not_eq_true] at goesOn
          exact .cons isPlain (ih goesOn.2.2)

/-- A token that begins a statement is dropped, and parsing goes on from the first boundary behind it. -/
theorem firstBoundary_afterMistake_drop_one {tokens : List Token}
    (starts : (front tokens).kind.startsStatement = true) :
    FirstBoundary (tokens.drop 1) (afterMistake tokens) := by
  cases tokens with
  | nil => cases starts
  | cons t rest =>
    have starts : t.kind.startsStatement = true := starts
    show FirstBoundary rest (afterMistake (t :: rest))
    rw [afterMistake, if_neg (Bool.eq_false_iff.mp (isEnd_of_startsStatement starts))]
    split
    · rename_i stops
      apply FirstBoundary.here
      simpa [isSymbol_of_startsStatement starts] using stops
    · rename_i goesOn
      simp only [not_or, Bool.not_eq_true] at goesOn
      exact firstBoundary_afterMistake goesOn.2.2

/-! ## Declarations that fail -/

/-- Run from `tokens`, the parser notes the errors `noted` and then fails with `e` before `rest`. -/
def Parser.Fails {α : Type} (parser : Parser α) (tokens : List Token) (noted : List ParseError)
    (e : ParseError) (rest : List Token) : Prop :=
  (parser tokens).eval (fun _ q => some (q.phrase.parse q.tokens)) = some ⟨.error e, noted, rest⟩

/-- A parser that does not look behind the mark for the end fails in front of it, at the next token. -/
theorem Parser.Fails.place {α : Type} {parser : Parser α} {tokens rest : List Token}
    {noted : List ParseError} {e : ParseError} (fails : parser.Fails tokens noted e rest)
    (confined : ∀ {body tail left}, Forked body tail tail → parser.Confined body tail tail left) :
    Ahead tokens rest ∧ ∃ cause, e = .atToken (front rest) cause := by
  obtain ⟨body, tail, rfl, forked⟩ := exists_forked tokens
  have related sort (q q' : Grammar.Question sort) (asked : Grammar.AskedAlong body tail tail sort q q') :
      Option.Rel (Grammar.AnsweredAlong body tail tail sort q q') (some (q.phrase.parse q.tokens))
        (some (q'.phrase.parse q'.tokens)) := by
    obtain ⟨p, tokens⟩ := q
    obtain ⟨p', tokens'⟩ := q'
    obtain ⟨rfl, left, inside, rfl, rfl⟩ := asked
    exact .some (Phrase.agree_parse forked inside p')
  have outcomes := (confined forked (List.suffix_refl body)).eval related
  rw [fails] at outcomes
  obtain ⟨agree⟩ := outcomes
  obtain ⟨left, ⟨taken, rfl⟩, same, -⟩ := agree.rest
  have same : rest = left ++ tail := same
  refine ⟨⟨taken, ?_, (NoEnd.append.mp forked.noEnd).1⟩, agree.place e rfl⟩
  rw [same, List.append_assoc]

/-- How parsing goes on where a declaration, parsed from `tokens`, has failed with `e` before `rest`:
it is left out, and parsing is resumed at `resume`. -/
structure ResumesAt (tokens : List Token) (noted : List ParseError) (e : ParseError)
    (rest resume : List Token) : Prop where
  /-- The error points at the token that the declaration has failed at. -/
  place : ∃ cause, e = .atToken (front rest) cause
  /-- The tokens of the declaration up to there are gone, and no mark for the end is among them. -/
  ahead : Ahead tokens rest
  leftOut : Phrase.declaration.parse tokens = ⟨.ok none, noted ++ [e], resume⟩
  boundary : (front rest).kind.startsStatement = false → FirstBoundary rest resume
  /-- A token that begins a statement is dropped. -/
  dropped : (front rest).kind.startsStatement = true →
    FirstBoundary (rest.drop 1) resume ∧ ¬ FirstBoundary rest resume
  /-- The declarations that follow are parsed from there, in a program and in a block. -/
  goesOn : ∀ inBlock, (front tokens).isEnd = false →
    (inBlock && (front tokens).isSymbol .rightBrace) = false →
      let later := (Phrase.declarations inBlock).parse resume
      (Phrase.declarations inBlock).parse tokens =
        ⟨later.result, noted ++ e :: later.noted, later.rest⟩

/-- A declaration that is left out is followed by those behind it. -/
theorem declarations_parse_of_leftOut {tokens resume : List Token} {noted : List ParseError}
    {inBlock : Bool} (more : (front tokens).isEnd = false)
    (isOpen : (inBlock && (front tokens).isSymbol .rightBrace) = false)
    (leftOut : Phrase.declaration.parse tokens = ⟨.ok none, noted, resume⟩) :
    (Phrase.declarations inBlock).parse tokens =
      let later := (Phrase.declarations inBlock).parse resume
      ⟨later.result, noted ++ later.noted, later.rest⟩ := by
  rw [Phrase.parse_declarations_cons more isOpen leftOut]
  generalize (Phrase.declarations inBlock).parse resume = later
  obtain ⟨result, _, _⟩ := later
  cases result <;> rfl

/-- **Where parsing goes on** after a declaration has failed. -/
theorem declare_resumes {tokens rest : List Token} {noted : List ParseError} {e : ParseError}
    (fails : declare.Fails tokens noted e rest) :
    ResumesAt tokens noted e rest (Phrase.declaration.parse tokens).rest := by
  have resumes : Phrase.declaration.parse tokens = ⟨.ok none, noted ++ [e], afterMistake rest⟩ := by
    apply Option.some.inj
    rw [← Phrase.eval_parse]
    show ((declare.orResume afterMistake) tokens).eval _ = _
    rw [Parser.orResume, Plan.eval_bind, fails]
    rfl
  obtain ⟨ahead, place⟩ := fails.place fun forked => Parser.Confined.declare forked
  rw [resumes]
  refine ⟨place, ahead, resumes, firstBoundary_afterMistake, ?dropped, ?goesOn⟩
  case dropped =>
    intro starts
    -- The first boundary would be right here, but at least one token is gone.
    refine ⟨firstBoundary_afterMistake_drop_one starts, fun boundary => ?_⟩
    have same : afterMistake rest = rest := boundary.eq_of_startsStatement starts
    have shorter := length_afterMistake_lt (isEnd_of_startsStatement starts)
    rw [same] at shorter
    exact Nat.lt_irrefl _ shorter
  case goesOn =>
    intro inBlock more isOpen
    simpa using declarations_parse_of_leftOut more isOpen resumes

/-- `var x = print nil;` fails at `print` before the end of the input. -/
def misplacedPrint : List Token :=
  [⟨.keyword .var_, "var", 1⟩, ⟨.identifier "x", "x", 1⟩, ⟨.symbol .equal, "=", 1⟩,
    ⟨.keyword .print_, "print", 1⟩, ⟨.keyword .nil_, "nil", 1⟩, ⟨.symbol .semicolon, ";", 1⟩,
    ⟨.endOfInput, "", 1⟩]

theorem declare_resumes_misplacedPrint :
    declare.Fails misplacedPrint [] (.atToken ⟨.keyword .print_, "print", 1⟩ .expectedExpression)
        (misplacedPrint.drop 3) ∧
      ResumesAt misplacedPrint [] (.atToken ⟨.keyword .print_, "print", 1⟩ .expectedExpression)
        (misplacedPrint.drop 3) (misplacedPrint.drop 6) := by
  have fails : declare.Fails misplacedPrint []
      (.atToken ⟨.keyword .print_, "print", 1⟩ .expectedExpression) (misplacedPrint.drop 3) := rfl
  exact ⟨fails, declare_resumes fails⟩

/-- A statement is lost: the declaration in `misplacedPrint` fails at a `print` behind other tokens, and the
`print` begins a statement without a mistake, which is not parsed. -/
theorem swallowed_print :
    declare.Fails misplacedPrint [] (.atToken ⟨.keyword .print_, "print", 1⟩ .expectedExpression)
        (misplacedPrint.drop 3) ∧
      (misplacedPrint.drop 3).length < misplacedPrint.length ∧
      FirstBoundary (misplacedPrint.drop 3) (misplacedPrint.drop 3) ∧
      Phrase.declaration.parse (misplacedPrint.drop 3) =
        ⟨.ok (some (.print 1 (.literal .nil))), [], misplacedPrint.drop 6⟩ ∧
      ¬ FirstBoundary (misplacedPrint.drop 3) (Phrase.declaration.parse misplacedPrint).rest ∧
      (parseProgram misplacedPrint).statements = [] := by
  have boundary : FirstBoundary (misplacedPrint.drop 3) (misplacedPrint.drop 3) := .here (.inr rfl)
  refine ⟨rfl, by decide, boundary, rfl, fun resumed => ?_, rfl⟩
  have same : (Phrase.declaration.parse misplacedPrint).rest = misplacedPrint.drop 3 :=
    boundary.unique resumed
  exact absurd (congrArg List.length same) (by decide)

end Lox
