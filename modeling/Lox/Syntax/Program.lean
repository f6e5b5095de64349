import Lox.Syntax.Progress

/-!
# Parsing a program

`Phrase.parse` parses a phrase from the front of some tokens; it has an outcome for all tokens, as
`Lox.Syntax.Progress` shows.  `eval_parse` is the equation to reason with: the outcome of a phrase
is what its rule makes of the outcomes of the phrases it asks for.

A program is parsed from all its tokens (`parseProgram`).  Statements with an error in them are left
out, and what is left is a program too.
-/

namespace Lox

/-- The outcome of parsing a phrase. -/
def Phrase.parse {sort : PhraseSort} (p : Phrase sort) (tokens : List Token) :
    Outcome sort.Tree :=
  let question : Grammar.Question sort := ⟨p, tokens⟩
  (grammar.solve (question.measure + 1) _ question).get <| by
    obtain ⟨outcome, found, _⟩ := exists_taken_of_grammar question (Nat.lt_succ_self _)
    rw [found]
    rfl

theorem Phrase.solve_eq_parse {sort : PhraseSort} (p : Phrase sort) (tokens : List Token) :
    grammar.solve ((Grammar.Question.mk p tokens).measure + 1) _ ⟨p, tokens⟩ =
      some (p.parse tokens) :=
  (Option.some_get _).symm

theorem Phrase.taken_parse {sort : PhraseSort} (p : Phrase sort) (tokens : List Token) :
    Grammar.Taken ⟨p, tokens⟩ (p.parse tokens) := by
  obtain ⟨outcome, found, taken⟩ :=
    exists_taken_of_grammar (Grammar.Question.mk p tokens) (Nat.lt_succ_self _)
  rw [p.solve_eq_parse, Option.some.injEq] at found
  exact found ▸ taken

theorem Phrase.parse_of_solve {sort : PhraseSort} {p : Phrase sort} {tokens : List Token}
    {fuel : Nat} {outcome : Outcome sort.Tree}
    (h : grammar.solve fuel _ ⟨p, tokens⟩ = some outcome) : p.parse tokens = outcome := by
  have known := p.solve_eq_parse tokens
  rcases Nat.le_total fuel ((Grammar.Question.mk p tokens).measure + 1) with le | le
  · rw [grammar.solve_mono le _ h, Option.some.injEq] at known
    exact known.symm
  · rw [grammar.solve_mono le _ known, Option.some.injEq] at h
    exact h

/-- What the rule of a phrase makes of the outcomes of other phrases is its own outcome. -/
theorem Phrase.eval_parse {sort : PhraseSort} (p : Phrase sort) (tokens : List Token) :
    (p.parser tokens).eval (fun _ q => some (q.phrase.parse q.tokens)) =
      some (p.parse tokens) := by
  have known := p.solve_eq_parse tokens
  rw [Rules.solve_succ, Option.bind_eq_some_iff] at known
  obtain ⟨next, evaluated, settled⟩ := known
  rw [grammar, Plan.map_eq_bind, Plan.eval_bind, Option.bind_eq_some_iff] at evaluated
  obtain ⟨outcome, evaluated, same⟩ := evaluated
  simp only [Plan.eval, Option.some.injEq] at same
  subst same
  simp only [Rules.settle, Option.some.injEq] at settled
  subst settled
  refine Plan.eval_mono (fun _ q _ found => ?_) _ evaluated
  exact congrArg some (@Phrase.parse_of_solve _ q.phrase q.tokens _ _ found)

/-- What parsing makes of some tokens. -/
structure Parse where
  statements : List Stmt
  errors : List ParseError

/-- Parse a program from tokens, up to the first mark for the end of the input. -/
def parseProgram (tokens : List Token) : Parse :=
  let outcome := (Phrase.declarations false).parse tokens
  match outcome.result with
  | .ok statements => ⟨statements, outcome.noted⟩
  | .error e => ⟨[], outcome.noted ++ [e]⟩

end Lox
