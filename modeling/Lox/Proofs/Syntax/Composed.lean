import Lox.Proofs.Syntax.Joined
import Lox.Proofs.Syntax.Soundness

/-!
# A program in front of other tokens

Parsing composes at the boundaries of statements.  A program without a mistake is parsed into the same
statements whether the end of the input follows it or anything else, as long as that does not begin with
`else`; and what follows is parsed as if nothing stood in front of it, with all its mistakes
(`parseProgram_composes`).

That the statements of the first program are found again is `Phrase.parse_declarations_append`.  It remains
to be seen that what follows has statements at all, however many mistakes there are in it: a list of
declarations never fails (`Phrase.exists_parse_declarations`), because each of them is resumed from, and
takes a token.
-/

namespace Lox

open Lox.Parser

namespace Phrase

variable {tokens : List Token}

/-- A declaration never fails: it is resumed from. -/
theorem exists_parse_declaration (tokens : List Token) :
    ∃ found noted rest, Phrase.declaration.parse tokens = ⟨.ok found, noted, rest⟩ := by
  have evaluated := Phrase.declaration.eval_parse tokens
  change ((declare.orResume afterMistake) tokens).eval _ = _ at evaluated
  rw [orResume, Plan.eval_bind, Option.bind_eq_some_iff] at evaluated
  obtain ⟨⟨result, noted, rest⟩, -, ends⟩ := evaluated
  cases result with
  | ok s => exact ⟨some s, noted, rest, (Option.some.inj ends).symm⟩
  | error e => exact ⟨none, noted ++ [e], afterMistake rest, (Option.some.inj ends).symm⟩

/-- Where no declaration is to be parsed, there are none. -/
theorem parse_declarations_nil {inBlock : Bool}
    (stops : (front tokens).isEnd = true ∨ (inBlock && (front tokens).isSymbol .rightBrace) = true) :
    (Phrase.declarations inBlock).parse tokens = ⟨.ok [], [], tokens⟩ := by
  apply takes_phrase_iff.mp
  apply Takes.phrase
  apply Takes.sees_bind
  apply Takes.atEnd_bind
  split
  · exact .pure _
  · rename_i more
    rw [if_pos (stops.resolve_left more)]
    exact .pure _

/-- A list of declarations never fails.  The induction is on the number of tokens, of which each
declaration takes one at least. -/
theorem exists_parse_declarations (inBlock : Bool) (tokens : List Token) :
    ∃ ss noted rest, (Phrase.declarations inBlock).parse tokens = ⟨.ok ss, noted, rest⟩ := by
  induction left : tokens.length using Nat.strongRecOn generalizing tokens with
  | ind n ih =>
    subst left
    by_cases stops : (front tokens).isEnd = true ∨
        (inBlock && (front tokens).isSymbol .rightBrace) = true
    · exact ⟨_, _, _, parse_declarations_nil stops⟩
    · rw [not_or, Bool.not_eq_true, Bool.not_eq_true] at stops
      obtain ⟨found, noted, between, first⟩ := exists_parse_declaration tokens
      have shorter : between.length < tokens.length := by
        have taken := (Phrase.taken_parse .declaration tokens).declaration rfl stops.1
        rwa [first] at taken
      obtain ⟨ss, noted', rest, later⟩ := ih between.length shorter between rfl
      rw [parse_declarations_cons stops.1 stops.2 first, later]
      exact ⟨_, _, _, rfl⟩

end Phrase

/-- What a program is parsed into is its declarations. -/
theorem parseProgram_eq {tokens : List Token} {ss : List Stmt} {noted : List ParseError}
    {rest : List Token} (parsed : (Phrase.declarations false).parse tokens = ⟨.ok ss, noted, rest⟩) :
    parseProgram tokens = ⟨ss, noted⟩ := by
  unfold parseProgram
  rw [parsed]

/-- **Parsing composes.**  A program that is parsed without an error in front of the end of its input may
stand in front of any other tokens that do not begin with `else`: its statements come first, and the other
tokens are parsed into what they are parsed into by themselves, with the same errors. -/
theorem parseProgram_composes {tokens more : List Token} {last : Token} (noEnd : NoEnd tokens)
    (isEnd : last.isEnd = true) (clean : (parseProgram (tokens ++ [last])).errors = [])
    (other : (front more).isKeyword .else_ = false) :
    parseProgram (tokens ++ more) =
      ⟨(parseProgram (tokens ++ [last])).statements ++ (parseProgram more).statements,
        (parseProgram more).errors⟩ := by
  obtain ⟨ss, noted, rest, first⟩ := Phrase.exists_parse_declarations false (tokens ++ [last])
  obtain ⟨ss', noted', rest', second⟩ := Phrase.exists_parse_declarations false more
  rw [parseProgram_eq first] at clean ⊢
  obtain rfl : noted = [] := clean
  obtain ⟨fuel, reads⟩ := Reads.of_parse first
  have joined := Phrase.parse_declarations_append isEnd other noEnd reads
  rw [second] at joined
  rw [parseProgram_eq joined, parseProgram_eq second]

/-- An `if` without an `else` stands in front of a declaration with a mistake in it, at a keyword, and a
`print` behind that. -/
theorem parseProgram_composes_openIf :
    let openIf : List Token :=
      [⟨.keyword .if_, "if", 1⟩, ⟨.symbol .leftParen, "(", 1⟩, ⟨.keyword .true_, "true", 1⟩,
        ⟨.symbol .rightParen, ")", 1⟩, ⟨.keyword .print_, "print", 1⟩, ⟨.keyword .nil_, "nil", 1⟩,
        ⟨.symbol .semicolon, ";", 1⟩]
    let faulty : List Token :=
      [⟨.keyword .var_, "var", 2⟩, ⟨.keyword .if_, "if", 2⟩, ⟨.symbol .semicolon, ";", 2⟩,
        ⟨.keyword .print_, "print", 3⟩, ⟨.identifier "x", "x", 3⟩, ⟨.symbol .semicolon, ";", 3⟩,
        ⟨.endOfInput, "", 3⟩]
    let last : Token := ⟨.endOfInput, "", 1⟩
    NoEnd openIf ∧ last.isEnd = true ∧ (parseProgram (openIf ++ [last])).errors = [] ∧
      (front faulty).isKeyword .else_ = false ∧
      parseProgram (openIf ++ faulty) =
        ⟨(parseProgram (openIf ++ [last])).statements ++ (parseProgram faulty).statements,
          (parseProgram faulty).errors⟩ ∧
      (parseProgram faulty).errors = [⟨2, .atLexeme "if", .expectedName .ofVariable⟩] := by
  intro openIf faulty last
  have noEnd : NoEnd openIf := by simp [openIf, NoEnd, Token.isEnd]
  have clean : (parseProgram (openIf ++ [last])).errors = [] := by cbv
  have other : (front faulty).isKeyword .else_ = false := by cbv
  have fails : (parseProgram faulty).errors = [⟨2, .atLexeme "if", .expectedName .ofVariable⟩] := by cbv
  exact ⟨noEnd, rfl, clean, other, parseProgram_composes noEnd rfl clean other, fails⟩

end Lox
