import Lox.Proofs.Scope.Depths
import Lox.Proofs.Scope.Resolution
import Lox.Proofs.Syntax.Alike
import Lox.Proofs.Syntax.Soundness
import Lox.Proofs.Token.Longest
import Lox.Session

/-!
# Programs that are ready to run

What a source is before it runs (`Session.prepare`) is a program in which every part is right in its
context: its names are no reserved words, which is the doing of the scanner, and the depths of
its references are those of its scopes, which is the doing of resolution.
-/

namespace Lox

/-! ## The words of tokens -/

/-- The names in a source are no reserved words, and its keywords are spelled as they should be. -/
theorem names_scan (source : String) : ∀ t ∈ (scan source).tokens, t.Names .scanned := by
  refine fun t mem => ⟨fun name kind => ?_, fun k kind => ?_⟩
  · have isLexeme := lexeme_of_mem_scan mem (kind ▸ nofun)
    exact ⟨Token.lexeme_ne_text isLexeme kind .this_, Token.lexeme_ne_text isLexeme kind .super_⟩
  · exact Token.lexeme_of_keyword (lexeme_of_mem_scan mem (kind ▸ nofun)) kind

/-! ## Programs -/

theorem parsed_parseProgram {V : Vocabulary} {tokens : List Token} (names : ∀ t ∈ tokens, t.Names V) :
    Stmt.EveryAll (Node.Parsed V) (parseProgram tokens).statements := by
  obtain ⟨taken, split, noEnd, built⟩ := Phrase.promised (p := .declarations false) names trivial
  unfold parseProgram
  simp only
  split
  · rename_i statements ok
    exact (built statements ok).1.1
  · trivial

/-- The parser leaves no depths behind. -/
theorem relabelAll_parseProgram (tokens : List Token) :
    Stmt.relabelAll .unresolved (parseProgram tokens).statements = (parseProgram tokens).statements := by
  have alike : TokensAlike .unresolved tokens tokens :=
    List.forall₂_same.mpr fun _ _ => ⟨rfl, fun _ => rfl, fun _ => rfl⟩
  exact (parseProgram_alike rfl alike).1.symm

namespace Session

/-- A source is ready to run if nothing is wrong with it, be it in the scanner, in the parser or in
resolution. -/
theorem prepare_eq_ok_iff {source : String} {program : List Stmt} :
    prepare source = .ok program ↔
      (scan source).errors = [] ∧ (parseProgram (scan source).tokens).errors = [] ∧
        resolveProgram (parseProgram (scan source).tokens).statements = ⟨program, []⟩ := by
  simp only [prepare]
  generalize resolveProgram (parseProgram (scan source).tokens).statements = resolved
  obtain ⟨resolved, errors⟩ := resolved
  simp only [Resolution.mk.injEq]
  constructor
  · intro prepared
    split at prepared
    · rename_i wellFormed
      split at prepared
      · rename_i none
        cases prepared
        exact ⟨wellFormed.1, wellFormed.2, rfl, none⟩
      · cases prepared
    · cases prepared
  · rintro ⟨scanned, parsed, rfl, none⟩
    rw [if_pos ⟨scanned, parsed⟩, if_pos none]

/-- What has been resolved is what has been parsed, and depths. -/
theorem relabelAll_of_prepare {source : String} {program : List Stmt}
    (h : prepare source = .ok program) :
    Stmt.relabelAll .unresolved program = (parseProgram (scan source).tokens).statements := by
  obtain ⟨-, -, resolved⟩ := prepare_eq_ok_iff.mp h
  have depths := relabelAll_resolveProgram (parseProgram (scan source).tokens).statements
  rw [resolved, relabelAll_parseProgram] at depths
  exact depths

/-- **Every part of a program that is ready to run is right in its context.** -/
theorem right_of_prepare {source : String} {program : List Stmt}
    (h : prepare source = .ok program) :
    ∀ part ∈ Stmt.nodesAll [] program, part.2.Right part.1 := by
  obtain ⟨-, -, resolved⟩ := prepare_eq_ok_iff.mp h
  have right := right_resolveProgram (parsed_parseProgram (names_scan source))
    (congrArg Resolution.errors resolved)
  rw [resolved] at right
  exact right

end Session

end Lox
