import Lox.Proofs.Token.Longest

/-!
# Tokens written out again

The lexemes of a source, with blanks between them, are a source again, and it has the same tokens.  This
rests on one property of lexemes: a blank behind a lexeme delimits it (`Lexeme.before_blank`).  No blank
is part of a lexeme other than a string, and a string ends with the first quote of its own kind, whatever
stands behind.

What a source is made of besides tokens does not matter: comments, blanks, newlines, unexpected
characters and strings that are not closed leave nothing behind.
-/

namespace Lox

/-- The tokens written out, with a blank between any two of them. -/
def rendered (tokens : List Token) : String := " ".intercalate (tokens.map Token.lexeme)

/-- The token as it would be on the first line. -/
def Token.onFirstLine (t : Token) : Token := { t with line := 1 }

/-! ## A blank delimits a lexeme -/

namespace Lexeme

variable {kind : Kind} {lexeme rest : List Char}

/-- A string is the only lexeme that can have a blank in it. -/
theorem blank_notMem (h : Lexeme kind lexeme) (noQuote : ∀ c ∈ lexeme.head?, ¬ IsQuote c) :
    ' ' ∉ lexeme := by
  have word {word : List Char} (isWord : IsWord word) : ' ' ∉ word := by
    cases isWord with
    | word start parts =>
      intro mem
      rcases List.mem_cons.mp mem with rfl | mem
      · exact absurd start (by decide)
      · exact absurd (parts _ mem) (by decide)
  have digits {digits : List Char} (isDigits : IsDigits digits) : ' ' ∉ digits :=
    fun mem => absurd (isDigits.2 _ mem) (by decide)
  cases h with
  | symbol s => cases s <;> decide
  | keyword k => exact word k.isWord
  | identifier isWord => exact word isWord
  | number isNumeral =>
    cases isNumeral with
    | whole whole => exact digits whole
    | pointed whole behind => simp [digits whole, digits behind]
  | string isQuote => exact absurd isQuote (noQuote _ rfl)

/-- A string does not go on with a blank behind its closing quote. -/
theorem string_not_longer {c : Char} {body body' w : List Char}
    (within : ∀ d ∈ body', Segment.isQuotable c d = true) : body' ++ [c] ≠ body ++ c :: ' ' :: w := by
  intro same
  rcases List.append_eq_append_iff.mp same with ⟨more, -, tail⟩ | ⟨more, rfl, tail⟩
  · have := congrArg List.length tail
    simp only [List.length_append, List.length_cons, List.length_nil] at this
    omega
  · cases more with
    | nil => cases tail
    | cons d more =>
      obtain rfl : c = d := (List.cons.inj tail).1
      exact absurd (within c (by simp)) (by simp [Segment.isQuotable])

/-- **A lexeme is cut rightly if a blank is behind it,** or nothing at all. -/
theorem before_blank (h : Lexeme kind lexeme) (blank : ∀ c ∈ rest.head?, c = ' ') :
    (Segment.token kind lexeme).Before rest := by
  obtain ⟨c, cs, rfl⟩ := List.exists_cons_of_ne_nil h.ne_nil
  refine ⟨h, ?_, fun {kind' longer} other front => ?_⟩
  · -- A slash is a lexeme by itself, so the second one would have to be the blank.
    rintro ⟨behind, same⟩
    obtain rfl : '/' = c := (List.cons.inj same).1
    obtain ⟨s, -, written⟩ := h.of_other (by decide) (by decide) (by decide)
    have alone : cs = [] := by cases s <;> cases written; rfl
    subst alone
    obtain rfl : '/' :: behind = rest := (List.cons.inj same).2
    exact absurd (blank '/' rfl) (by decide)
  · by_contra long
    -- A longer lexeme would go over the blank.
    obtain ⟨more, rfl⟩ : ∃ more, longer = c :: cs ++ more :=
      (List.prefix_of_prefix_length_le (List.prefix_append _ rest) front (by omega)).imp
        fun _ => Eq.symm
    obtain ⟨w, rfl⟩ : ∃ w, more = ' ' :: w := by
      cases more with
      | nil => simp at long
      | cons d w =>
        have beyond : (d :: w) <+: rest := (List.prefix_append_right_inj _).mp front
        obtain ⟨behind, rfl⟩ := beyond
        exact ⟨w, by rw [blank d rfl]⟩
    by_cases isQuote : IsQuote c
    · obtain ⟨body, -, rfl, -⟩ := h.of_isQuote isQuote
      obtain ⟨body', within, same, -⟩ := other.of_isQuote isQuote
      exact string_not_longer within (by simpa using same.symm)
    · exact other.blank_notMem (by simpa using isQuote) (by simp)

end Lexeme

/-! ## Writing tokens out and reading them again -/

/-- The tokens written out, each with a blank behind it. -/
def spaced (tokens : List Token) : List Char := tokens.flatMap fun t => t.lexeme.toList ++ [' ']

/-- The segments of tokens with a blank behind each of them. -/
def spacedSegments (tokens : List Token) : List Segment :=
  tokens.flatMap fun t => [.token t.kind t.lexeme.toList, .blank ' ']

theorem toList_rendered (tokens : List Token) (last : Token) :
    (rendered (tokens ++ [last])).toList = spaced tokens ++ last.lexeme.toList := by
  rw [rendered, String.toList_intercalate, List.map_map]
  induction tokens with
  | nil => simp [spaced, List.intercalate]
  | cons t tokens ih =>
    obtain ⟨next, more, cons⟩ := List.exists_cons_of_ne_nil
      (List.append_ne_nil_of_right_ne_nil tokens (List.cons_ne_nil last []))
    rw [cons, List.map_cons] at ih
    rw [List.cons_append, cons, List.map_cons, List.map_cons, List.intercalate_cons_cons, ih]
    simp [spaced]

/-- Tokens with blanks behind them are read as such, whatever follows. -/
theorem segmented_spaced {tokens : List Token} (lexemes : ∀ t ∈ tokens, Lexeme t.kind t.lexeme.toList)
    {rest : List Char} {behind : List Segment} (h : Segmented rest behind) :
    Segmented (spaced tokens ++ rest) (spacedSegments tokens ++ behind) := by
  induction tokens with
  | nil => exact h
  | cons t tokens ih =>
    rw [List.forall_mem_cons] at lexemes
    have blank : (Segment.blank ' ').Before (spaced tokens ++ rest) := by simp [Segment.Before]
    have token : (Segment.token t.kind t.lexeme.toList).Before (' ' :: (spaced tokens ++ rest)) :=
      lexemes.1.before_blank (by simp)
    have whole := Segmented.cons token (.cons blank (ih lexemes.2))
    simpa [spaced, spacedSegments, Segment.text] using whole

theorem Scan.ofSegments_spaced (tokens : List Token) (behind : List Segment) :
    ofSegments 1 (spacedSegments tokens ++ behind) =
      { tokens := tokens.map Token.onFirstLine ++ (ofSegments 1 behind).tokens
        errors := (ofSegments 1 behind).errors } := by
  induction tokens with
  | nil => rfl
  | cons t tokens ih =>
    change ofSegments 1 (.token t.kind t.lexeme.toList :: .blank ' ' ::
      (spacedSegments tokens ++ behind)) = _
    rw [ofSegments, ofSegments, ih, String.ofList_toList]
    rfl

theorem scan_spaced {tokens : List Token} (lexemes : ∀ t ∈ tokens, Lexeme t.kind t.lexeme.toList)
    {text : String} {rest : List Char} {behind : List Segment}
    (written : text.toList = spaced tokens ++ rest) (h : Segmented rest behind) :
    scan text =
      { tokens := tokens.map Token.onFirstLine ++ (Scan.ofSegments 1 behind).tokens
        errors := (Scan.ofSegments 1 behind).errors } := by
  rw [scan, written, ← segmented_iff.mp (segmented_spaced lexemes h), Scan.ofSegments_spaced]

/-- **Tokens written out with blanks between them are scanned as what they were.**  Take the tokens of
any source, whether there are errors in it or not, with the mark for the end or without it.  Written out
and scanned again they give no errors, and the same tokens with the same kinds, lexemes and values, now
all on the first line. -/
theorem scan_rendered (source : String) :
    scan (rendered (scan source).tokens) = ⟨(scan source).tokens.map Token.onFirstLine, []⟩ ∧
    scan (rendered (scan source).tokens.dropLast) =
      ⟨(scan source).tokens.map Token.onFirstLine, []⟩ := by
  obtain ⟨tokens, last, cut, lexemes⟩ := tokens_scan source
  rw [cut, List.dropLast_concat, List.map_append]
  constructor
  · have written := toList_rendered tokens ⟨.endOfInput, "", last⟩
    exact scan_spaced lexemes (written.trans (by simp)) .nil
  · rcases List.eq_nil_or_concat tokens with rfl | ⟨front, t, rfl⟩
    · have written : (rendered []).toList = spaced [] ++ [] := rfl
      exact scan_spaced lexemes written .nil
    · rw [List.concat_eq_append] at lexemes ⊢
      have isLexeme := lexemes t (by simp)
      have ends : (Segment.token t.kind t.lexeme.toList).Before [] := isLexeme.before_blank nofun
      have alone := Segmented.cons ends .nil
      rw [scan_spaced (fun t mem => lexemes t (List.mem_append_left _ mem)) (toList_rendered front t)
        (by simpa [Segment.text] using alone)]
      simp [Scan.ofSegments, Token.onFirstLine]

end Lox
