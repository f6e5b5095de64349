import Mathlib.Data.List.TakeWhile
import Lox.Token.Scan

/-!
# Sources on further lines

No segment but a newline reaches over the end of a line.  So the segments of a text and of another one
that begins on a line behind it are those of the two texts, with a newline between them
(`segments_append_newline`).  The tokens of the second text are what they would be without the first
one, on lines further down (`scan_lines`).
-/

namespace Lox

/-! ## Reading up to the end of a line -/

section Newline

variable {p : Char → Bool} (stops : p '\n' = false) (cs more : List Char)

include stops

theorem takeWhile_append_newline : (cs ++ '\n' :: more).takeWhile p = cs.takeWhile p := by
  induction cs with
  | nil => simp [stops]
  | cons c cs ih => rw [List.cons_append, List.takeWhile_cons, List.takeWhile_cons, ih]

theorem dropWhile_append_newline :
    (cs ++ '\n' :: more).dropWhile p = cs.dropWhile p ++ '\n' :: more := by
  induction cs with
  | nil => simp [stops]
  | cons c cs ih =>
    rw [List.cons_append, List.dropWhile_cons, List.dropWhile_cons, ih]
    split <;> rfl

end Newline

namespace Segment

/-- What is left is followed by these characters. -/
def followedBy (more : List Char) (first : Segment × List Char) : Segment × List Char :=
  (first.1, first.2 ++ more)

variable (c : Char) (cs more : List Char)

theorem isQuotable_newline (quote : Char) : isQuotable quote '\n' = false := by simp [isQuotable]

theorem spanDigits_append_newline : Number.spanDigits (cs ++ '\n' :: more) =
    ((Number.spanDigits cs).1, (Number.spanDigits cs).2 ++ '\n' :: more) := by
  rw [Number.spanDigits, takeWhile_append_newline (by decide), dropWhile_append_newline (by decide)]
  rfl

theorem readWord_append_newline :
    readWord c (cs ++ '\n' :: more) = followedBy ('\n' :: more) (readWord c cs) := by
  rw [readWord, takeWhile_append_newline (by decide), dropWhile_append_newline (by decide)]
  rfl

theorem readComment_append_newline :
    readComment c (cs ++ '\n' :: more) = followedBy ('\n' :: more) (readComment c cs) := by
  rw [readComment, takeWhile_append_newline (by decide), dropWhile_append_newline (by decide)]
  rfl

theorem readString_append_newline (different : c ≠ '\n') :
    readString c (cs ++ '\n' :: more) = followedBy ('\n' :: more) (readString c cs) := by
  rw [readString, readString, takeWhile_append_newline (isQuotable_newline c),
    dropWhile_append_newline (isQuotable_newline c)]
  cases cs.dropWhile (isQuotable c) with
  | nil => simp [followedBy, different.symm]
  | cons quote rest =>
    simp only [List.cons_append]
    split <;> rfl

theorem readNumber_append_newline :
    readNumber c (cs ++ '\n' :: more) = followedBy ('\n' :: more) (readNumber c cs) := by
  rw [readNumber, readNumber, spanDigits_append_newline]
  generalize Number.spanDigits cs = first
  obtain ⟨digits, rest⟩ := first
  cases rest with
  | nil => rfl
  | cons point tail =>
    by_cases same : point = '.'
    · subst same
      simp only [List.cons_append, spanDigits_append_newline]
      generalize Number.spanDigits tail = second
      obtain ⟨fraction, rest⟩ := second
      cases fraction <;> rfl
    · simp [followedBy, same]

theorem readSymbol?_append_newline : readSymbol? (c :: (cs ++ '\n' :: more)) =
    (readSymbol? (c :: cs)).map fun (s, rest) => (s, rest ++ '\n' :: more) := by
  cases cs with
  | nil => simp [readSymbol?, Function.comp_def]
  | cons second rest =>
    by_cases equal : second = '='
    · subst equal
      by_cases double : c = '!' ∨ c = '=' ∨ c = '<' ∨ c = '>'
      · rcases double with rfl | rfl | rfl | rfl <;> rfl
      · simp only [not_or] at double
        simp [readSymbol?, double, Function.comp_def]
    · simp [readSymbol?, equal, Function.comp_def]

/-- A segment is not read past the end of its line. -/
theorem read_append_newline :
    read c (cs ++ '\n' :: more) = followedBy ('\n' :: more) (read c cs) := by
  have slashes : (cs ++ '\n' :: more).head? = some '/' ↔ cs.head? = some '/' := by
    cases cs <;> simp
  unfold read
  by_cases newline : c = '\n'
  · rw [if_pos newline, if_pos newline]
    rfl
  simp only [if_neg newline, slashes, readComment_append_newline, readString_append_newline c cs more
    newline, readNumber_append_newline, readWord_append_newline, readSymbol?_append_newline,
    apply_ite (followedBy ('\n' :: more))]
  cases readSymbol? (c :: cs) <;> rfl

end Segment

theorem segments_append_newline (cs more : List Char) :
    segments (cs ++ '\n' :: more) = segments cs ++ .newline :: segments more := by
  fun_induction segments cs with
  | case1 =>
    rw [List.nil_append, segments_cons]
    rfl
  | case2 c cs first ih =>
    rw [List.cons_append, segments_cons, Segment.read_append_newline]
    exact congrArg (_ :: ·) ih

/-! ## The lines of tokens -/

namespace Segment

/-- How many lines end with the segment. -/
def breaks : Segment → Nat
  | newline => 1
  | _ => 0

/-- The segment does not reach over the end of a line, and is not the end of the input. -/
structure OnLine (segment : Segment) : Prop where
  breaks : segment.text.count '\n' = segment.breaks
  more : ∀ lexeme, segment ≠ .token .endOfInput lexeme

theorem OnLine.token {kind : Kind} {lexeme : List Char} (oneLine : '\n' ∉ lexeme)
    (more : kind ≠ .endOfInput) : (Segment.token kind lexeme).OnLine :=
  ⟨List.count_eq_zero.mpr oneLine, fun _ same => more (by cases same; rfl)⟩

variable (c : Char) (cs : List Char)

theorem not_mem_takeWhile {p : Char → Bool} (stops : p '\n' = false) : '\n' ∉ cs.takeWhile p := by
  intro mem
  have passes := List.mem_takeWhile_imp mem
  rw [stops] at passes
  cases passes

theorem onLine_readWord (start : isNameStart c = true) : (readWord c cs).1.OnLine := by
  have first : '\n' ≠ c := by
    rintro rfl
    exact absurd start (by decide)
  refine .token (List.not_mem_cons_of_ne_of_not_mem first (not_mem_takeWhile _ (by decide))) ?_
  · unfold wordKind
    simp only
    split <;> exact nofun

theorem onLine_readNumber (digit : c.isDigit = true) : (readNumber c cs).1.OnLine := by
  have within (cs : List Char) : '\n' ∉ (Number.spanDigits cs).1 := not_mem_takeWhile _ (by decide)
  have first : '\n' ≠ c := by
    rintro rfl
    exact absurd digit (by decide)
  have whole := List.not_mem_cons_of_ne_of_not_mem first (within cs)
  unfold readNumber
  generalize Number.spanDigits cs = first at whole
  obtain ⟨digits, rest⟩ := first
  simp only at whole ⊢
  split
  · rename_i tail
    have behind := within tail
    split
    · exact .token whole (by simp)
    · rename_i fraction rest' _ read
      rw [read] at behind
      refine .token ?_ (by simp)
      simp only [List.mem_append, List.mem_cons, not_or] at whole ⊢
      exact ⟨whole, by decide, behind⟩
  · exact .token whole (by simp)

theorem onLine_readString (different : c ≠ '\n') : (readString c cs).1.OnLine := by
  have body : '\n' ∉ cs.takeWhile (isQuotable c) := not_mem_takeWhile _ (isQuotable_newline c)
  have open_ : '\n' ∉ c :: cs.takeWhile (isQuotable c) := 
    List.not_mem_cons_of_ne_of_not_mem different.symm body
  unfold readString
  split
  · exact ⟨List.count_eq_zero.mpr open_, by rintro _ ⟨⟩⟩
  · split
    · refine .token ?_ (by simp)
      simp [different.symm, body]
    · exact ⟨List.count_eq_zero.mpr open_, by rintro _ ⟨⟩⟩

theorem onLine_read : (read c cs).1.OnLine := by
  unfold read
  by_cases newline : c = '\n'
  · rw [if_pos newline]
    exact ⟨rfl, nofun⟩
  have one : [c].count '\n' = 0 := List.count_eq_zero.mpr (by simpa using Ne.symm newline)
  rw [if_neg newline]
  split
  · exact ⟨one, nofun⟩
  split
  · have rest := not_mem_takeWhile (p := (· != '\n')) cs (by decide)
    exact ⟨List.count_eq_zero.mpr (List.not_mem_cons_of_ne_of_not_mem (Ne.symm newline) rest), nofun⟩
  split
  · exact onLine_readString c cs newline
  split
  · exact onLine_readNumber c cs ‹_›
  split
  · exact onLine_readWord c cs ‹_›
  split
  · rename_i symbol _ _
    exact .token (by cases symbol <;> decide) (by simp)
  · exact ⟨one, nofun⟩

end Segment

theorem onLine_segments (cs : List Char) : ∀ segment ∈ segments cs, segment.OnLine := by
  fun_induction segments cs with
  | case1 => exact List.forall_mem_nil _
  | case2 c cs first ih => exact List.forall_mem_cons.mpr ⟨Segment.onLine_read c cs, ih⟩

/-- How many lines end with the segments. -/
def breaks : List Segment → Nat
  | [] => 0
  | segment :: rest => segment.breaks + breaks rest

theorem breaks_segments (cs : List Char) : breaks (segments cs) = cs.count '\n' := by
  have count {segments : List Segment} (onLine : ∀ segment ∈ segments, segment.OnLine) :
      (segments.flatMap Segment.text).count '\n' = breaks segments := by
    induction segments with
    | nil => rfl
    | cons segment rest ih =>
      rw [List.forall_mem_cons] at onLine
      rw [List.flatMap_cons, List.count_append, onLine.1.breaks, ih onLine.2]
      rfl
  rw [← count (onLine_segments cs), segments_text]

namespace Scan

/-- The same on lines further down. -/
def below (k : Nat) (scan : Scan) : Scan :=
  ⟨scan.tokens.map fun t => { t with line := t.line + k },
    scan.errors.map fun e => { e with line := e.line + k }⟩

theorem ofSegments_add (line k : Nat) (segments : List Segment) :
    ofSegments (line + k) segments = (ofSegments line segments).below k := by
  induction segments generalizing line with
  | nil => rfl
  | cons segment rest ih =>
    cases segment with
    | newline =>
      rw [ofSegments, ofSegments, Nat.add_right_comm]
      exact ih (line + 1)
    | blank _ | comment _ => exact ih line
    | _ =>
      rw [ofSegments, ofSegments, ih]
      rfl

/-- What is scanned from segments in front of others. -/
theorem ofSegments_append {first : List Segment} (onLine : ∀ segment ∈ first, segment.OnLine)
    (line : Nat) (second : List Segment) : ∃ body,
      (ofSegments line first).tokens = body ++ [⟨.endOfInput, "", line + breaks first⟩] ∧
      (∀ t ∈ body, t.isEnd = false) ∧
      ofSegments line (first ++ second) =
        ⟨body ++ (ofSegments (line + breaks first) second).tokens,
          (ofSegments line first).errors ++ (ofSegments (line + breaks first) second).errors⟩ := by
  induction first generalizing line with
  | nil => exact ⟨[], rfl, List.forall_mem_nil _, rfl⟩
  | cons segment rest ih =>
    rw [List.forall_mem_cons] at onLine
    have down : line + breaks (segment :: rest) = line + segment.breaks + breaks rest :=
      (Nat.add_assoc ..).symm
    rw [down]
    obtain ⟨body, here, noEnd, joined⟩ := ih onLine.2 (line + segment.breaks)
    cases segment with
    | newline | blank _ | comment _ => exact ⟨body, here, noEnd, joined⟩
    | token kind lexeme =>
      let t : Token := ⟨kind, String.ofList lexeme, line⟩
      refine ⟨t :: body, congrArg (t :: ·) here, List.forall_mem_cons.mpr ⟨?_, noEnd⟩,
        congrArg (fun scan : Scan => { scan with tokens := t :: scan.tokens }) joined⟩
      cases kind <;> first | rfl | exact absurd rfl (onLine.1.more lexeme)
    | unexpected c =>
      let e : ScanError := ⟨line, .unexpectedCharacter c⟩
      exact ⟨body, here, noEnd,
        congrArg (fun scan : Scan => { scan with errors := e :: scan.errors }) joined⟩
    | unterminated _ =>
      let e : ScanError := ⟨line, .unterminatedString⟩
      exact ⟨body, here, noEnd,
        congrArg (fun scan : Scan => { scan with errors := e :: scan.errors }) joined⟩

end Scan

/-- **A source behind another one, on the next line.**  The tokens of the first source are followed, in
the place of the mark at their end, by those of the second one, on lines further down; and so are the
errors. -/
theorem scan_append_newline (first second : String) : ∃ body last,
    (scan first).tokens = body ++ [last] ∧ last.isEnd = true ∧ (∀ t ∈ body, t.isEnd = false) ∧
      scan (first ++ "\n" ++ second) =
        let behind := (scan second).below (first.toList.count '\n' + 1)
        ⟨body ++ behind.tokens, (scan first).errors ++ behind.errors⟩ := by
  obtain ⟨body, tokens, noEnd, joined⟩ :=
    Scan.ofSegments_append (onLine_segments first.toList) 1 (.newline :: segments second.toList)
  refine ⟨body, _, tokens, rfl, noEnd, ?_⟩
  have text : (first ++ "\n" ++ second).toList = first.toList ++ '\n' :: second.toList := by simp
  rw [scan, text, segments_append_newline, joined, breaks_segments]
  rw [show Scan.ofSegments (1 + first.toList.count '\n') (.newline :: segments second.toList) =
      Scan.ofSegments (1 + (first.toList.count '\n' + 1)) (segments second.toList) from rfl,
    Scan.ofSegments_add]
  rfl

/-- **Scanning goes line by line.**  A source and another one on the line behind it, with or without
errors in them, have the tokens of the first one but for the mark at its end, which is its only one,
and then those of the second one; and the errors of both.  Everything of the second one, the mark at
the end of all too, is as many lines further down as the first one has, and else as it is by itself. -/
theorem scan_lines (first second : String) :
    (∃ last, (scan first).tokens.getLast? = some last ∧ last.isEnd = true ∧
      ∀ t ∈ (scan first).tokens.dropLast, t.isEnd = false) ∧
    (scan (first ++ "\n" ++ second)).tokens =
      (scan first).tokens.dropLast ++
        (scan second).tokens.map (fun t => { t with line := t.line + (first.toList.count '\n' + 1) }) ∧
    (scan (first ++ "\n" ++ second)).errors =
      (scan first).errors ++
        (scan second).errors.map (fun e => { e with line := e.line + (first.toList.count '\n' + 1) }) := by
  obtain ⟨body, last, tokens, isEnd, noEnd, joined⟩ := scan_append_newline first second
  have front : (scan first).tokens.dropLast = body := by rw [tokens, List.dropLast_concat]
  refine ⟨⟨last, by rw [tokens, List.getLast?_concat], isEnd, front ▸ noEnd⟩, ?_, ?_⟩
  · rw [joined, front]
    rfl
  · rw [joined]
    rfl

end Lox
