import Lox.Token.Basic
import Lox.Number.Numeral

/-!
# Segments of source text

Source text is cut into **segments**, one after the other and with nothing left over: blanks,
newlines, comments, tokens, characters that begin nothing, and strings that are not closed on their
line.  A segment is the longest one that starts at its place.  Text of all characters is admitted;
names, digits and blanks are made of ASCII characters only.

`segments_text` says that no character is lost or moved.
-/

namespace Lox

/-- A piece of source text. -/
inductive Segment where
  | blank (c : Char)
  | newline
  /-- A comment, from its two slashes up to the end of the line. -/
  | comment (text : List Char)
  | token (kind : Kind) (lexeme : List Char)
  /-- A character that begins no other segment. -/
  | unexpected (c : Char)
  /-- An opening quote and the rest of its line, where no quote closes it. -/
  | unterminated (text : List Char)

namespace Segment

/-- The source text of a segment. -/
def text : Segment → List Char
  | blank c => [c]
  | newline => ['\n']
  | comment text => text
  | token _ lexeme => lexeme
  | unexpected c => [c]
  | unterminated text => text

/-- A character that a name can begin with. -/
def isNameStart (c : Char) : Bool := c.isAlpha || c == '_'

/-- A character that can stand inside a name. -/
def isNamePart (c : Char) : Bool := isNameStart c || c.isDigit

/-- A character that can stand between the two quotes `quote`. -/
def isQuotable (quote c : Char) : Bool := c != quote && c != '\n'

/-- What a word is: a reserved word or a name. -/
def wordKind (word : List Char) : Kind :=
  let s := String.ofList word
  match Keyword.ofText? s with
  | some k => .keyword k
  | none => .identifier s

/-- Read the symbol at the front, the longer one of two. -/
def readSymbol? : List Char → Option (Symbol × List Char)
  | '!' :: '=' :: rest => some (.bangEqual, rest)
  | '=' :: '=' :: rest => some (.equalEqual, rest)
  | '<' :: '=' :: rest => some (.lessEqual, rest)
  | '>' :: '=' :: rest => some (.greaterEqual, rest)
  | [] => none
  | c :: rest => (Symbol.all.find? fun s => s.text == [c]).map fun s => (s, rest)

/-- Read a word; `c` is its first character. -/
def readWord (c : Char) (cs : List Char) : Segment × List Char :=
  let word := c :: cs.takeWhile isNamePart
  (.token (wordKind word) word, cs.dropWhile isNamePart)

/-- Read a number: digits, and a point with digits behind it if there are any; `c` is its first
digit. -/
def readNumber (c : Char) (cs : List Char) : Segment × List Char :=
  let (digits, rest) := Number.spanDigits cs
  let whole := c :: digits
  let integer := (Segment.token (.number (Number.Decimal.toFloat ⟨Number.digitsValue 0 whole, 0⟩))
    whole, rest)
  match rest with
  | '.' :: tail =>
      match Number.spanDigits tail with
      | ([], _) => integer
      | (fraction, rest) =>
          let value : Number.Decimal :=
            ⟨Number.digitsValue (Number.digitsValue 0 whole) fraction, -fraction.length⟩
          (.token (.number value.toFloat) (whole ++ '.' :: fraction), rest)
  | _ => integer

/-- Read a string up to the next `quote`, which has to stand on the same line. -/
def readString (quote : Char) (cs : List Char) : Segment × List Char :=
  let body := cs.takeWhile (isQuotable quote)
  match cs.dropWhile (isQuotable quote) with
  | [] => (.unterminated (quote :: body), [])
  | c :: rest =>
      if c = quote then
        (.token (.string (String.ofList body)) (quote :: (body ++ [quote])), rest)
      else (.unterminated (quote :: body), c :: rest)

/-- Read a comment; `c` is its first slash. -/
def readComment (c : Char) (cs : List Char) : Segment × List Char :=
  (.comment (c :: cs.takeWhile (· != '\n')), cs.dropWhile (· != '\n'))

/-- Read the segment at the front; `c` is its first character.  What is left comes with it. -/
def read (c : Char) (cs : List Char) : Segment × List Char :=
  if c = '\n' then (.newline, cs)
  else if c = ' ' ∨ c = '\r' ∨ c = '\t' then (.blank c, cs)
  else if c = '/' ∧ cs.head? = some '/' then readComment c cs
  else if c = '"' ∨ c = '\x27' then readString c cs
  else if c.isDigit then readNumber c cs
  else if isNameStart c then readWord c cs
  else
    match readSymbol? (c :: cs) with
    | some (s, rest) => (.token (.symbol s) s.text, rest)
    | none => (.unexpected c, cs)

/-! ## Nothing is lost -/

theorem text_append_of_readSymbol? {cs rest : List Char} {s : Symbol}
    (h : readSymbol? cs = some (s, rest)) : s.text ++ rest = cs := by
  unfold readSymbol? at h
  split at h
  iterate 4
    cases h
    rfl
  · contradiction
  rw [Option.map_eq_some_iff] at h
  obtain ⟨s', found, same⟩ := h
  simp only [Prod.mk.injEq] at same
  obtain ⟨rfl, rfl⟩ := same
  have written := List.find?_some found
  rw [eq_of_beq written]
  rfl

theorem text_append_readWord (c : Char) (cs : List Char) :
    (readWord c cs).1.text ++ (readWord c cs).2 = c :: cs := by
  simp [readWord, text, List.takeWhile_append_dropWhile]

theorem text_append_readComment (c : Char) (cs : List Char) :
    (readComment c cs).1.text ++ (readComment c cs).2 = c :: cs := by
  simp [readComment, text, List.takeWhile_append_dropWhile]

theorem text_append_readNumber (c : Char) (cs : List Char) :
    (readNumber c cs).1.text ++ (readNumber c cs).2 = c :: cs := by
  have cut (cs : List Char) : (Number.spanDigits cs).1 ++ (Number.spanDigits cs).2 = cs :=
    List.takeWhile_append_dropWhile
  have h := cut cs
  unfold readNumber
  generalize Number.spanDigits cs = first at h ⊢
  obtain ⟨digits, rest⟩ := first
  simp only at h ⊢
  split
  · rename_i tail
    have h' := cut tail
    split
    · simpa [text] using h
    · rename_i fraction rest' _ read
      rw [read] at h'
      simp only at h'
      simp only [text, List.cons_append, List.append_assoc, List.cons.injEq, true_and]
      rw [h', h]
  · simpa [text] using h

theorem text_append_readString (quote : Char) (cs : List Char) :
    (readString quote cs).1.text ++ (readString quote cs).2 = quote :: cs := by
  have h : cs.takeWhile (isQuotable quote) ++ cs.dropWhile (isQuotable quote) = cs :=
    List.takeWhile_append_dropWhile
  unfold readString
  generalize cs.takeWhile (isQuotable quote) = body at h ⊢
  split
  · rename_i empty
    simpa [text, empty] using h
  · rename_i c rest more
    rw [more] at h
    split
    · rename_i closed
      subst closed
      simpa [text] using h
    · simpa [text] using h

theorem text_append_read (c : Char) (cs : List Char) :
    (read c cs).1.text ++ (read c cs).2 = c :: cs := by
  unfold read
  split
  · rename_i h; simp [text, h]
  split
  · rfl
  split
  · exact text_append_readComment c cs
  split
  · exact text_append_readString c cs
  split
  · exact text_append_readNumber c cs
  split
  · exact text_append_readWord c cs
  split
  · rename_i h; exact text_append_of_readSymbol? h
  · rfl

theorem text_read_ne_nil (c : Char) (cs : List Char) : (read c cs).1.text ≠ [] := by
  unfold read readComment readString readNumber readWord
  repeat' split
  all_goals try simp [text]
  rename_i s _ _
  cases s <;> simp [Symbol.text]

theorem length_read_lt (c : Char) (cs : List Char) :
    (read c cs).2.length < (c :: cs).length := by
  have whole := congrArg List.length (text_append_read c cs)
  have some := List.length_pos_iff.mpr (text_read_ne_nil c cs)
  rw [List.length_append] at whole
  omega

end Segment

/-- Cut source text into segments. -/
def segments : List Char → List Segment
  | [] => []
  | c :: cs =>
      let first := Segment.read c cs
      first.1 :: segments first.2
termination_by cs => cs.length
decreasing_by exact Segment.length_read_lt c cs

theorem segments_nil : segments [] = [] := by rw [segments]

theorem segments_cons (c : Char) (cs : List Char) :
    segments (c :: cs) = (Segment.read c cs).1 :: segments (Segment.read c cs).2 := by
  rw [segments]

/-- The segments of a text make up the text. -/
theorem segments_text (cs : List Char) : (segments cs).flatMap Segment.text = cs := by
  fun_induction segments cs with
  | case1 => rfl
  | case2 c cs first ih =>
    rw [List.flatMap_cons, ih]
    exact Segment.text_append_read c cs

end Lox
