import Lox.Proofs.Token.Joined

/-!
# The longest lexeme

What a token is written as is said by a grammar (`Lexeme`) that does not say how it is read: a symbol, a
reserved word, any other word, a numeral, or a string between two quotes of its own kind on one line.
A text is cut rightly (`Segmented`) if each token takes the longest lexeme that stands at its place,
a comment or a string that is not closed takes the rest of its line, and a character is unexpected
only where no lexeme begins.  There is one such way to cut any text, and it is the one that is read
(`segmented_iff`).  So the tokens and errors of a source are those of its longest lexemes, each on the
line that the newlines in front of it make (`scan_longest`).
-/

namespace Lox

/-! ## The grammar -/

/-- Some digits. -/
def IsDigits (cs : List Char) : Prop := cs ≠ [] ∧ ∀ c ∈ cs, c.isDigit = true

/-- Digits, or digits on both sides of a point. -/
inductive IsNumeral : List Char → Prop
  | whole {digits} (whole : IsDigits digits) : IsNumeral digits
  | pointed {digits fraction} (whole : IsDigits digits) (behind : IsDigits fraction) :
      IsNumeral (digits ++ '.' :: fraction)

/-- A letter or underscore, and letters, underscores and digits behind it. -/
inductive IsWord : List Char → Prop
  | word {c cs} (start : Segment.isNameStart c = true)
      (parts : ∀ d ∈ cs, Segment.isNamePart d = true) : IsWord (c :: cs)

/-- One of the two characters that stand around strings. -/
def IsQuote (c : Char) : Prop := c = '"' ∨ c = '\x27'

/-- A text is a way to write a token of this kind. -/
inductive Lexeme : Kind → List Char → Prop
  | symbol (s : Symbol) : Lexeme (.symbol s) s.text
  | keyword (k : Keyword) : Lexeme (.keyword k) k.text.toList
  | identifier {word : List Char} (isWord : IsWord word)
      (free : ∀ k : Keyword, k.text ≠ String.ofList word) :
      Lexeme (.identifier (String.ofList word)) word
  | number {numeral : List Char} {value : Float} (isNumeral : IsNumeral numeral)
      (reads : Number.ofText? (String.ofList numeral) = some value) : Lexeme (.number value) numeral
  | string {quote : Char} {body : List Char} (isQuote : IsQuote quote)
      (within : ∀ c ∈ body, c ≠ quote ∧ c ≠ '\n') :
      Lexeme (.string (String.ofList body)) (quote :: (body ++ [quote]))

/-- A line ends here: nothing follows, or a newline. -/
def LineEnds (rest : List Char) : Prop := ∀ c ∈ rest.head?, c = '\n'

/-- The segment rightly stands in front of `rest`. -/
def Segment.Before (rest : List Char) : Segment → Prop
  | blank c => c = ' ' ∨ c = '\r' ∨ c = '\t'
  | newline => True
  | comment text => (∃ body, text = '/' :: '/' :: body ∧ '\n' ∉ body) ∧ LineEnds rest
  | token kind lexeme => Lexeme kind lexeme ∧ ¬ ['/', '/'] <+: lexeme ++ rest ∧
      ∀ {kind' longer}, Lexeme kind' longer → longer <+: lexeme ++ rest →
        longer.length ≤ lexeme.length
  | unexpected c => c ≠ '\n' ∧ c ≠ ' ' ∧ c ≠ '\r' ∧ c ≠ '\t' ∧ ¬ IsQuote c ∧
      ∀ {kind lexeme}, Lexeme kind lexeme → ¬ lexeme <+: c :: rest
  | unterminated text => (∃ quote body, text = quote :: body ∧ IsQuote quote ∧
      ∀ c ∈ body, c ≠ quote ∧ c ≠ '\n') ∧ LineEnds rest

/-- The text is made up of these segments, each of which stands rightly in front of the others. -/
inductive Segmented : List Char → List Segment → Prop
  | nil : Segmented [] []
  | cons {first : Segment} {rest : List Char} {others : List Segment} (before : first.Before rest)
      (behind : Segmented rest others) : Segmented (first.text ++ rest) (first :: others)

/-! ## Lexemes by their first character -/

instance : DecidablePred IsQuote := fun _ => inferInstanceAs (Decidable (_ ∨ _))

theorem isQuotable_iff {quote c : Char} :
    Segment.isQuotable quote c = true ↔ c ≠ quote ∧ c ≠ '\n' := by
  simp [Segment.isQuotable]

theorem not_isDigit_of_isNameStart {c : Char} (start : Segment.isNameStart c = true) :
    c.isDigit = false := by
  rw [Bool.eq_false_iff]
  intro digit
  delta Segment.isNameStart Char.isAlpha Char.isUpper Char.isLower at start
  simp only [Char.isDigit, Bool.or_eq_true, Bool.and_eq_true, decide_eq_true_eq,
    UInt32.le_iff_toNat_le, ge_iff_le, beq_iff_eq] at start digit
  have : '9'.val.toNat = 57 := rfl
  rcases start with letter | rfl
  · have : 'A'.val.toNat = 65 := rfl
    have : 'a'.val.toNat = 97 := rfl
    omega
  · exact absurd digit (by decide)

theorem IsWord.isNameStart {c : Char} {cs : List Char} (h : IsWord (c :: cs)) :
    Segment.isNameStart c = true := by
  cases h with
  | word start => exact start

theorem IsWord.isNamePart {c : Char} {cs : List Char} (h : IsWord (c :: cs)) :
    ∀ d ∈ cs, Segment.isNamePart d = true := by
  cases h with
  | word _ parts => exact parts

theorem IsWord.ne_nil {word : List Char} (h : IsWord word) : word ≠ [] := by
  cases h with
  | word => exact nofun

theorem Keyword.isWord (k : Keyword) : IsWord k.text.toList := by
  cases k <;> exact .word (by decide) (List.all_eq_true.mp (by decide))

/-- Each word is a way to write one kind of token. -/
theorem IsWord.lexeme {word : List Char} (h : IsWord word) : Lexeme (Segment.wordKind word) word := by
  unfold Segment.wordKind
  simp only
  split
  · rename_i k known
    have written := congrArg String.toList (Keyword.text_of_ofText? known)
    rw [String.toList_ofList] at written
    exact written ▸ .keyword k
  · rename_i unknown
    refine .identifier h fun k same => ?_
    rw [← same, Keyword.ofText?_text] at unknown
    cases unknown

theorem IsNumeral.isDigit {c : Char} {cs : List Char} (h : IsNumeral (c :: cs)) :
    c.isDigit = true := by
  generalize written : c :: cs = text at h
  cases h with
  | whole whole => exact whole.2 c (written ▸ List.mem_cons_self)
  | @pointed digits _ whole =>
    cases digits with
    | nil => exact absurd rfl whole.1
    | cons first digits =>
      cases written
      exact whole.2 c List.mem_cons_self

theorem Symbol.text_injective : Function.Injective Symbol.text := by
  intro s s' same
  cases s <;> cases s' <;> first | rfl | cases same

namespace Lexeme

variable {c : Char} {cs text : List Char} {kind kind' : Kind}

theorem ne_nil (h : Lexeme kind text) : text ≠ [] := by
  cases h with
  | symbol s => cases s <;> exact nofun
  | keyword k => exact k.isWord.ne_nil
  | identifier isWord => exact isWord.ne_nil
  | number isNumeral =>
    cases isNumeral with
    | whole whole => exact whole.1
    | pointed => simp
  | string => exact nofun

theorem of_isNameStart (h : Lexeme kind (c :: cs)) (start : Segment.isNameStart c = true) :
    IsWord (c :: cs) ∧ kind = Segment.wordKind (c :: cs) := by
  have noDigit := not_isDigit_of_isNameStart start
  generalize written : c :: cs = text at h ⊢
  cases h with
  | symbol s => cases s <;> cases written <;> exact absurd start (by decide)
  | keyword k => exact ⟨k.isWord, by simp [Segment.wordKind, Keyword.ofText?_text]⟩
  | identifier isWord free =>
    refine ⟨isWord, ?_⟩
    have unknown : Keyword.ofText? (String.ofList text) = none := by
      simpa [Keyword.ofText?, List.find?_eq_none] using fun k _ => free k
    simp [Segment.wordKind, unknown]
  | number isNumeral =>
    subst written
    rw [isNumeral.isDigit] at noDigit
    cases noDigit
  | string isQuote =>
    cases written
    rcases isQuote with rfl | rfl <;> exact absurd start (by decide)

theorem of_isDigit (h : Lexeme kind (c :: cs)) (digit : c.isDigit = true) :
    IsNumeral (c :: cs) ∧
      ∃ value, kind = .number value ∧ Number.ofText? (String.ofList (c :: cs)) = some value := by
  have noStart : Segment.isNameStart c = false := by
    rw [Bool.eq_false_iff]
    intro start
    rw [not_isDigit_of_isNameStart start] at digit
    cases digit
  have noWord : ¬ IsWord (c :: cs) := fun isWord => Bool.false_ne_true (noStart ▸ isWord.isNameStart)
  generalize written : c :: cs = text at h noWord ⊢
  cases h with
  | symbol s => cases s <;> cases written <;> exact absurd digit (by decide)
  | keyword k => exact absurd k.isWord noWord
  | identifier isWord => exact absurd isWord noWord
  | number isNumeral reads => exact ⟨isNumeral, _, rfl, reads⟩
  | string isQuote =>
    cases written
    rcases isQuote with rfl | rfl <;> exact absurd digit (by decide)

theorem of_isQuote (h : Lexeme kind (c :: cs)) (isQuote : IsQuote c) :
    ∃ body, (∀ d ∈ body, Segment.isQuotable c d = true) ∧ cs = body ++ [c] ∧
      kind = .string (String.ofList body) := by
  generalize written : c :: cs = text at h
  cases h with
  | symbol s => cases s <;> cases written <;> exact absurd isQuote (by decide)
  | keyword k =>
    have start := IsWord.isNameStart (written ▸ k.isWord)
    rcases isQuote with rfl | rfl <;> exact absurd start (by decide)
  | identifier isWord =>
    have start := IsWord.isNameStart (written ▸ isWord)
    rcases isQuote with rfl | rfl <;> exact absurd start (by decide)
  | number isNumeral =>
    have digit := IsNumeral.isDigit (written ▸ isNumeral)
    rcases isQuote with rfl | rfl <;> exact absurd digit (by decide)
  | @string _ body _ within =>
    cases written
    exact ⟨body, fun d mem => isQuotable_iff.mpr (within d mem), rfl, rfl⟩

theorem of_other (h : Lexeme kind (c :: cs)) (noQuote : ¬ IsQuote c) (noDigit : c.isDigit = false)
    (noStart : Segment.isNameStart c = false) : ∃ s, kind = .symbol s ∧ s.text = c :: cs := by
  have noWord : ¬ IsWord (c :: cs) := fun isWord => Bool.false_ne_true (noStart ▸ isWord.isNameStart)
  generalize written : c :: cs = text at h noWord ⊢
  cases h with
  | symbol s => exact ⟨s, rfl, rfl⟩
  | keyword k => exact absurd k.isWord noWord
  | identifier isWord => exact absurd isWord noWord
  | number isNumeral =>
    subst written
    rw [isNumeral.isDigit] at noDigit
    cases noDigit
  | string isQuote =>
    cases written
    exact absurd isQuote noQuote

/-- A text is a way to write one kind of token at most. -/
theorem kind_unique (h : Lexeme kind text) (h' : Lexeme kind' text) : kind = kind' := by
  cases text with
  | nil => exact absurd rfl h.ne_nil
  | cons c cs =>
    by_cases isQuote : IsQuote c
    · obtain ⟨body, -, rfl, rfl⟩ := h.of_isQuote isQuote
      obtain ⟨body', -, same, rfl⟩ := h'.of_isQuote isQuote
      rw [List.append_cancel_right same]
    by_cases start : Segment.isNameStart c = true
    · rw [(h.of_isNameStart start).2, (h'.of_isNameStart start).2]
    by_cases digit : c.isDigit = true
    · obtain ⟨-, value, rfl, reads⟩ := h.of_isDigit digit
      obtain ⟨-, value', rfl, reads'⟩ := h'.of_isDigit digit
      rw [Option.some.inj (reads.symm.trans reads')]
    · rw [Bool.not_eq_true] at start digit
      obtain ⟨s, rfl, written⟩ := h.of_other isQuote digit start
      obtain ⟨s', rfl, written'⟩ := h'.of_other isQuote digit start
      rw [Symbol.text_injective (written.trans written'.symm)]

/-- No lexeme begins with a blank or at the end of a line. -/
theorem isSolid (h : Lexeme kind (c :: cs)) : c ≠ '\n' ∧ c ≠ ' ' ∧ c ≠ '\r' ∧ c ≠ '\t' := by
  have none {d : Char} (noQuote : ¬ IsQuote d) (noDigit : d.isDigit = false)
      (noStart : Segment.isNameStart d = false) (noSymbol : ∀ s : Symbol, s.text.head? ≠ some d) :
      c ≠ d := by
    rintro rfl
    obtain ⟨s, -, written⟩ := h.of_other noQuote noDigit noStart
    exact noSymbol s (by rw [written]; rfl)
  refine ⟨?_, ?_, ?_, ?_⟩ <;>
    exact none (by decide) (by decide) (by decide) fun s => by cases s <;> decide

theorem exists_cons (h : Lexeme kind text) (front : text <+: c :: cs) :
    ∃ w, text = c :: w ∧ w <+: cs := by
  cases text with
  | nil => exact absurd rfl h.ne_nil
  | cons d w =>
    obtain ⟨rfl, behind⟩ := List.cons_prefix_cons.mp front
    exact ⟨w, rfl, behind⟩

end Lexeme

/-! ## What is read is the longest lexeme -/

section Span

variable {p : Char → Bool} {body rest : List Char} (within : ∀ c ∈ body, p c = true)
  (stops : ∀ c ∈ rest.head?, p c = false)

include within stops

theorem takeWhile_of_stops : (body ++ rest).takeWhile p = body := by
  rw [List.takeWhile_append_of_pos within]
  cases rest with
  | nil => simp
  | cons c cs => simp [stops c rfl]

theorem dropWhile_of_stops : (body ++ rest).dropWhile p = rest := by
  rw [List.dropWhile_append_of_pos within]
  cases rest with
  | nil => rfl
  | cons c cs => simp [stops c rfl]

end Span

namespace Segment

variable {c : Char} {cs : List Char}

/-- A lexeme stands rightly in front of what is left of a text if no longer one begins the text. -/
theorem before_token {kind : Kind} {lexeme rest : List Char} (isLexeme : Lexeme kind lexeme)
    (whole : lexeme ++ rest = c :: cs) (noComment : ¬ (c = '/' ∧ cs.head? = some '/'))
    (longest : ∀ {kind' w}, Lexeme kind' (c :: w) → w <+: cs → (c :: w).length ≤ lexeme.length) :
    (Segment.token kind lexeme).Before rest := by
  refine ⟨isLexeme, ?_, ?_⟩
  · rw [whole]
    rintro ⟨behind, same⟩
    cases same
    exact noComment ⟨rfl, rfl⟩
  · rw [whole]
    intro kind' longer other front
    obtain ⟨w, rfl, behind⟩ := other.exists_cons front
    exact longest other behind

theorem length_le_takeWhile {p : Char → Bool} {w : List Char} (front : w <+: cs)
    (all : ∀ d ∈ w, p d = true) : w.length ≤ (cs.takeWhile p).length := by
  obtain ⟨behind, rfl⟩ := front
  rw [List.takeWhile_append_of_pos all, List.length_append]
  exact Nat.le_add_right ..

theorem before_readWord (start : isNameStart c = true)
    (noComment : ¬ (c = '/' ∧ cs.head? = some '/')) :
    (readWord c cs).1.Before (readWord c cs).2 := by
  have isWord : IsWord (c :: cs.takeWhile isNamePart) :=
    .word start fun d mem => List.mem_takeWhile_imp mem
  refine before_token isWord.lexeme (text_append_readWord c cs) noComment fun other front => ?_
  have parts := (other.of_isNameStart start).1.isNamePart
  exact Nat.succ_le_succ (length_le_takeWhile front parts)

/-- What a string is read from: the characters up to its closing quote. -/
theorem readString_closed {body rest : List Char}
    (within : ∀ d ∈ body, isQuotable c d = true) : readString c (body ++ c :: rest) =
      (.token (.string (String.ofList body)) (c :: (body ++ [c])), rest) := by
  have stops : ∀ d ∈ (c :: rest).head?, isQuotable c d = false := by simp [isQuotable]
  simp [readString, takeWhile_of_stops within stops, dropWhile_of_stops within stops]

theorem before_readString (isQuote : IsQuote c)
    (noComment : ¬ (c = '/' ∧ cs.head? = some '/')) :
    (readString c cs).1.Before (readString c cs).2 := by
  have within : ∀ d ∈ cs.takeWhile (isQuotable c), isQuotable c d = true :=
    fun d mem => List.mem_takeWhile_imp mem
  have opened : ∃ quote body, c :: cs.takeWhile (isQuotable c) = quote :: body ∧ IsQuote quote ∧
      ∀ d ∈ body, d ≠ quote ∧ d ≠ '\n' :=
    ⟨c, _, rfl, isQuote, fun d mem => isQuotable_iff.mp (within d mem)⟩
  have whole := text_append_readString c cs
  have stops := List.head?_dropWhile_not (isQuotable c) cs
  unfold readString at whole ⊢
  generalize cs.dropWhile (isQuotable c) = rest at whole stops ⊢
  cases rest with
  | nil => exact ⟨opened, nofun⟩
  | cons d rest =>
    by_cases closed : d = c
    · subst closed
      simp only [↓reduceIte] at whole ⊢
      refine before_token (.string isQuote fun d mem => isQuotable_iff.mp (within d mem)) whole
        noComment fun {_ w} other front => ?_
      obtain ⟨body, within', rfl, -⟩ := other.of_isQuote isQuote
      obtain ⟨behind, rfl⟩ := front
      have same : (body ++ [d] ++ behind).takeWhile (isQuotable d) = body := by
        simp [List.takeWhile_append_of_pos within', isQuotable]
      rw [same]
    · simp only [closed, ↓reduceIte]
      refine ⟨opened, fun e same => ?_⟩
      cases same
      simpa [isQuotable, closed] using stops

/-! ### Numbers -/

section Number

open Number

variable {digits : List Char}

theorem readSign_of_isDigits (h : IsDigits digits) (behind : List Char) :
    readSign (digits ++ behind) = (false, digits ++ behind) := by
  cases digits with
  | nil => exact absurd rfl h.1
  | cons c cs =>
    have digit := h.2 c List.mem_cons_self
    unfold readSign
    split
    · rename_i same
      cases same
      exact absurd digit (by decide)
    · rename_i same
      cases same
      exact absurd digit (by decide)
    · rfl

theorem spanDigits_of_isDigits (h : IsDigits digits) (behind : List Char)
    (stops : ∀ c ∈ behind.head?, c.isDigit = false) :
    spanDigits (digits ++ behind) = (digits, behind) := by
  rw [spanDigits, takeWhile_of_stops h.2 stops, dropWhile_of_stops h.2 stops]

theorem toLower_of_isDigit {c : Char} (digit : c.isDigit = true) : c.toLower = c := by
  have noUpper : ¬ (c.val ≥ 65 ∧ c.val ≤ 90) := by
    simp only [Char.isDigit, Bool.and_eq_true, decide_eq_true_eq, UInt32.le_iff_toNat_le] at digit ⊢
    have : '9'.val.toNat = 57 := rfl
    have : (65 : UInt32).toNat = 65 := rfl
    omega
  exact dif_neg noUpper

/-- A text that begins with a digit is read as a decimal number. -/
theorem ofText?_of_isDigits (h : IsDigits digits) (behind : List Char) :
    ofText? (String.ofList (digits ++ behind)) = (readDecimal (digits ++ behind)).map Decimal.toFloat := by
  obtain ⟨c, cs, rfl⟩ := List.exists_cons_of_ne_nil h.1
  have digit := h.2 c List.mem_cons_self
  have noWord (first : Char) (word : List Char) (noDigit : first.isDigit = false) :
      String.ofList ((c :: cs ++ behind).map Char.toLower) ≠ String.ofList (first :: word) := by
    intro same
    have same := congrArg String.toList same
    simp only [String.toList_ofList, List.cons_append, List.map_cons, List.cons.injEq,
      toLower_of_isDigit digit] at same
    rw [← same.1, digit] at noDigit
    cases noDigit
  rw [ofText?, String.toList_ofList, readSign_of_isDigits h]
  simp only
  rw [if_neg, if_neg]
  · cases readDecimal (c :: cs ++ behind) <;> rfl
  · exact noWord 'n' ['a', 'n'] (by decide)
  · rintro (same | same)
    · exact noWord 'i' ['n', 'f'] (by decide) same
    · exact noWord 'i' ['n', 'f', 'i', 'n', 'i', 't', 'y'] (by decide) same

theorem ofText?_whole (h : IsDigits digits) : ofText? (String.ofList digits) =
    some (Decimal.toFloat ⟨digitsValue 0 digits, 0⟩) := by
  have read := spanDigits_of_isDigits h [] nofun
  have decimal := ofText?_of_isDigits h []
  rw [List.append_nil] at read decimal
  rw [decimal, readDecimal, read]
  simp [h.1, readExponent, digitsValue]

theorem ofText?_pointed {fraction : List Char} (h : IsDigits digits) (behind : IsDigits fraction) :
    ofText? (String.ofList (digits ++ '.' :: fraction)) =
      some (Decimal.toFloat ⟨digitsValue (digitsValue 0 digits) fraction, -fraction.length⟩) := by
  have read := spanDigits_of_isDigits h ('.' :: fraction) (by simp)
  have read' := spanDigits_of_isDigits behind [] nofun
  rw [List.append_nil] at read'
  rw [ofText?_of_isDigits h, readDecimal, read]
  simp [read', h.1, readExponent]

/-- A numeral in front of a text goes no further than the digits, or the digits on both sides of the
point behind them. -/
theorem numeral_front {numeral : List Char} (h : IsNumeral numeral) (front : numeral <+: cs) :
    numeral.length ≤ (cs.takeWhile Char.isDigit).length ∨
      ∃ tail, cs.dropWhile Char.isDigit = '.' :: tail ∧ tail.takeWhile Char.isDigit ≠ [] ∧
        numeral.length ≤
          (cs.takeWhile Char.isDigit).length + 1 + (tail.takeWhile Char.isDigit).length := by
  cases h with
  | whole whole => exact .inl (length_le_takeWhile front whole.2)
  | @pointed digits fraction whole behind =>
    obtain ⟨rest, rfl⟩ := front
    have read := spanDigits_of_isDigits whole ('.' :: (fraction ++ rest)) (by simp)
    obtain ⟨first, left⟩ := Prod.ext_iff.mp read
    simp only [spanDigits] at first left
    have more := length_le_takeWhile (List.prefix_append fraction rest) behind.2
    refine .inr ⟨fraction ++ rest, by simpa using left, fun none => ?_, ?_⟩
    · rw [none] at more
      exact behind.1 (List.eq_nil_of_length_eq_zero (Nat.le_zero.mp more))
    · rw [List.append_assoc, List.cons_append, first, List.length_append, List.length_cons]
      omega

theorem before_readNumber (digit : c.isDigit = true)
    (noComment : ¬ (c = '/' ∧ cs.head? = some '/')) :
    (readNumber c cs).1.Before (readNumber c cs).2 := by
  have isWhole : IsDigits (c :: cs.takeWhile Char.isDigit) :=
    ⟨nofun, List.forall_mem_cons.mpr ⟨digit, fun d mem => List.mem_takeWhile_imp mem⟩⟩
  -- Any lexeme at this place is a numeral, and `numeral_front` bounds it.
  have bound {kind w} (other : Lexeme kind (c :: w)) (front : w <+: cs) := numeral_front
    (other.of_isDigit digit).1 (List.cons_prefix_cons.mpr ⟨rfl, front⟩)
  simp only [List.takeWhile_cons_of_pos digit, List.dropWhile_cons_of_pos digit] at bound
  have whole := text_append_readNumber c cs
  revert whole
  unfold readNumber
  simp only [spanDigits]
  generalize cs.takeWhile Char.isDigit = digits at isWhole bound ⊢
  generalize cs.dropWhile Char.isDigit = rest at bound ⊢
  split
  · rename_i tail
    split
    · rename_i read
      intro whole
      refine before_token (.number (.whole isWhole) (ofText?_whole isWhole)) whole noComment ?_
      intro kind w other front
      rcases bound other front with short | ⟨tail', point, more, -⟩
      · exact short
      · cases point
        exact absurd (congrArg Prod.fst read) more
    · rename_i fraction rest' more read
      cases read
      intro whole
      have behind : IsDigits (tail.takeWhile Char.isDigit) :=
        ⟨more, fun d mem => List.mem_takeWhile_imp mem⟩
      refine before_token (.number (.pointed isWhole behind) (ofText?_pointed isWhole behind)) whole
        noComment ?_
      intro kind w other front
      rw [List.length_append, List.length_cons (a := '.')]
      rcases bound other front with short | ⟨tail', point, -, long⟩
      · omega
      · cases point
        omega
  · rename_i noPoint
    intro whole
    refine before_token (.number (.whole isWhole) (ofText?_whole isWhole)) whole noComment ?_
    intro kind w other front
    rcases bound other front with short | ⟨tail, point, -⟩
    · exact short
    · exact absurd point (noPoint tail)

end Number

/-! ### Symbols -/

/-- A symbol in front of a text is the character there, or it has an equals sign behind that. -/
theorem symbol_front {s : Symbol} (front : s.text <+: c :: cs) :
    s.text = [c] ∨ s.text = [c, '='] ∧ cs.head? = some '=' ∧ readSymbol? (c :: cs) = some (s, cs.tail) := by
  obtain ⟨behind, whole⟩ := front
  cases s <;> cases whole <;> first | exact .inl rfl | exact .inr ⟨rfl, rfl, rfl⟩

theorem readSymbol?_longest {s : Symbol} (front : s.text <+: c :: cs) :
    ∃ longest rest, readSymbol? (c :: cs) = some (longest, rest) ∧
      s.text.length ≤ longest.text.length := by
  rcases symbol_front front with one | ⟨-, -, read⟩
  · cases known : readSymbol? (c :: cs) with
    | some pair =>
      refine ⟨pair.1, pair.2, rfl, ?_⟩
      rw [one]
      exact List.length_pos_iff.mpr (by cases pair.1 <;> exact nofun)
    | none =>
      unfold readSymbol? at known
      split at known
      iterate 4 cases known
      · rename_i none
        cases none
      · rename_i same
        cases same
        have noSymbol := List.find?_eq_none.mp (Option.map_eq_none_iff.mp known) s s.mem_all
        exact absurd (beq_iff_eq.mpr one) noSymbol
  · exact ⟨s, _, read, Nat.le_refl _⟩

/-! ### Segments -/

theorem before_read (c : Char) (cs : List Char) : (read c cs).1.Before (read c cs).2 := by
  have whole := text_append_read c cs
  revert whole
  unfold read
  split
  · exact fun _ => trivial
  rename_i newline
  split
  · rename_i blank
    exact fun _ => blank
  rename_i blank
  simp only [not_or] at blank
  split
  · rename_i slashes
    obtain ⟨rfl, second⟩ := slashes
    obtain ⟨cs, rfl⟩ : ∃ rest, cs = '/' :: rest := by
      cases cs with
      | nil => cases second
      | cons d rest => exact ⟨rest, by rw [Option.some.inj second]⟩
    refine fun _ => ⟨⟨cs.takeWhile (· != '\n'), rfl, not_mem_takeWhile cs (by decide)⟩, ?_⟩
    intro d first
    have stops := List.head?_dropWhile_not (· != '\n') cs
    change d ∈ (cs.dropWhile (· != '\n')).head? at first
    rw [first] at stops
    simpa using stops
  rename_i noComment
  split
  · rename_i quote
    exact fun _ => before_readString quote noComment
  rename_i noQuote
  split
  · rename_i digit
    exact fun _ => before_readNumber digit noComment
  rename_i noDigit
  split
  · rename_i start
    exact fun _ => before_readWord start noComment
  rename_i noStart
  rw [Bool.not_eq_true] at noDigit noStart
  -- Only symbols are left.
  have symbol {kind w} (other : Lexeme kind (c :: w)) (front : w <+: cs) :
      ∃ longest rest, readSymbol? (c :: cs) = some (longest, rest) ∧
        (c :: w).length ≤ longest.text.length := by
    obtain ⟨s, rfl, written⟩ := other.of_other noQuote noDigit noStart
    rw [← written]
    exact readSymbol?_longest (written ▸ List.cons_prefix_cons.mpr ⟨rfl, front⟩)
  split
  · rename_i s rest read
    intro whole
    refine before_token (.symbol s) whole noComment fun other front => ?_
    obtain ⟨longest, rest', read', long⟩ := symbol other front
    rw [read] at read'
    cases read'
    exact long
  · rename_i read
    refine fun _ => ⟨newline, blank.1, blank.2.1, blank.2.2, noQuote, ?_⟩
    intro kind lexeme other front
    obtain ⟨w, rfl, behind⟩ := other.exists_cons front
    obtain ⟨longest, rest', read', -⟩ := symbol other behind
    rw [read] at read'
    cases read'

/-! ## There is no other way to cut a text -/

variable {segment : Segment} {rest : List Char}

theorem Before.text_ne_nil (h : segment.Before rest) : segment.text ≠ [] := by
  cases segment with
  | comment text =>
    obtain ⟨⟨body, rfl, -⟩, -⟩ := h
    exact nofun
  | token kind lexeme => exact h.1.ne_nil
  | unterminated text =>
    obtain ⟨⟨quote, body, rfl, -⟩, -⟩ := h
    exact nofun
  | _ => exact nofun

theorem read_quote (isQuote : IsQuote c) : read c cs = readString c cs := by
  rcases isQuote with rfl | rfl <;> simp [read]

theorem not_isQuotable_of_lineEnds (ends : LineEnds rest) :
    ∀ d ∈ rest.head?, isQuotable c d = false := by
  intro d first
  rw [ends d first]
  exact isQuotable_newline c

/-- Of two segments that stand rightly at one place, one of them a token but no string, the other one is
that token too. -/
theorem Before.token_unique {kind : Kind} {lexeme rest' : List Char} (noQuote : ¬ IsQuote c)
    (h : (Segment.token kind lexeme).Before rest) (whole : lexeme ++ rest = c :: cs)
    (h' : segment.Before rest') (whole' : segment.text ++ rest' = c :: cs) :
    (segment, rest') = (.token kind lexeme, rest) := by
  obtain ⟨isLexeme, noComment, longest⟩ := h
  have front : lexeme <+: c :: cs := ⟨rest, whole⟩
  obtain ⟨w, rfl, -⟩ := isLexeme.exists_cons front
  have solid := isLexeme.isSolid
  rw [whole] at noComment longest
  cases segment with
  | blank d =>
    cases whole'
    rcases h' with rfl | rfl | rfl <;> simp at solid
  | newline =>
    cases whole'
    simp at solid
  | comment text =>
    obtain ⟨⟨body, rfl, -⟩, -⟩ := h'
    cases whole'
    exact absurd ⟨_, rfl⟩ noComment
  | token kind' lexeme' =>
    obtain ⟨isLexeme', -, longest'⟩ := h'
    change lexeme' ++ rest' = c :: cs at whole'
    rw [whole'] at longest'
    -- Each of the two lexemes is the longest one at this place, so they are equally long.
    have short := longest' isLexeme front
    have long := longest isLexeme' ⟨rest', whole'⟩
    obtain ⟨rfl, rfl⟩ := List.append_inj (whole'.trans whole.symm) (Nat.le_antisymm long short)
    rw [isLexeme.kind_unique isLexeme']
  | unexpected d =>
    obtain ⟨-, -, -, -, -, none⟩ := h'
    cases whole'
    exact absurd front (none isLexeme)
  | unterminated text =>
    obtain ⟨⟨quote, body, rfl, isQuote, -⟩, -⟩ := h'
    cases whole'
    exact absurd isQuote noQuote

/-- Where a character is unexpected no other segment stands rightly. -/
theorem Before.unexpected_unique {rest' : List Char} (h : (Segment.unexpected c).Before cs)
    (h' : segment.Before rest') (whole' : segment.text ++ rest' = c :: cs) :
    (segment, rest') = (.unexpected c, cs) := by
  obtain ⟨noNewline, noSpace, noReturn, noTab, noQuote, none⟩ := h
  cases segment with
  | blank d =>
    cases whole'
    simp [Before, noSpace, noReturn, noTab] at h'
  | newline =>
    cases whole'
    exact absurd rfl noNewline
  | comment text =>
    obtain ⟨⟨body, rfl, -⟩, -⟩ := h'
    cases whole'
    exact absurd ⟨_, rfl⟩ (none (.symbol .slash))
  | token kind' lexeme' => exact absurd ⟨_, whole'⟩ (none h'.1)
  | unexpected d =>
    cases whole'
    rfl
  | unterminated text =>
    obtain ⟨⟨quote, body, rfl, isQuote, -⟩, -⟩ := h'
    cases whole'
    exact absurd isQuote noQuote

/-- What stands rightly in front of a text is what is read. -/
theorem Before.eq_read (h : segment.Before rest) (whole : segment.text ++ rest = c :: cs) :
    read c cs = (segment, rest) := by
  cases segment with
  | blank d =>
    cases whole
    rcases h with rfl | rfl | rfl <;> simp [read]
  | newline =>
    cases whole
    simp [read]
  | comment text =>
    obtain ⟨⟨body, rfl, oneLine⟩, ends⟩ := h
    cases whole
    have within : ∀ d ∈ '/' :: body, (d != '\n') = true :=
      List.forall_mem_cons.mpr ⟨by decide, fun d mem => bne_iff_ne.mpr fun same => oneLine (same ▸ mem)⟩
    have stops : ∀ d ∈ rest.head?, (d != '\n') = false := fun d first => by rw [ends d first]; rfl
    change read '/' ('/' :: body ++ rest) = _
    have comment : read '/' ('/' :: body ++ rest) = readComment '/' ('/' :: body ++ rest) := by simp [read]
    rw [comment, readComment, takeWhile_of_stops within stops, dropWhile_of_stops within stops]
  | token kind lexeme =>
    by_cases isQuote : IsQuote c
    · -- An unterminated string begins like this too, so `token_unique` does not apply.
      obtain ⟨w, rfl, -⟩ := h.1.exists_cons ⟨rest, whole⟩
      obtain ⟨body, within, rfl, rfl⟩ := h.1.of_isQuote isQuote
      cases whole
      rw [read_quote isQuote]
      simpa using readString_closed within
    · exact Before.token_unique isQuote h whole (before_read c cs) (text_append_read c cs)
  | unexpected d =>
    cases whole
    exact Before.unexpected_unique h (before_read ..) (text_append_read ..)
  | unterminated text =>
    obtain ⟨⟨opening, body, rfl, isQuote, within⟩, ends⟩ := h
    cases whole
    replace within : ∀ d ∈ body, isQuotable c d = true :=
      fun d mem => isQuotable_iff.mpr (within d mem)
    change read c (body ++ rest) = _
    have stops := not_isQuotable_of_lineEnds (c := c) ends
    rw [read_quote isQuote, readString, takeWhile_of_stops within stops, dropWhile_of_stops within stops]
    cases rest with
    | nil => rfl
    | cons d rest =>
      have newline : d = '\n' := ends d rfl
      subst newline
      have opened : '\n' ≠ c := by rcases isQuote with rfl | rfl <;> decide
      simp [opened]

end Segment

theorem segmented_segments (cs : List Char) : Segmented cs (segments cs) := by
  fun_induction segments cs with
  | case1 => exact .nil
  | case2 c cs first ih =>
    rw [← Segment.text_append_read c cs]
    exact .cons (Segment.before_read c cs) ih

/-- **There is one way to cut a text into segments rightly,** and it is how the text is read. -/
theorem segmented_iff {cs : List Char} {cut : List Segment} : Segmented cs cut ↔ cut = segments cs := by
  constructor
  · intro h
    induction h with
    | nil => rw [segments_nil]
    | @cons first rest others before _ ih =>
      cases whole : first.text ++ rest with
      | nil => exact absurd (List.append_eq_nil_iff.mp whole).1 before.text_ne_nil
      | cons c cs => rw [segments_cons, before.eq_read whole, ih]
  · rintro rfl
    exact segmented_segments cs

/-- The tokens of segments that stand rightly are lexemes, with the mark for the end behind them. -/
theorem Segmented.tokens {cs : List Char} {all : List Segment} (h : Segmented cs all) (line : Nat) :
    ∃ tokens last, (Scan.ofSegments line all).tokens = tokens ++ [⟨.endOfInput, "", last⟩] ∧
      ∀ t ∈ tokens, Lexeme t.kind t.lexeme.toList := by
  induction h generalizing line with
  | nil => exact ⟨[], line, rfl, nofun⟩
  | @cons first _ _ before _ ih =>
    cases first with
    | token kind lexeme =>
      obtain ⟨tokens, last, cut, lexemes⟩ := ih line
      refine ⟨⟨kind, String.ofList lexeme, line⟩ :: tokens, last, congrArg (_ :: ·) cut, ?_⟩
      refine List.forall_mem_cons.mpr ⟨?_, lexemes⟩
      rw [String.toList_ofList]
      exact before.1
    | newline => exact ih (line + 1)
    | blank _ | comment _ | unexpected _ | unterminated _ => exact ih line

/-- What the tokens of a source are. -/
theorem tokens_scan (source : String) : ∃ tokens last,
    (scan source).tokens = tokens ++ [⟨.endOfInput, "", last⟩] ∧
      ∀ t ∈ tokens, Lexeme t.kind t.lexeme.toList :=
  (segmented_segments _).tokens 1

/-- Every token but the mark for the end is a lexeme. -/
theorem lexeme_of_mem_scan {source : String} {t : Token} (mem : t ∈ (scan source).tokens)
    (more : t.kind ≠ .endOfInput) : Lexeme t.kind t.lexeme.toList := by
  obtain ⟨tokens, last, cut, lexemes⟩ := tokens_scan source
  rw [cut] at mem
  rcases List.mem_append.mp mem with mem | mem
  · exact lexemes t mem
  · rw [List.mem_singleton.mp mem] at more
    exact absurd rfl more

section Spelled

variable {t : Token} (isLexeme : Lexeme t.kind t.lexeme.toList)

include isLexeme

/-- Symbols are spelled in only one way. -/
theorem Token.lexeme_of_symbol {s : Symbol} (kind : t.kind = .symbol s) :
    t.lexeme = String.ofList s.text := by
  rw [kind] at isLexeme
  generalize written : t.lexeme.toList = text at isLexeme
  cases isLexeme
  rw [← written, String.ofList_toList]

/-- Reserved words are spelled in only one way. -/
theorem Token.lexeme_of_keyword {k : Keyword} (kind : t.kind = .keyword k) : t.lexeme = k.text := by
  rw [kind] at isLexeme
  generalize written : t.lexeme.toList = text at isLexeme
  cases isLexeme
  exact String.toList_injective written

/-- Names are no reserved words. -/
theorem Token.lexeme_ne_text {name : String} (kind : t.kind = .identifier name) (k : Keyword) :
    t.lexeme ≠ k.text := by
  rw [kind] at isLexeme
  generalize written : t.lexeme.toList = text at isLexeme
  cases isLexeme with
  | identifier isWord free =>
    have same : t.lexeme = String.ofList text := by rw [← written, String.ofList_toList]
    exact same ▸ (free k).symm

end Spelled

/-! ## Tokens and errors on their lines -/

/-- The segments, each with the text in front of it. -/
def placed (front : List Char) : List Segment → List (List Char × Segment)
  | [] => []
  | segment :: rest => (front, segment) :: placed (front ++ segment.text) rest

/-- The line that follows on a text. -/
def lineBehind (front : List Char) : Nat := 1 + front.count '\n'

/-- The token that a segment makes behind a text. -/
def Segment.token? (front : List Char) : Segment → Option Token
  | token kind lexeme => some ⟨kind, String.ofList lexeme, lineBehind front⟩
  | _ => none

/-- The error that a segment makes behind a text. -/
def Segment.error? (front : List Char) : Segment → Option ScanError
  | unexpected c => some ⟨lineBehind front, .unexpectedCharacter c⟩
  | unterminated _ => some ⟨lineBehind front, .unterminatedString⟩
  | _ => none

theorem Scan.ofSegments_placed {all : List Segment} (onLine : ∀ segment ∈ all, segment.OnLine)
    (front : List Char) : ofSegments (lineBehind front) all =
      ⟨(placed front all).filterMap (fun (before, segment) => segment.token? before) ++
          [⟨.endOfInput, "", lineBehind (front ++ all.flatMap Segment.text)⟩],
        (placed front all).filterMap fun (before, segment) => segment.error? before⟩ := by
  induction all generalizing front with
  | nil => simp [ofSegments, placed]
  | cons segment rest ih =>
    rw [List.forall_mem_cons] at onLine
    have line : lineBehind (front ++ segment.text) = lineBehind front + segment.breaks := by
      rw [lineBehind, List.count_append, onLine.1.breaks, ← Nat.add_assoc]
      rfl
    have behind := ih onLine.2 (front ++ segment.text)
    rw [line, List.append_assoc, ← List.flatMap_cons] at behind
    cases segment <;>
      simp only [ofSegments, placed, List.filterMap_cons, Segment.token?, Segment.error?] <;>
      simp only [Segment.breaks, Nat.add_zero] at behind <;> rw [behind] <;> rfl

/-- **Scanning takes the longest lexemes.**  There is exactly one way to cut a source into segments that
stand rightly, and nothing of the source is left out of them.  The tokens and errors of the source are
those that these segments make, each on the line that the newlines before it make, and a mark for the
end behind all of them. -/
theorem scan_longest (source : String) : ∃ all : List Segment,
    (∀ cut, Segmented source.toList cut ↔ cut = all) ∧
    all.flatMap Segment.text = source.toList ∧
    (scan source).tokens =
      (placed [] all).filterMap (fun (front, segment) => segment.token? front) ++
        [⟨.endOfInput, "", 1 + source.toList.count '\n'⟩] ∧
    (scan source).errors = (placed [] all).filterMap fun (front, segment) => segment.error? front := by
  have placed := Scan.ofSegments_placed (onLine_segments source.toList) []
  rw [List.nil_append, segments_text] at placed
  exact ⟨segments source.toList, fun _ => segmented_iff, segments_text _,
    congrArg Scan.tokens placed, congrArg Scan.errors placed⟩

end Lox
