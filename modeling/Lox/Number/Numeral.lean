import Lox.Number.Shortest

/-!
# Numerals

A numeral is the text of a number: digits with at most one point among them, at least one digit, an
optional sign in front and an optional power of ten behind, such as `12`, `.5`, `-3.`, `1.5e-3`.
The words `inf`, `infinity` and `nan` are numerals too, in upper or lower case.  A numeral reads as
the double nearest to it (`Decimal.toFloat`).
-/

namespace Lox.Number

/-- The value of a row of digits, with those of `before` in front of them. -/
def digitsValue (before : Nat) (digits : List Char) : Nat :=
  digits.foldl (fun n c => 10 * n + (c.toNat - '0'.toNat)) before

/-- The double nearest to a decimal number.  Numbers too large or too small for any double are
settled by their digits alone. -/
def Decimal.toFloat (d : Decimal) : Float :=
  let top := d.exponent + digitCount d.coefficient
  if d.coefficient = 0 then 0.0
  else if 310 < top then 1.0 / 0.0
  else if top < -330 then 0.0
  else Float.ofScientific d.coefficient (d.exponent < 0) d.exponent.natAbs

/-- Split off the digits at the front. -/
def spanDigits (cs : List Char) : List Char × List Char :=
  (cs.takeWhile Char.isDigit, cs.dropWhile Char.isDigit)

/-- Read a sign, if there is one: is it a minus? -/
def readSign : List Char → Bool × List Char
  | '-' :: rest => (true, rest)
  | '+' :: rest => (false, rest)
  | cs => (false, cs)

/-- Read a power of ten up to the end; an empty text is the power zero. -/
def readExponent : List Char → Option Int
  | [] => some 0
  | c :: cs =>
      let (negative, digits) := readSign cs
      if c.toLower = 'e' ∧ digits ≠ [] ∧ digits.all Char.isDigit then
        let size : Int := digitsValue 0 digits
        some (if negative then -size else size)
      else none

/-- Read digits, a point and a power of ten, up to the end. -/
def readDecimal (cs : List Char) : Option Decimal :=
  let (whole, rest) := spanDigits cs
  let (fraction, rest) :=
    match rest with
    | '.' :: rest => spanDigits rest
    | rest => ([], rest)
  if whole = [] ∧ fraction = [] then none
  else (readExponent rest).map fun exponent =>
    ⟨digitsValue (digitsValue 0 whole) fraction, exponent - fraction.length⟩

/-- The number that a text is the numeral of. -/
def ofText? (s : String) : Option Float :=
  let (negative, cs) := readSign s.toList
  let word := String.ofList (cs.map Char.toLower)
  let size? :=
    if word = "inf" ∨ word = "infinity" then some (1.0 / 0.0)
    else if word = "nan" then some (0.0 / 0.0)
    else (readDecimal cs).map Decimal.toFloat
  size?.map fun size => if negative then -size else size

end Lox.Number
