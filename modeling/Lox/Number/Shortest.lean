import Lox.Number.Binary

/-!
# The shortest decimal

A decimal number **reads back** as a given double if that double is the one nearest to it.
`shortest` finds the decimal number with the fewest digits that reads back and, of those, the one
nearest to the double; of two that are equally near it takes the larger.

The numbers that read back form an interval around the double, ends included if the mantissa is
even.  For each count of digits, from one up, only the two neighbours of the double among the
numbers with so many digits have to be tested: if any of them lies in the interval, so does one of
these two.
-/

namespace Lox.Number

/-- The number `coefficient * 10 ^ exponent`. -/
structure Decimal where
  coefficient : Nat
  exponent : Int
  deriving DecidableEq, Repr

/-- How many decimal digits a whole number has. -/
def digitCount (n : Nat) : Nat := (Nat.toDigits 10 n).length

/-- The place of the first digit of `above / below`: the least `p` with
`above / below < 10 ^ p`. -/
def leadingPlace (above below : Nat) : Int :=
  if below ≤ above then digitCount (above / below)
  else 1 - (digitCount ((below - 1) / above) : Int)

/-- The interval of the numbers that read back as `mantissa * 2 ^ exponent`, with the whole numbers
`low`, `middle` and `high` counted in units of `unit / whole`. -/
structure Interval where
  low : Nat
  middle : Nat
  high : Nat
  unit : Nat
  whole : Nat
  /-- Do the ends belong to it? -/
  closed : Bool

/-- The interval of a double.  Its lower half is smaller at a power of two, where the doubles below
lie closer together. -/
def Interval.around (mantissa : Nat) (exponent : Int) : Interval :=
  let narrow := mantissa = leadingBit ∧ exponent ≠ leastExponent
  { low := 4 * mantissa - (if narrow then 1 else 2)
    middle := 4 * mantissa
    high := 4 * mantissa + 2
    unit := Nat.pow 2 (exponent - 2).toNat
    whole := Nat.pow 2 (2 - exponent).toNat
    closed := mantissa % 2 = 0 }

/-- The neighbours of the middle among the multiples of `10 ^ place`, if they read back, the
nearer one first. -/
def Interval.hit? (i : Interval) (place : Int) : Option Nat :=
  let scale := i.unit * Nat.pow 10 (-place).toNat
  let step := i.whole * Nat.pow 10 place.toNat
  let middle := i.middle * scale
  let inside (n : Nat) : Bool :=
    if i.closed then i.low * scale ≤ n * step ∧ n * step ≤ i.high * scale
    else i.low * scale < n * step ∧ n * step < i.high * scale
  let below := middle / step
  let above := below + 1
  match inside below, inside above with
  | true, true => some (if middle - below * step < above * step - middle then below else above)
  | true, false => some below
  | false, true => some above
  | false, false => none

/-- The most digits that a double needs. -/
def mostDigits : Nat := 17

/-- The shortest decimal number that reads back as `mantissa * 2 ^ exponent`. -/
def shortest (mantissa : Nat) (exponent : Int) : Decimal :=
  let i := Interval.around mantissa exponent
  let top := leadingPlace (i.middle * i.unit) i.whole
  let found := (List.range mostDigits).findSome? fun n =>
    let place := top - (n + 1 : Nat)
    (i.hit? place).map fun coefficient =>
      if coefficient = Nat.pow 10 (n + 1) then ⟨1, top⟩ else ⟨coefficient, place⟩
  found.getD ⟨i.middle * i.unit / i.whole, 0⟩

/-- The digits of a decimal number, written out without an exponent. -/
def Decimal.text (d : Decimal) : String :=
  let digits := Nat.toDigits 10 d.coefficient
  let places := (-d.exponent).toNat
  let written :=
    if places = 0 then digits ++ List.replicate d.exponent.toNat '0'
    else if places < digits.length then
      digits.take (digits.length - places) ++ '.' :: digits.drop (digits.length - places)
    else '0' :: '.' :: List.replicate (places - digits.length) '0' ++ digits
  String.ofList written

end Lox.Number
