/-!
# Numbers as binary fractions

The numbers of the language are double-precision floating point numbers.  `decode` takes one apart
into a sign, a whole mantissa and a power of two, so that its text (`Lox.Number.Text`) and its
remainders (`Lox.Number.Remainder`) can be worked out exactly, in whole numbers.
-/

namespace Lox.Number

/-- The number `± mantissa * 2 ^ exponent`. -/
structure Binary where
  negative : Bool
  mantissa : Nat
  exponent : Int
  deriving DecidableEq, Repr

/-- A number, taken apart. -/
inductive Decoded where
  | nan
  | infinite (negative : Bool)
  | finite (value : Binary)
  deriving DecidableEq, Repr

/-- The least exponent of a double, that of the numbers nearest to zero. -/
def leastExponent : Int := -1074

/-- The mantissa of a power of two that is not among the numbers nearest to zero. -/
def leadingBit : Nat := Nat.pow 2 52

/-- Take a number apart. -/
def decode (x : Float) : Decoded :=
  let bits := x.toBits.toNat
  let negative := decide (Nat.pow 2 63 ≤ bits)
  let scale := bits / Nat.pow 2 52 % Nat.pow 2 11
  let fraction := bits % Nat.pow 2 52
  if scale = 2047 then
    if fraction = 0 then .infinite negative else .nan
  else if scale = 0 then
    .finite ⟨negative, fraction, leastExponent⟩
  else
    .finite ⟨negative, leadingBit + fraction, leastExponent + (scale - 1 : Nat)⟩

/-- Put a finite number together again. -/
def Binary.toFloat (value : Binary) : Float :=
  let size := (Float.ofNat value.mantissa).scaleB value.exponent
  if value.negative then -size else size

example : decode 1.0 = .finite ⟨false, leadingBit, -52⟩ := by decide
example : decode (-0.0) = .finite ⟨true, 0, -1074⟩ := by decide
example : decode (1.0 / 0.0) = .infinite false := by decide
example : decode (0.0 / 0.0) = .nan := by decide

end Lox.Number
