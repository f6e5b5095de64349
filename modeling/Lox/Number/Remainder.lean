import Lox.Number.Binary

/-!
# The remainder of a division

`remainder x y` is what is left of `x` when the multiple of `y` nearest to it on the side of zero is
taken away.  It is exact, smaller than `y` and has the sign of `x`; there is none if `x` is infinite
or `y` is zero.
-/

namespace Lox.Number

/-- The remainder of two binary fractions: both are counted in units of the smaller power of
two. -/
def Binary.remainder (x y : Binary) : Binary :=
  let exponent := min x.exponent y.exponent
  let units (value : Binary) : Nat := value.mantissa * Nat.pow 2 (value.exponent - exponent).toNat
  ⟨x.negative, units x % units y, exponent⟩

/-- The remainder of `x` divided by `y`. -/
def remainder (x y : Float) : Float :=
  match decode x, decode y with
  | .finite a, .finite b => if b.mantissa = 0 then 0.0 / 0.0 else (a.remainder b).toFloat
  | .finite _, .infinite _ => x
  | _, _ => 0.0 / 0.0

end Lox.Number
