import Lox.Number.Shortest

/-!
# Numbers as text

A number is written with the fewest digits that read back as it, always positionally and never with
an exponent: `0.1`, `100`, `0.0000001`.  A whole number has no point, negative zero keeps its sign,
and what is not finite is written `inf`, `-inf` or `NaN`.
-/

namespace Lox.Number

/-- The text of a number. -/
def text (x : Float) : String :=
  match decode x with
  | .nan => "NaN"
  | .infinite negative => if negative then "-inf" else "inf"
  | .finite value =>
      let size :=
        if value.mantissa = 0 then "0" else (shortest value.mantissa value.exponent).text
      if value.negative then "-" ++ size else size

end Lox.Number
