/-
# ScriptLang.Number.Whole — whole numbers and remainders.

The whole number that a finite number is, if it is one, and the remainder of a division that is cut
toward zero.  Both are computed exactly, from mantissas and exponents.
-/
import ScriptLang.Number.Binary64

namespace ScriptLang.Number

open Binary64

/-- A natural number with a sign. -/
def signed (negative : Bool) (n : Nat) : Int := if negative then -(n : Int) else n

/-- The whole number that equals `x`; none if `x` has a fraction or is not finite. -/
def whole? (x : Float) : Option Int :=
  let r := value (magnitude x)
  if isFinite x && r.num % r.den = 0 then some (signed (isNegative x) r.floor) else none

/-- The number that is no number. -/
def nan : Float := 0.0 / 0.0

/-- The remainder of `x / y` with the quotient cut toward zero.  It has the sign of `x`; there is none
if `x` is infinite or `y` is zero, and an infinite `y` leaves `x` as it is. -/
def remainder (x y : Float) : Float :=
  if x.isNaN || y.isNaN || !isFinite x || magnitude y = 0 then nan
  else if !isFinite y then x
  else
    let e := min (exponent (magnitude x)) (exponent (magnitude y))
    let units (z : Float) : Nat := ((value (magnitude z)).scale 2 (-e)).floor
    ofMagnitude (isNegative x) (nearest (.ofScaled (units x % units y) 2 e))

end ScriptLang.Number
