/-
# ScriptLang.Number.Ratio — positive fractions of natural numbers.

Rounding and comparing binary64 numbers exactly is work on fractions: scaling by a power of two or ten,
rounding to a whole number, and finding the power below.
-/

namespace ScriptLang

/-- The fraction `num / den`. -/
structure Ratio where
  num : Nat
  den : Nat
deriving DecidableEq, Repr

namespace Ratio

/-- The fraction times `base ^ e`. -/
def scale (r : Ratio) (base : Nat) (e : Int) : Ratio :=
  ⟨r.num * Nat.pow base e.toNat, r.den * Nat.pow base (-e).toNat⟩

/-- The natural number `n` times `base ^ e`. -/
def ofScaled (n base : Nat) (e : Int) : Ratio := scale ⟨n, 1⟩ base e

/-- The greatest whole number that is not above the fraction. -/
def floor (r : Ratio) : Nat := r.num / r.den

/-- How the fraction lies between the whole numbers around it: below the middle, in it, or above. -/
def middle (r : Ratio) : Ordering := compare (2 * (r.num % r.den)) r.den

/-- The whole number nearest to the fraction, the even one of two that are equally near. -/
def roundEven (r : Ratio) : Nat :=
  match r.middle with
  | .lt => r.floor
  | .gt => r.floor + 1
  | .eq => r.floor + r.floor % 2

/-- The greatest `e` with `2 ^ e` not above a positive fraction. -/
def floorLog2 (r : Ratio) : Int :=
  let e : Int := (r.num.log2 : Int) - r.den.log2
  if (r.scale 2 (-e)).floor = 0 then e - 1 else e

/-- How many digits a natural number is written with. -/
def digitCount (n : Nat) : Nat := (Nat.toDigits 10 n).length

/-- The greatest `e` with `10 ^ e` not above a positive fraction. -/
def floorLog10 (r : Ratio) : Int :=
  let e : Int :=
    if r.den ≤ r.num then (digitCount (r.num / r.den) : Int) - 1 else 1 - (digitCount (r.den / r.num) : Int)
  if (r.scale 10 (-e)).floor = 0 then e - 1 else e

end Ratio

end ScriptLang
