/-
# ScriptLang.Number.Binary64 — the bits of a binary64 number.

A finite number is a sign and a magnitude, and its magnitude is `mantissa * 2 ^ exponent`.  The bits of
a magnitude, read as a natural number, grow with it, so a fraction is rounded by computing the bits of
the nearest magnitude; of two that are equally near, the one with the even mantissa is taken.
-/
import ScriptLang.Number.Ratio

namespace ScriptLang.Binary64

/-- The bit of the sign, `2 ^ 63`. -/
def signBit : Nat := 0x8000000000000000

/-- The bit above the written bits of a mantissa, `2 ^ 52`.  It counts in every magnitude that has it or
a greater one set, and the bits from it on upward hold the exponent. -/
def hiddenBit : Nat := 0x10000000000000

/-- The bits of the infinite magnitude: every bit of the exponent. -/
def infinity : Nat := 0x7ff0000000000000

/-- The exponent of the smallest magnitudes. -/
def leastExponent : Int := -1074

/-- The bits of a number without its sign. -/
def magnitude (x : Float) : Nat := x.toBits.toNat % signBit

/-- Is the sign bit set? -/
def isNegative (x : Float) : Bool := signBit ≤ x.toBits.toNat

/-- Is a number neither infinite nor NaN? -/
def isFinite (x : Float) : Bool := magnitude x < infinity

/-- The mantissa of a finite magnitude. -/
def mantissa (bits : Nat) : Nat := if bits < hiddenBit then bits else bits % hiddenBit + hiddenBit

/-- The exponent of a finite magnitude. -/
def exponent (bits : Nat) : Int :=
  if bits < hiddenBit then leastExponent else leastExponent + (bits / hiddenBit : Nat) - 1

/-- The value of a finite magnitude. -/
def value (bits : Nat) : Ratio := .ofScaled (mantissa bits) 2 (exponent bits)

/-- The number with a given sign and the bits of a given magnitude. -/
def ofMagnitude (negative : Bool) (bits : Nat) : Float :=
  Float.ofBits (UInt64.ofNat (if negative then bits + signBit else bits))

/-- The bits of the magnitude nearest to a fraction. -/
def nearest (r : Ratio) : Nat :=
  if r.num = 0 then 0
  else
    let e := max (r.floorLog2 - 52) leastExponent
    min ((e - leastExponent).toNat * hiddenBit + (r.scale 2 (-e)).roundEven) infinity

end ScriptLang.Binary64
