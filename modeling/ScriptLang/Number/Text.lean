/-
# ScriptLang.Number.Text — numbers as text.

Two layouts share the digits of `Decimal.shortest`.  The plain layout, which scripts see, never has an
exponent and writes a whole number without a point.  The structured layout, which structured output
uses, always shows a fraction or an exponent.
-/
import ScriptLang.Number.Decimal

namespace ScriptLang.Number

/-- A text of `n` zeros. -/
def zeros (n : Nat) : String := String.ofList (List.replicate n '0')

/-- The digits of a natural number without the zeros at their end. -/
def significant (n : Nat) : List Char :=
  ((Nat.toDigits 10 n).reverse.dropWhile (· = '0')).reverse

/-- Digits whose point stands after the first `point` of them. -/
def placePoint (digits : List Char) (point : Int) : String :=
  if point ≤ 0 then "0." ++ zeros (-point).toNat ++ String.ofList digits
  else if point.toNat < digits.length then
    String.ofList (digits.take point.toNat) ++ "." ++ String.ofList (digits.drop point.toNat)
  else String.ofList digits ++ zeros (point.toNat - digits.length)

/-- The significant digits of a decimal, and how many of them (or of the zeros around them) stand before
the point. -/
def spread (d : Decimal) : List Char × Int :=
  (significant d.digits, Ratio.digitCount d.digits + d.exponent)

/-- A positive decimal without an exponent. -/
def plainDecimal (d : Decimal) : String :=
  let (digits, point) := spread d
  placePoint digits point

/-- The plain layout: what a script sees of a number.  Both zeros are `0`. -/
def text (x : Float) : String :=
  if x.isNaN then "NaN"
  else
    let sign := if Binary64.isNegative x then "-" else ""
    if !Binary64.isFinite x then sign ++ "Infinity"
    else if Binary64.magnitude x = 0 then "0"
    else sign ++ plainDecimal (Decimal.shortest .up (Binary64.magnitude x))

/-- A positive decimal with a fraction or an exponent: positional while its first digit stands for a
power of ten from `-5` to `15`. -/
def structuredDecimal (d : Decimal) : String :=
  let (digits, point) := spread d
  if -5 < point && point ≤ 16 then
    if digits.length ≤ point.toNat then placePoint digits point ++ ".0" else placePoint digits point
  else
    let mark := if 0 < point then "e+" else "e-"
    let fraction := if digits.length ≤ 1 then "" else "." ++ String.ofList digits.tail
    String.ofList (digits.take 1) ++ fraction ++ mark ++ toString (point - 1).natAbs

/-- The structured layout of a finite number. -/
def structuredText (x : Float) : String :=
  let sign := if Binary64.isNegative x then "-" else ""
  if Binary64.magnitude x = 0 then sign ++ "0.0"
  else sign ++ structuredDecimal (Decimal.shortest .toEven (Binary64.magnitude x))

end ScriptLang.Number
