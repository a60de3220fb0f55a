/-
# ScriptLang.Number.Literal — numbers from text.

The grammar of a number: an optional sign, then one of the names of infinity and NaN in any case, or
digits with at most one point among them and at least one digit, and an optional exponent.  The value is
the binary64 number nearest to the decimal.
-/
import ScriptLang.Number.Decimal
import ScriptLang.Number.Whole

namespace ScriptLang.Number

/-- The value of decimal digits. -/
def digitsValue (ds : List Char) : Nat := ds.foldl (fun n c => n * 10 + (c.toNat - '0'.toNat)) 0

/-- An exponent: `e`, an optional sign, digits.  No text at all is the exponent zero. -/
def readExponent? : List Char → Option Int
  | [] => some 0
  | c :: cs =>
    let (negative, ds) := match cs with
      | '-' :: ds => (true, ds)
      | '+' :: ds => (false, ds)
      | ds => (false, ds)
    if (c = 'e' || c = 'E') && !ds.isEmpty && ds.all Char.isDigit then
      some (signed negative (digitsValue ds))
    else none

/-- The magnitude of a decimal.  Exponents that are out of every number's reach are settled without
computing the power. -/
def decimalBits (d : Decimal) : Nat :=
  if d.digits = 0 then 0
  else
    let top := (Ratio.digitCount d.digits : Int) + d.exponent
    if 400 < top then Binary64.infinity
    else if top < -400 then 0
    else d.bits

/-- A decimal without a sign. -/
def readDecimal? (cs : List Char) : Option Decimal :=
  let whole := cs.takeWhile Char.isDigit
  let rest := cs.dropWhile Char.isDigit
  let (fraction, rest) := match rest with
    | '.' :: rest => (rest.takeWhile Char.isDigit, rest.dropWhile Char.isDigit)
    | rest => ([], rest)
  if whole.isEmpty && fraction.isEmpty then none
  else (readExponent? rest).map (fun e => ⟨digitsValue (whole ++ fraction), e - fraction.length⟩)

/-- A number without a sign, given the sign. -/
def readUnsigned? (negative : Bool) (cs : List Char) : Option Float :=
  let name := cs.map Char.toLower
  if name = ['i', 'n', 'f'] || name = ['i', 'n', 'f', 'i', 'n', 'i', 't', 'y'] then
    some (Binary64.ofMagnitude negative Binary64.infinity)
  else if name = ['n', 'a', 'n'] then some nan
  else (readDecimal? cs).map (fun d => Binary64.ofMagnitude negative (decimalBits d))

/-- The number that a text spells. -/
def read? (s : String) : Option Float :=
  match s.toList with
  | '-' :: cs => readUnsigned? true cs
  | '+' :: cs => readUnsigned? false cs
  | cs => readUnsigned? false cs

end ScriptLang.Number
