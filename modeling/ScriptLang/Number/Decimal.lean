/-
# ScriptLang.Number.Decimal — decimal fractions and the shortest one that reads back.

A decimal is `digits * 10 ^ exponent`.  Reading rounds it to the nearest binary64 magnitude.  Writing
looks for the decimal with the fewest digits that reads back as the magnitude it is written for: with
one digit, then two, and so on, it tries the two neighbours of the magnitude on the grid of that many
digits.  Seventeen digits always hold one; past them stands the exact value.
-/
import ScriptLang.Number.Binary64

namespace ScriptLang

/-- The value `digits * 10 ^ exponent`. -/
structure Decimal where
  digits : Nat
  exponent : Int
deriving DecidableEq, Repr

/-- Which of two decimals that are equally near is taken. -/
inductive Tie where
  | up
  | toEven
deriving DecidableEq, Repr

namespace Decimal

/-- A decimal as a fraction. -/
def value (d : Decimal) : Ratio := .ofScaled d.digits 10 d.exponent

/-- The bits of the magnitude nearest to a decimal. -/
def bits (d : Decimal) : Nat := Binary64.nearest d.value

/-- Is the lower neighbour of a fraction, which is `r.floor`, taken before the upper one? -/
def prefersLower (tie : Tie) (r : Ratio) : Bool :=
  match r.middle with
  | .lt => true
  | .gt => false
  | .eq => tie = .toEven && r.floor % 2 = 0

/-- Of the two neighbours of the value of `target` on the grid of steps `10 ^ step`, the nearer one that
reads back as `target`. -/
def onGrid? (tie : Tie) (target : Nat) (step : Int) : Option Decimal :=
  let r := (Binary64.value target).scale 10 (-step)
  let low : Decimal := ⟨r.floor, step⟩
  let high : Decimal := ⟨r.floor + 1, step⟩
  let inOrder := if prefersLower tie r then [low, high] else [high, low]
  inOrder.find? (fun d => d.bits = target)

/-- The first hit on the grids of `count`, `count + 1`, … digits, of which there are `grids`; `top` is the
power of ten of the first digit. -/
def onGrids? (tie : Tie) (target : Nat) (top : Int) : Nat → Nat → Option Decimal
  | 0, _ => none
  | grids + 1, count =>
    match onGrid? tie target (top - count + 1) with
    | some d => some d
    | none => onGrids? tie target top grids (count + 1)

/-- The exact value of a magnitude. -/
def exact (target : Nat) : Decimal :=
  let e := Binary64.exponent target
  ⟨Binary64.mantissa target * Nat.pow 2 e.toNat * Nat.pow 5 (-e).toNat, min e 0⟩

/-- The decimal with the fewest digits that reads back as a positive finite magnitude, and of those the
nearest one. -/
def shortest (tie : Tie) (target : Nat) : Decimal :=
  (onGrids? tie target (Binary64.value target).floorLog10 17 1).getD (exact target)

end Decimal

end ScriptLang
