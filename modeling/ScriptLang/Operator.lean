/-
# ScriptLang.Operator — operators on values, and places in arrays.

Strict mode forbids two things here: a number other than zero divided by zero, and an index outside an
array.  Outside strict mode the first gives NaN and the second wraps around the length.
-/
import ScriptLang.Value.Equality
import ScriptLang.Number.Whole

namespace ScriptLang

/-- The quotient of two numbers.  Zero over anything is zero, and that comes first. -/
def divide (strict : Bool) (x y : Float) : Except RuntimeFault Float :=
  if x == 0.0 then .ok 0.0
  else if y == 0.0 then
    if strict then .error (.divisionByZero x) else .ok Number.nan
  else .ok (x / y)

namespace Operator

/-- The fault of an operator that does not apply to its operands. -/
def mismatch (operator : Operator) (left right : Value) : RuntimeFault :=
  .type (.operands operator left.kind right.kind)

/-- An operator on two numbers. -/
def applyNumbers (operator : Operator) (strict : Bool) (x y : Float) : Except RuntimeFault Value :=
  match operator with
  | add => .ok (.number (x + y))
  | subtract => .ok (.number (x - y))
  | multiply => .ok (.number (x * y))
  | divide => (ScriptLang.divide strict x y).map .number
  | modulo => .ok (.number (Number.remainder x y))
  | less => .ok (.bool (x < y))
  | lessEqual => .ok (.bool (x ≤ y))
  | greater => .ok (.bool (y < x))
  | greaterEqual => .ok (.bool (y ≤ x))
  | equal | notEqual | nullish => .error (mismatch operator (.number x) (.number y))

/-- An operator that is neither a comparison for equality nor `??`. -/
def applyOrdinary (operator : Operator) (strict : Bool) (left right : Value) : Except RuntimeFault Value :=
  match left, right with
  | .number x, .number y => operator.applyNumbers strict x y
  | .string s, .number y =>
    if operator = add then .ok (.string (s ++ Number.text y)) else .error (mismatch operator left right)
  | .string s, .string t =>
    if operator = add then .ok (.string (s ++ t)) else .error (mismatch operator left right)
  | _, _ => .error (mismatch operator left right)

/-- An operator on two values. -/
def apply (operator : Operator) (strict : Bool) (left right : Value) : Except RuntimeFault Value :=
  match operator with
  | equal => (left.equal right).map .bool
  | notEqual => (left.equal right).map (fun b => .bool (!b))
  | nullish =>
    match left with
    | .null => .ok right
    | _ => .ok left
  | _ => operator.applyOrdinary strict left right

end Operator

/-- A whole number held between the least and the greatest 64-bit integer. -/
def clampIndex (i : Int) : Int := max (-0x8000000000000000) (min i 0x7fffffffffffffff)

/-- The place in an array of `length` elements that a whole number stands for.  Outside strict mode the
numbers wrap around; an empty array has no place. -/
def placeOf (i : Int) (length : Nat) (strict : Bool) : Except RuntimeFault (Option Nat) :=
  if 0 ≤ i ∧ i < length then .ok (some i.toNat)
  else if strict then .error (.range (.outOfBounds i length))
  else if length = 0 then .ok none
  else .ok (some (i % length).toNat)

/-- The place in an array of `length` elements that a value stands for. -/
def elementPosition (index : Value) (length : Nat) (strict : Bool) : Except RuntimeFault (Option Nat) :=
  match index with
  | .number x =>
    match Number.whole? x with
    | some i => placeOf (clampIndex i) length strict
    | none => .error (.range (.notWhole x))
  | v => .error (.type (.index v.kind))

end ScriptLang
