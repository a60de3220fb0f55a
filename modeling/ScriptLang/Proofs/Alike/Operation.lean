/-
# ScriptLang.Proofs.Alike.Operation — operations do not tell apart values that are alike.

Operators, indices and the checks that native functions make of their arguments: on values that differ
only in places they fail with the same fault, or their outcomes differ only in places.
-/
import ScriptLang.Operator
import ScriptLang.Builtin
import ScriptLang.Proofs.Alike.Value

namespace ScriptLang

variable {L : Likeness}

/-! ## Operators -/

namespace Operator

variable {v v' w w' : Value}

theorem mismatch_alike (operator : Operator) (hv : v.Alike L v') (hw : w.Alike L w') :
    mismatch operator v' w' = mismatch operator v w := by
  rw [mismatch, mismatch, hv.kind, hw.kind]

/-- What comes of two numbers carries no place. -/
theorem applyNumbers_alike (operator : Operator) (strict : Bool) (x y : Float) :
    Settled (Value.Alike L) (operator.applyNumbers strict x y) (operator.applyNumbers strict x y) := by
  cases operator with
  | divide =>
    unfold applyNumbers
    dsimp only
    cases ScriptLang.divide strict x y with
    | error fault => exact .error fault
    | ok z => exact .ok (.number z)
  | add | subtract | multiply | modulo => exact .ok (.number _)
  | less | lessEqual | greater | greaterEqual => exact .ok (.bool _)
  | equal | notEqual | nullish => exact .error _

theorem applyOrdinary_alike (operator : Operator) (strict : Bool) (hv : v.Alike L v')
    (hw : w.Alike L w') :
    Settled (Value.Alike L) (operator.applyOrdinary strict v w) (operator.applyOrdinary strict v' w') := by
  have refused : Settled (Value.Alike L) (.error (mismatch operator v w))
      (.error (mismatch operator v' w')) := by
    rw [mismatch_alike operator hv hw]
    exact .error _
  cases hv with
  | number x =>
    cases hw with
    | number y => exact applyNumbers_alike operator strict x y
    | _ => exact refused
  | string s =>
    cases hw with
    | number y =>
      unfold applyOrdinary
      dsimp only
      split
      · exact .ok (.string _)
      · exact refused
    | string t =>
      unfold applyOrdinary
      dsimp only
      split
      · exact .ok (.string _)
      · exact refused
    | _ => exact refused
  | _ => exact refused

theorem apply_alike (operator : Operator) (strict : Bool) (hv : v.Alike L v') (hw : w.Alike L w') :
    Settled (Value.Alike L) (operator.apply strict v w) (operator.apply strict v' w') := by
  cases operator with
  | equal | notEqual =>
    unfold apply
    dsimp only
    rw [Value.equal_alike hv hw]
    cases Value.equal v w with
    | error fault => exact .error fault
    | ok b => exact .ok (.bool _)
  | nullish =>
    cases hv with
    | null => exact .ok hw
    | _ => exact .ok (by constructor <;> assumption)
  | _ => exact applyOrdinary_alike _ strict hv hw

end Operator

theorem elementPosition_alike {v v' : Value} (h : v.Alike L v') (length : Nat) (strict : Bool) :
    elementPosition v' length strict = elementPosition v length strict := by
  cases h <;> rfl

/-! ## The arguments of native functions -/

namespace Builtin

variable {v v' : Value} {args args' : List Value}

theorem printedText_alike (h : v.Alike L v') : printedText v' = printedText v := by
  cases h with
  | string s => rfl
  | null | number | bool => rfl
  | _ => exact Value.text_alike (L := L) _ _ (by constructor; assumption)

theorem path_alike (n : Native) (h : List.Forall₂ (Value.Alike L) args args') :
    path n args' = path n args := by
  cases h with
  | nil => rfl
  | cons first rest =>
    cases rest with
    | nil => cases first <;> rfl
    | cons second rest =>
      have length := rest.length_eq
      cases first <;> simp only [path, List.length_cons, length]

theorem joined_alike (n : Native) (h : List.Forall₂ (Value.Alike L) args args') :
    joined n args' = joined n args := by
  have all : strings n args' = strings n args := by
    induction h with
    | nil => rfl
    | cons first rest ih =>
      cases first with
      | string s => exact congrArg (Except.map (s :: ·)) ih
      | _ => rfl
  rw [joined, joined, all]

theorem key_alike (n : Native) (h : v.Alike L v') : key n v' = key n v := by
  cases h <;> rfl

theorem properties_alike (n : Native) (h : v.Alike L v') :
    Settled (Properties.Alike L) (properties n v) (properties n v') := by
  cases h with
  | object h => exact .ok h
  | _ => exact .error _

theorem allHave_alike (n : Native) (k : String) (h : List.Forall₂ (Value.Alike L) args args') :
    allHave n k args' = allHave n k args := by
  induction h with
  | nil => rfl
  | @cons v v' rest rest' first _ ih =>
    unfold allHave
    have found := properties_alike n first
    generalize properties n v = before, properties n v' = after at found ⊢
    cases found with
    | error fault => rfl
    | ok hp =>
      show (if _ then _ else _) = (if _ then _ else _)
      rw [hp.has k, ih]

theorem objectHas_alike (h : List.Forall₂ (Value.Alike L) args args') :
    objectHas args' = objectHas args := by
  match h with
  | .nil => rfl
  | .cons first .nil => rfl
  | .cons first (.cons second (.cons third rest)) => rfl
  | .cons (a := k) first (.cons (a := v) (b := v') second .nil) =>
    unfold objectHas
    dsimp only
    rw [key_alike _ first]
    have found := properties_alike .objectHas second
    generalize properties .objectHas v = before, properties .objectHas v' = after at found ⊢
    cases found with
    | error fault => rfl
    | ok hp => exact congrArg _ (funext fun k => congrArg Except.ok (hp.has k))

theorem objectAllHas_alike (h : List.Forall₂ (Value.Alike L) args args') :
    objectAllHas args' = objectAllHas args := by
  cases h with
  | nil => rfl
  | cons first rest =>
    unfold objectAllHas
    dsimp only
    rw [key_alike _ first]
    exact congrArg _ (funext fun k => allHave_alike _ k rest)

theorem oneObject_alike (n : Native) (h : List.Forall₂ (Value.Alike L) args args') :
    Settled (Properties.Alike L) (oneObject n args) (oneObject n args') := by
  rcases h with _ | ⟨first, _ | ⟨second, rest⟩⟩
  · exact .error _
  · exact properties_alike n first
  · have length := rest.length_eq
    simp only [oneObject, List.length_cons, length]
    exact .error _

end Builtin

end ScriptLang
