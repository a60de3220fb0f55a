/-
# ScriptLang.Proofs.Number.Finite — finite numbers, bit by bit and compared.

The word of a number holds its sign, its exponent and its mantissa.  A finite number is a zero if all bits
but the first are clear, and else it has a positive mantissa and the sign that its first bit says; that
settles how it compares with itself and with zero.
-/
import ScriptLang.Number.Binary64
import Mathlib

namespace ScriptLang.Binary64

open Float.Model (UnpackedFloat)
open Float.Model.UnpackedFloat
open Float.Model.Format (binary64)

/-! ## Words -/

/-- Where the exponent, the mantissa and the sign stand in a word. -/
theorem unpack_parts (bits : UInt64) :
    (@unpackExponent binary64 bits.toBitVec).toNat = bits.toNat / 2 ^ 52 % 2 ^ 11 ∧
      (@unpackMantissa binary64 bits.toBitVec).toNat = bits.toNat % 2 ^ 52 ∧
      (@unpackSign binary64 bits.toBitVec).toNat = bits.toNat / 2 ^ 63 % 2 := by
  simp only [unpackExponent, unpackMantissa, unpackSign, BitVec.toNat_cast, BitVec.extractLsb_toNat,
    Nat.shiftRight_eq_div_pow]
  refine ⟨rfl, ?_, rfl⟩
  show bits.toNat / 2 ^ 0 % 2 ^ 52 = _
  rw [Nat.pow_zero, Nat.div_one]

/-- The sign that a sign bit stands for. -/
def signOf (negative : Bool) : Sign := if negative then .negative else .positive

theorem ofBitVec_unpackSign (bits : UInt64) :
    Sign.ofBitVec (@unpackSign binary64 bits.toBitVec) = signOf (signBit ≤ bits.toNat) := by
  have word := bits.toNat_lt
  have clear : @unpackSign binary64 bits.toBitVec = 0#1 ↔ ¬signBit ≤ bits.toNat := by
    rw [← BitVec.toNat_inj, (unpack_parts bits).2.2]
    unfold signBit
    show _ = 0 ↔ _
    omega
  unfold Sign.ofBitVec signOf
  by_cases negative : signBit ≤ bits.toNat <;> simp [clear, negative]

/-- The parts of a finite number with a given sign bit and a given magnitude. -/
inductive Parts (negative : Bool) : Nat → UnpackedFloat → Prop
  | zero (sign : Sign) : Parts negative 0 (.zero sign)
  | some {bits m : Nat} (nonzero : bits ≠ 0) (e : Int) (positive : 0 < m) :
    Parts negative bits (.finite (signOf negative) m e positive)

theorem parts_of_finite {x : Float} (finite : isFinite x) :
    Parts (isNegative x) (magnitude x) x.toModel.unpack := by
  have bounded : magnitude x < infinity := of_decide_eq_true finite
  obtain ⟨⟨bits, valid⟩⟩ := x
  have word := bits.toNat_lt
  obtain ⟨exponent, mantissa, -⟩ := unpack_parts bits
  change bits.toNat % signBit < infinity at bounded
  show Parts (signBit ≤ bits.toNat) (bits.toNat % signBit) (unpack binary64 bits.toBitVec)
  unfold signBit infinity at *
  have notTop : ¬@unpackExponent binary64 bits.toBitVec = -1#11 := by
    rw [← BitVec.toNat_inj, exponent]
    show ¬_ = 2047
    omega
  unfold unpack
  dsimp only
  rw [if_neg notTop, ofBitVec_unpackSign]
  split
  · next low =>
    rw [← BitVec.toNat_inj, exponent] at low
    change _ = 0 at low
    split
    · next none =>
      rw [← BitVec.toNat_inj, mantissa] at none
      change _ = 0 at none
      have zero : bits.toNat % 0x8000000000000000 = 0 := by omega
      rw [zero]
      exact .zero _
    · next written =>
      refine .some ?_ _ _
      rw [← BitVec.toNat_inj, mantissa] at written
      change ¬_ = 0 at written
      omega
  · next high =>
    rw [← BitVec.toNat_inj, exponent] at high
    change ¬_ = 0 at high
    exact .some (by omega) _ _

/-! ## Comparison -/

theorem isNaN_of_finite {x : Float} (finite : isFinite x) : x.isNaN = false := by
  have parts := parts_of_finite finite
  show x.toModel.unpack.isNaN = false
  generalize x.toModel.unpack = u, magnitude x = bits at parts
  cases parts <;> rfl

/-- Every finite number equals itself. -/
theorem beq_self_of_finite {x : Float} (finite : isFinite x) : (x == x) = true := by
  have parts := parts_of_finite finite
  show x.toModel.unpack.beq x.toModel.unpack = true
  generalize x.toModel.unpack = u, magnitude x = bits at parts
  cases parts with
  | zero => rfl
  | some => cases isNegative x <;> simp [signOf, UnpackedFloat.beq, UnpackedFloat.compare]

theorem unpack_of_zero {x : Float} (h : magnitude x = 0) : ∃ sign, x.toModel.unpack = .zero sign := by
  have parts := parts_of_finite (x := x) (decide_eq_true (h ▸ (by decide : 0 < infinity)))
  rw [h] at parts
  generalize x.toModel.unpack = u at parts
  cases parts with
  | zero sign => exact ⟨sign, rfl⟩
  | some nonzero => exact absurd rfl nonzero

/-- Both zeros are equal. -/
theorem beq_of_zero {x y : Float} (hx : magnitude x = 0) (hy : magnitude y = 0) : (x == y) = true := by
  obtain ⟨s, hx⟩ := unpack_of_zero hx
  obtain ⟨t, hy⟩ := unpack_of_zero hy
  show x.toModel.unpack.beq y.toModel.unpack = true
  rw [hx, hy]
  rfl

/-- A finite number whose sign bit is set is below zero, unless it is a zero. -/
theorem lt_zero_of_isNegative {x : Float} (finite : isFinite x) (negative : isNegative x)
    (nonzero : magnitude x ≠ 0) : x < 0.0 := by
  have parts := parts_of_finite finite
  obtain ⟨s, zero⟩ := unpack_of_zero (x := 0.0) (by decide)
  have below : x.toModel.unpack.lt (0.0 : Float).toModel.unpack = true := by
    rw [zero]
    rw [negative] at parts
    generalize x.toModel.unpack = u, magnitude x = bits at parts nonzero
    cases parts with
    | zero => exact absurd rfl nonzero
    | some => rfl
  exact decide_eq_true below

end ScriptLang.Binary64
