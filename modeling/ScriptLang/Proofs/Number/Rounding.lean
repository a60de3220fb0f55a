/-
# ScriptLang.Proofs.Number.Rounding — rounding leaves a binary64 number as it is.

Fractions of natural numbers stand for rationals, and the operations on them do what their names say of
these.  A finite magnitude is `m * 2 ^ e` with a mantissa of 53 bits at most, and of 53 bits exactly unless
the exponent is the least one; so the power of two below it and the whole number nearest to it on its
own grid are known, and rounding gives its bits back.
-/
import ScriptLang.Number.Literal
import Mathlib.Data.Int.Log
import Mathlib.Data.Rat.Floor
import Mathlib.Tactic.FieldSimp
import Mathlib.Tactic.Positivity
import Mathlib.Tactic.NormNum

namespace ScriptLang

/-! ## Fractions as rationals -/

namespace Ratio

/-- The rational number that a fraction stands for. -/
def toRat (r : Ratio) : ℚ := r.num / r.den

/-- A fraction whose denominator is not zero. -/
def Proper (r : Ratio) : Prop := 0 < r.den

theorem zpow_eq_div {base : Nat} (positive : 0 < base) (e : Int) :
    (base : ℚ) ^ e = (base : ℚ) ^ e.toNat / (base : ℚ) ^ (-e).toNat := by
  have nonzero : (base : ℚ) ≠ 0 := by positivity
  rw [eq_div_iff (pow_ne_zero _ nonzero), ← zpow_natCast, ← zpow_natCast, ← zpow_add₀ nonzero]
  congr 1
  omega

theorem Proper.scale {r : Ratio} (h : r.Proper) {base : Nat} (positive : 0 < base) (e : Int) :
    (r.scale base e).Proper :=
  Nat.mul_pos h (Nat.pow_pos positive)

theorem toRat_scale (r : Ratio) {base : Nat} (positive : 0 < base) (e : Int) :
    (r.scale base e).toRat = r.toRat * (base : ℚ) ^ e := by
  rw [zpow_eq_div positive]
  simp only [toRat, scale, Nat.pow_eq, Nat.cast_mul, Nat.cast_pow]
  rw [div_mul_div_comm]

theorem proper_ofScaled (n : Nat) (e : Int) {base : Nat} (positive : 0 < base) :
    (ofScaled n base e).Proper :=
  Proper.scale (r := ⟨n, 1⟩) Nat.one_pos positive e

theorem toRat_ofScaled (n : Nat) (e : Int) {base : Nat} (positive : 0 < base) :
    (ofScaled n base e).toRat = n * (base : ℚ) ^ e := by
  rw [ofScaled, toRat_scale _ positive]
  simp [toRat]

theorem toRat_pos {r : Ratio} (h : r.Proper) : 0 < r.toRat ↔ 0 < r.num := by
  have := Nat.cast_pos (α := ℚ).mpr h
  rw [toRat, div_pos_iff_of_pos_right this, Nat.cast_pos]

theorem floor_eq_zero {r : Ratio} (h : r.Proper) : r.floor = 0 ↔ r.toRat < 1 := by
  have := Nat.cast_pos (α := ℚ).mpr h
  rw [floor, Nat.div_eq_zero_iff_lt h, toRat, div_lt_one this, Nat.cast_lt]

/-- A fraction that is a whole number is rounded to that number. -/
theorem roundEven_of_eq {r : Ratio} (h : r.Proper) {n : Nat} (eq : r.toRat = n) : r.roundEven = n := by
  have := Nat.cast_pos (α := ℚ).mpr h
  have whole : r.num = n * r.den := by
    rw [toRat, div_eq_iff this.ne'] at eq
    exact_mod_cast eq
  -- no remainder is left, which is less than half
  have below : r.middle = .lt := by
    have positive : 2 * 0 < r.den := h
    rw [middle, whole, Nat.mul_mod_left]
    exact Nat.compare_eq_lt.mpr positive
  rw [roundEven, below, floor, whole]
  exact Nat.mul_div_left n h

theorem log_eq {r : ℚ} (positive : 0 < r) {e : Int} (low : (2 : ℚ) ^ e ≤ r) (high : r < (2 : ℚ) ^ (e + 1)) :
    Int.log 2 r = e := by
  have below := (Int.zpow_le_iff_le_log (b := 2) one_lt_two positive).mp (by exact_mod_cast low)
  have above := (Int.lt_zpow_iff_log_lt (b := 2) one_lt_two positive).mp (by exact_mod_cast high)
  omega

/-- The power of two below a positive fraction. -/
theorem floorLog2_eq_log {r : Ratio} (h : r.Proper) (positive : 0 < r.num) :
    r.floorLog2 = Int.log 2 r.toRat := by
  have hr : 0 < r.toRat := (toRat_pos h).mpr positive
  have hden := Nat.cast_pos (α := ℚ).mpr h
  have numLow : (2 : ℚ) ^ r.num.log2 ≤ r.num := by exact_mod_cast Nat.log2_self_le positive.ne'
  have numHigh : (r.num : ℚ) < 2 ^ (r.num.log2 + 1) := by exact_mod_cast Nat.lt_log2_self
  have denLow : (2 : ℚ) ^ r.den.log2 ≤ r.den := by exact_mod_cast Nat.log2_self_le (Nat.ne_of_gt h)
  have denHigh : (r.den : ℚ) < 2 ^ (r.den.log2 + 1) := by exact_mod_cast Nat.lt_log2_self
  set e : Int := (r.num.log2 : Int) - r.den.log2 with he
  -- both logarithms are cut, so `e` is the power wanted or the one above it
  have low : (2 : ℚ) ^ (e - 1) ≤ r.toRat := by
    have split : (2 : ℚ) ^ (e - 1) = 2 ^ r.num.log2 / 2 ^ (r.den.log2 + 1) := by
      rw [eq_div_iff (by positivity), ← zpow_natCast, ← zpow_natCast, ← zpow_add₀ two_ne_zero]
      congr 1
      omega
    rw [split, toRat]
    exact div_le_div₀ (by positivity) numLow hden denHigh.le
  have high : r.toRat < (2 : ℚ) ^ (e + 1) := by
    have split : (2 : ℚ) ^ (e + 1) = 2 ^ (r.num.log2 + 1) / 2 ^ r.den.log2 := by
      rw [eq_div_iff (by positivity), ← zpow_natCast, ← zpow_natCast, ← zpow_add₀ two_ne_zero]
      congr 1
      omega
    rw [split, toRat]
    exact div_lt_div₀ numHigh denLow (pow_nonneg zero_le_two _) (by positivity)
  have isBelow : (r.scale 2 (-e)).floor = 0 ↔ r.toRat < (2 : ℚ) ^ e := by
    rw [floor_eq_zero (h.scale two_pos _), toRat_scale _ two_pos, zpow_neg, Nat.cast_ofNat,
      ← div_eq_mul_inv, div_lt_one (zpow_pos two_pos e)]
  unfold floorLog2
  simp only [← he]
  split
  · next below => exact (log_eq hr low (by rw [sub_add_cancel]; exact isBelow.mp below)).symm
  · next notBelow => exact (log_eq hr (not_lt.mp fun below => notBelow (isBelow.mpr below)) high).symm

end Ratio

/-! ## Magnitudes -/

namespace Binary64

theorem hiddenBit_eq : (hiddenBit : ℚ) = 2 ^ (52 : Int) := by norm_num [hiddenBit]

/-- Rounding on a grid on which a fraction lies. -/
theorem nearest_on_grid {r : Ratio} (h : r.Proper) (positive : 0 < r.num) {m : Nat} {e : Int}
    (eq : r.toRat = m * (2 : ℚ) ^ e) (grid : max (r.floorLog2 - 52) leastExponent = e) :
    nearest r = min ((e - leastExponent).toNat * hiddenBit + m) infinity := by
  have scaled : (r.scale 2 (-e)).toRat = m := by
    rw [Ratio.toRat_scale _ two_pos, eq, Nat.cast_ofNat, mul_assoc, ← zpow_add₀ two_ne_zero,
      add_neg_cancel, zpow_zero, mul_one]
  unfold nearest
  simp only [if_neg positive.ne', grid, Ratio.roundEven_of_eq (h.scale two_pos _) scaled]

theorem nearest_of_subnormal {r : Ratio} (h : r.Proper) {m : Nat} (small : m < hiddenBit)
    (eq : r.toRat = m * (2 : ℚ) ^ leastExponent) : nearest r = m := by
  rcases Nat.eq_zero_or_pos r.num with zero | positive
  · have toRatZero : r.toRat = 0 := by rw [Ratio.toRat, zero, Nat.cast_zero, zero_div]
    rw [toRatZero] at eq
    have := (mul_eq_zero.mp eq.symm).resolve_right (zpow_ne_zero _ two_ne_zero)
    rw [nearest, if_pos zero, Nat.cast_eq_zero.mp this]
  · have hr := (Ratio.toRat_pos h).mpr positive
    -- the power of two below is too small to count, so the least exponent is taken
    have below : r.toRat < ((2 : Nat) : ℚ) ^ (52 + leastExponent) := by
      rw [eq, Nat.cast_ofNat, zpow_add₀ two_ne_zero, ← hiddenBit_eq]
      exact mul_lt_mul_of_pos_right (Nat.cast_lt.mpr small) (zpow_pos two_pos _)
    have log := (Int.lt_zpow_iff_log_lt one_lt_two hr).mp below
    have grid : max (r.floorLog2 - 52) leastExponent = leastExponent := by
      rw [Ratio.floorLog2_eq_log h positive]
      omega
    have finite : m ≤ infinity := Nat.le_trans small.le (by decide)
    rw [nearest_on_grid h positive eq grid, Int.sub_self, Int.toNat_zero, Nat.zero_mul, Nat.zero_add,
      Nat.min_eq_left finite]

theorem nearest_of_normal {r : Ratio} (h : r.Proper) {m : Nat} {e : Int} (low : hiddenBit ≤ m)
    (high : m < hiddenBit + hiddenBit) (least : leastExponent ≤ e)
    (eq : r.toRat = m * (2 : ℚ) ^ e) :
    nearest r = min ((e - leastExponent).toNat * hiddenBit + m) infinity := by
  have atLeast : (2 : ℚ) ^ (52 + e) ≤ r.toRat := by
    rw [eq, zpow_add₀ two_ne_zero, ← hiddenBit_eq]
    exact mul_le_mul_of_nonneg_right (Nat.cast_le.mpr low) (zpow_nonneg zero_le_two _)
  have below : r.toRat < (2 : ℚ) ^ (52 + e + 1) := by
    have double : (2 : ℚ) ^ (52 + e + 1) = ((hiddenBit + hiddenBit : Nat) : ℚ) * 2 ^ e := by
      rw [Nat.cast_add, hiddenBit_eq, zpow_add₀ two_ne_zero, zpow_add₀ two_ne_zero, zpow_one]
      ring
    rw [eq, double]
    exact mul_lt_mul_of_pos_right (Nat.cast_lt.mpr high) (zpow_pos two_pos _)
  have hr : 0 < r.toRat := lt_of_lt_of_le (zpow_pos two_pos _) atLeast
  have positive := (Ratio.toRat_pos h).mp hr
  refine nearest_on_grid h positive eq ?_
  rw [Ratio.floorLog2_eq_log h positive, Ratio.log_eq hr atLeast below]
  omega

/-- A fraction with the value of a finite magnitude is rounded to that magnitude. -/
theorem nearest_of_eq {r : Ratio} (h : r.Proper) {bits : Nat} (finite : bits < infinity)
    (eq : r.toRat = mantissa bits * (2 : ℚ) ^ exponent bits) : nearest r = bits := by
  unfold mantissa exponent at eq
  by_cases subnormal : bits < hiddenBit
  · rw [if_pos subnormal, if_pos subnormal] at eq
    exact nearest_of_subnormal h subnormal eq
  · rw [if_neg subnormal, if_neg subnormal] at eq
    have written := Nat.mod_lt bits (show 0 < hiddenBit by decide)
    have large : 1 ≤ bits / hiddenBit := (Nat.one_le_div_iff (by decide)).mpr (Nat.le_of_not_lt subnormal)
    have whole := Nat.div_add_mod bits hiddenBit
    have same : (leastExponent + (bits / hiddenBit : Nat) - 1 - leastExponent).toNat * hiddenBit +
        (bits % hiddenBit + hiddenBit) = bits := by
      -- the hidden bit stands for one of the exponent's units
      have above : (leastExponent + (bits / hiddenBit : Nat) - 1 - leastExponent).toNat =
        bits / hiddenBit - 1 := by omega
      rw [above, Nat.sub_mul, Nat.one_mul]
      have := Nat.mul_le_mul_right hiddenBit large
      rw [Nat.mul_comm hiddenBit] at whole
      omega
    rw [nearest_of_normal h (by omega) (by omega) (by omega) eq, same, Nat.min_eq_left finite.le]

end Binary64

/-! ## Exact decimals -/

namespace Decimal

open Binary64 (infinity mantissa)

theorem value_exact (bits : Nat) :
    (exact bits).value.toRat = mantissa bits * (2 : ℚ) ^ Binary64.exponent bits := by
  rw [value, Ratio.toRat_ofScaled _ _ (by decide)]
  simp only [exact, Nat.pow_eq, Nat.cast_mul, Nat.cast_pow, Nat.cast_ofNat]
  generalize Binary64.exponent bits = e
  have smaller : min e 0 = -((-e).toNat : Int) := by omega
  have ten : (10 : ℚ) = 2 * 5 := by norm_num
  have two := Ratio.zpow_eq_div two_pos e
  rw [Nat.cast_ofNat] at two
  rw [smaller, two, zpow_neg, zpow_natCast, ten, mul_pow]
  field_simp

/-- The exact value of a finite magnitude is read as that magnitude. -/
theorem bits_exact {bits : Nat} (finite : bits < infinity) : (exact bits).bits = bits :=
  Binary64.nearest_of_eq (Ratio.proper_ofScaled _ _ (by decide)) finite (value_exact bits)

theorem digitCount_le_iff {n k : Nat} (positive : 0 < k) : Ratio.digitCount n ≤ k ↔ n < 10 ^ k :=
  Nat.length_toDigits_le_iff (by decide) positive

end Decimal

end ScriptLang
