/-
# ScriptLang.Proofs.Number.Shortest — the decimal that a number is written with reads back.

Rounding depends on the rational number only, not on the fraction that stands for it.  A rational above all
finite magnitudes is rounded to infinity, one below half the least magnitude to zero; so the two shortcuts of
the reader, by the number of digits, agree with rounding.  The search for the fewest digits keeps only
decimals that are rounded to the magnitude they are written for.
-/
import ScriptLang.Proofs.Number.Rounding

namespace ScriptLang

/-! ## Rounding of equal fractions -/

namespace Ratio

variable {r s : Ratio}

/-- A fraction with both parts multiplied. -/
def times (r : Ratio) (c : Nat) : Ratio := ⟨r.num * c, r.den * c⟩

theorem floor_times (r : Ratio) {c : Nat} (positive : 0 < c) : (r.times c).floor = r.floor :=
  Nat.mul_div_mul_right r.num r.den positive

theorem middle_times (r : Ratio) {c : Nat} (positive : 0 < c) : (r.times c).middle = r.middle := by
  have remainder : 2 * ((r.times c).num % (r.times c).den) = 2 * (r.num % r.den) * c := by
    rw [times, Nat.mul_mod_mul_right, Nat.mul_assoc]
  rw [middle, remainder, times, middle]
  simp only [compare, compareOfLessAndEq, Nat.mul_lt_mul_right positive,
    Nat.mul_left_inj positive.ne']

theorem roundEven_times (r : Ratio) {c : Nat} (positive : 0 < c) : (r.times c).roundEven = r.roundEven := by
  rw [roundEven, middle_times r positive, floor_times r positive, roundEven]

/-- Fractions for one rational become the same when each is multiplied by the other's denominator. -/
theorem times_den (hr : r.Proper) (hs : s.Proper) (eq : r.toRat = s.toRat) : r.times s.den = s.times r.den := by
  have hr' := (Nat.cast_pos (α := ℚ).mpr hr).ne'
  have hs' := (Nat.cast_pos (α := ℚ).mpr hs).ne'
  rw [toRat, toRat, div_eq_div_iff hr' hs'] at eq
  have cross : r.num * s.den = s.num * r.den := by exact_mod_cast eq
  rw [times, times, cross, Nat.mul_comm r.den]

theorem roundEven_congr (hr : r.Proper) (hs : s.Proper) (eq : r.toRat = s.toRat) :
    r.roundEven = s.roundEven := by
  rw [← roundEven_times r hs, times_den hr hs eq, roundEven_times s hr]

theorem toRat_eq_zero (h : r.Proper) : r.toRat = 0 ↔ r.num = 0 := by
  have := (Nat.cast_pos (α := ℚ).mpr h).ne'
  simp [toRat, this]

theorem le_floor_iff (h : r.Proper) {n : Nat} : n ≤ r.floor ↔ (n : ℚ) ≤ r.toRat := by
  have := Nat.cast_pos (α := ℚ).mpr h
  rw [floor, Nat.le_div_iff_mul_le h, toRat, le_div_iff₀ this]
  exact_mod_cast Iff.rfl

theorem floor_le_roundEven (r : Ratio) : r.floor ≤ r.roundEven := by
  unfold roundEven
  split <;> omega

/-- Less than a half is rounded to zero. -/
theorem roundEven_eq_zero (h : r.Proper) (small : r.toRat < 1 / 2) : r.roundEven = 0 := by
  have hden := Nat.cast_pos (α := ℚ).mpr h
  rw [toRat, div_lt_iff₀ hden] at small
  have double : 2 * r.num < r.den := by
    have : (2 : ℚ) * r.num < r.den := by linarith
    exact_mod_cast this
  have noWhole : r.num / r.den = 0 := Nat.div_eq_of_lt (by omega)
  have below : r.middle = .lt := by
    rw [middle, Nat.mod_eq_of_lt (by omega)]
    exact Nat.compare_eq_lt.mpr double
  rw [roundEven, below, floor, noWhole]

end Ratio

namespace Binary64

variable {r s : Ratio}

theorem nearest_congr (hr : r.Proper) (hs : s.Proper) (eq : r.toRat = s.toRat) : nearest r = nearest s := by
  unfold nearest
  by_cases zero : r.num = 0
  · have zero' : s.num = 0 := (Ratio.toRat_eq_zero hs).mp (eq ▸ (Ratio.toRat_eq_zero hr).mpr zero)
    rw [if_pos zero, if_pos zero']
  · have zero' : s.num ≠ 0 := fun h => zero ((Ratio.toRat_eq_zero hr).mp (eq ▸ (Ratio.toRat_eq_zero hs).mpr h))
    have log : r.floorLog2 = s.floorLog2 := by
      rw [Ratio.floorLog2_eq_log hr (Nat.pos_of_ne_zero zero),
        Ratio.floorLog2_eq_log hs (Nat.pos_of_ne_zero zero'), eq]
    have rounded (e : Int) : (r.scale 2 e).roundEven = (s.scale 2 e).roundEven := by
      refine Ratio.roundEven_congr (hr.scale two_pos e) (hs.scale two_pos e) ?_
      rw [Ratio.toRat_scale r two_pos, Ratio.toRat_scale s two_pos, eq]
    simp only [if_neg zero, if_neg zero', log, rounded]

theorem nearest_of_large (h : r.Proper) (large : (2 : ℚ) ^ (1024 : Int) ≤ r.toRat) : nearest r = infinity := by
  have hr : 0 < r.toRat := lt_of_lt_of_le (zpow_pos two_pos _) large
  have positive := (Ratio.toRat_pos h).mp hr
  have log : 1024 ≤ r.floorLog2 := by
    rw [Ratio.floorLog2_eq_log h positive]
    exact (Int.zpow_le_iff_le_log one_lt_two hr).mp (by rwa [Nat.cast_ofNat])
  have grid : max (r.floorLog2 - 52) leastExponent = r.floorLog2 - 52 := by
    unfold leastExponent
    omega
  -- on its own grid the fraction is not below the hidden bit
  have whole : hiddenBit ≤ (r.scale 2 (-(r.floorLog2 - 52))).roundEven := by
    refine le_trans ?_ (Ratio.floor_le_roundEven _)
    have low : (2 : ℚ) ^ r.floorLog2 ≤ r.toRat := by
      rw [Ratio.floorLog2_eq_log h positive]
      exact_mod_cast Int.zpow_log_le_self one_lt_two hr
    rw [Ratio.le_floor_iff (h.scale two_pos _), Ratio.toRat_scale r two_pos, hiddenBit_eq, Nat.cast_ofNat,
      neg_sub, zpow_sub₀ two_ne_zero, mul_div_assoc', le_div_iff₀ (zpow_pos two_pos _),
      mul_comm r.toRat]
    exact mul_le_mul_of_nonneg_left low (zpow_nonneg zero_le_two _)
  have top : 2046 ≤ (r.floorLog2 - 52 - leastExponent).toNat := by
    unfold leastExponent
    omega
  have above : infinity ≤ (r.floorLog2 - 52 - leastExponent).toNat * hiddenBit +
      (r.scale 2 (-(r.floorLog2 - 52))).roundEven :=
    le_trans (by decide : infinity ≤ 2046 * hiddenBit + hiddenBit)
      (Nat.add_le_add (Nat.mul_le_mul_right _ top) whole)
  unfold nearest
  simp only [if_neg positive.ne', grid]
  exact Nat.min_eq_right above

theorem nearest_of_small (h : r.Proper) (small : r.toRat < (2 : ℚ) ^ (-1075 : Int)) : nearest r = 0 := by
  rcases Nat.eq_zero_or_pos r.num with zero | positive
  · rw [nearest, if_pos zero]
  · have hr := (Ratio.toRat_pos h).mpr positive
    have log : r.floorLog2 < -1075 := by
      rw [Ratio.floorLog2_eq_log h positive]
      exact (Int.lt_zpow_iff_log_lt one_lt_two hr).mp (by exact_mod_cast small)
    have grid : max (r.floorLog2 - 52) leastExponent = leastExponent := by
      unfold leastExponent
      omega
    have half : (r.scale 2 (-leastExponent)).toRat < 1 / 2 := by
      have apart : (2 : ℚ) ^ (-1075 : Int) * (2 : ℚ) ^ (-leastExponent) = 1 / 2 := by
        rw [← zpow_add₀ two_ne_zero]
        norm_num [leastExponent]
      rw [Ratio.toRat_scale r two_pos, Nat.cast_ofNat, ← apart]
      exact mul_lt_mul_of_pos_right small (zpow_pos two_pos _)
    unfold nearest
    simp only [if_neg positive.ne', grid, Ratio.roundEven_eq_zero (h.scale two_pos _) half, Int.sub_self,
      Int.toNat_zero, Nat.zero_mul, Nat.zero_add, Nat.zero_min]

end Binary64

/-! ## Decimals in reach -/

namespace Decimal

open Binary64 (infinity)

theorem proper_value (d : Decimal) : d.value.Proper := Ratio.proper_ofScaled _ _ (by decide)

theorem toRat_value (d : Decimal) : d.value.toRat = d.digits * (10 : ℚ) ^ d.exponent := by
  rw [value, Ratio.toRat_ofScaled _ _ (by decide), Nat.cast_ofNat]

theorem bits_congr {d d' : Decimal} (eq : d.value.toRat = d'.value.toRat) : d.bits = d'.bits :=
  Binary64.nearest_congr d.proper_value d'.proper_value eq

theorem bits_of_no_digits {d : Decimal} (h : d.digits = 0) : d.bits = 0 := by
  have zero : d.value.toRat = 0 := by rw [toRat_value, h, Nat.cast_zero, zero_mul]
  rw [bits, Binary64.nearest, if_pos ((Ratio.toRat_eq_zero d.proper_value).mp zero)]

/-- The number of digits says between which powers of ten a decimal lies. -/
theorem value_bounds {d : Decimal} (positive : 0 < d.digits) :
    (10 : ℚ) ^ ((Ratio.digitCount d.digits : Int) + d.exponent - 1) ≤ d.value.toRat ∧
      d.value.toRat < (10 : ℚ) ^ ((Ratio.digitCount d.digits : Int) + d.exponent) := by
  have some : 0 < Ratio.digitCount d.digits := Nat.length_toDigits_pos
  have high : d.digits < 10 ^ Ratio.digitCount d.digits := (digitCount_le_iff some).mp le_rfl
  have low : 10 ^ (Ratio.digitCount d.digits - 1) ≤ d.digits := by
    rcases Nat.eq_or_lt_of_le some with one | more
    · rw [← one]
      exact positive
    · by_contra less
      have := (digitCount_le_iff (Nat.sub_pos_of_lt more)).mpr (Nat.lt_of_not_le less)
      omega
  have ten : (0 : ℚ) < 10 := by norm_num
  rw [toRat_value]
  constructor
  · have split : ((Ratio.digitCount d.digits : Int) + d.exponent - 1) =
        ((Ratio.digitCount d.digits - 1 : Nat) : Int) + d.exponent := by omega
    rw [split, zpow_add₀ ten.ne', zpow_natCast]
    exact mul_le_mul_of_nonneg_right (by exact_mod_cast low) (zpow_nonneg ten.le _)
  · rw [zpow_add₀ ten.ne', zpow_natCast]
    exact mul_lt_mul_of_pos_right (by exact_mod_cast high) (zpow_pos ten _)

/-- Ten is above the third power of two. -/
theorem two_zpow_le_ten_zpow {k n : Int} (natural : 0 ≤ n) (h : k ≤ 3 * n) :
    (2 : ℚ) ^ k ≤ (10 : ℚ) ^ n := by
  calc (2 : ℚ) ^ k ≤ (2 : ℚ) ^ (3 * n) := zpow_le_zpow_right₀ one_le_two h
    _ = ((2 : ℚ) ^ (3 : Int)) ^ n := zpow_mul 2 3 n
    _ ≤ (10 : ℚ) ^ n := zpow_le_zpow_left₀ natural (by norm_num) (by norm_num)

/-- The reader rounds a decimal that is rounded to a positive finite magnitude, and takes no shortcut. -/
theorem decimalBits_eq_bits {d : Decimal} (positive : 0 < d.bits) (finite : d.bits < infinity) :
    Number.decimalBits d = d.bits := by
  have digits : 0 < d.digits := Nat.pos_of_ne_zero fun zero => positive.ne' (bits_of_no_digits zero)
  obtain ⟨low, high⟩ := value_bounds digits
  have ten : (1 : ℚ) ≤ 10 := by norm_num
  unfold Number.decimalBits
  rw [if_neg digits.ne']
  generalize (Ratio.digitCount d.digits : Int) + d.exponent = top at low high ⊢
  by_cases above : 400 < top
  · have reach : (2 : ℚ) ^ (1024 : Int) ≤ (10 : ℚ) ^ (top - 1) :=
      two_zpow_le_ten_zpow (by omega) (by omega)
    exact absurd (Binary64.nearest_of_large d.proper_value (reach.trans low)) finite.ne
  by_cases below : top < -400
  · have reach : (10 : ℚ) ^ top ≤ (2 : ℚ) ^ (-1075 : Int) := by
      refine (zpow_le_zpow_right₀ ten (by omega : top ≤ -400)).trans ?_
      rw [zpow_neg, zpow_neg]
      exact inv_anti₀ (zpow_pos two_pos _) (two_zpow_le_ten_zpow (by omega) (by omega))
    exact absurd (Binary64.nearest_of_small d.proper_value (high.trans_le reach)) positive.ne'
  simp only [if_neg above, if_neg below]

/-- The exact value of a finite magnitude is read as that magnitude. -/
theorem decimalBits_exact {target : Nat} (finite : target < infinity) :
    Number.decimalBits (exact target) = target := by
  have bits := bits_exact finite
  rcases Nat.eq_zero_or_pos target with rfl | positive
  · have noDigits : (exact 0).digits = 0 := by
      simp only [exact, Binary64.mantissa, Binary64.hiddenBit, Nat.zero_mul, Nat.reduceLT, if_true]
    rw [Number.decimalBits, if_pos noDigits]
  · rw [decimalBits_eq_bits (bits.symm ▸ positive) (bits.symm ▸ finite), bits]

/-! ## The search -/

theorem bits_of_onGrid? {tie : Tie} {target : Nat} {step : Int} {d : Decimal}
    (h : onGrid? tie target step = some d) : d.bits = target := by
  have found := List.find?_some h
  exact of_decide_eq_true found

theorem bits_of_onGrids? {tie : Tie} {target : Nat} {top : Int} {grids count : Nat} {d : Decimal}
    (h : onGrids? tie target top grids count = some d) : d.bits = target := by
  induction grids generalizing count with
  | zero => cases h
  | succ grids ih =>
    unfold onGrids? at h
    split at h
    · next hit =>
      cases h
      exact bits_of_onGrid? hit
    · exact ih h

/-- A finite magnitude is what its shortest decimal is rounded to. -/
theorem bits_shortest (tie : Tie) {target : Nat} (finite : target < infinity) :
    (shortest tie target).bits = target := by
  unfold shortest
  cases found : onGrids? tie target (Binary64.value target).floorLog10 17 1 with
  | some d => exact bits_of_onGrids? found
  | none => exact bits_exact finite

end Decimal

end ScriptLang
