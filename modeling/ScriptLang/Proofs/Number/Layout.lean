/-
# ScriptLang.Proofs.Number.Layout — the plain layout reads back.

A plain numeral is digits, or digits, a point and more digits.  Where the point of a decimal is placed among
its significant digits, zeros fill up what they leave free, and the numeral stands for the same rational as
the decimal.  So the text of a finite number that is not below zero is read as that number, without a sign.
-/
import ScriptLang.Number.Text
import ScriptLang.Proofs.Number.Numeral
import ScriptLang.Proofs.Number.Shortest

namespace ScriptLang.Number

/-! ## Plain numerals -/

/-- The text is a numeral without sign and exponent, and this is its decimal. -/
inductive Plain : List Char → Decimal → Prop
  | whole {ds : List Char} (some : ds ≠ []) (digits : ∀ c ∈ ds, c.isDigit) : Plain ds ⟨digitsValue ds, 0⟩
  | fraction {ds places : List Char} (some : ds ≠ []) (digits : ∀ c ∈ ds, c.isDigit)
    (digits' : ∀ c ∈ places, c.isDigit) :
    Plain (ds ++ '.' :: places) ⟨digitsValue (ds ++ places), -(places.length : Int)⟩

theorem Plain.begins {cs : List Char} {d : Decimal} (h : Plain cs d) : ∃ c ds, cs = c :: ds ∧ c.isDigit := by
  cases h with
  | whole some digits =>
    obtain ⟨c, cs, rfl⟩ := List.exists_cons_of_ne_nil some
    exact ⟨c, cs, rfl, digits c List.mem_cons_self⟩
  | fraction some digits =>
    obtain ⟨c, cs, rfl⟩ := List.exists_cons_of_ne_nil some
    exact ⟨c, _, rfl, digits c List.mem_cons_self⟩

theorem Plain.readDecimal? {cs : List Char} {d : Decimal} (h : Plain cs d) : readDecimal? cs = some d := by
  cases h with
  | whole some digits =>
    have whole := List.takeWhile_eq_self_iff.2 digits
    have rest := List.dropWhile_eq_nil_iff.2 digits
    unfold Number.readDecimal?
    simp [whole, rest, some, readExponent?]
  | @fraction ds places some digits digits' =>
    have point : ('.' : Char).isDigit = false := rfl
    have whole : (ds ++ '.' :: places).takeWhile Char.isDigit = ds := by
      rw [List.takeWhile_append_of_pos digits, List.takeWhile_cons, point]
      exact List.append_nil ds
    have rest : (ds ++ '.' :: places).dropWhile Char.isDigit = '.' :: places := by
      rw [List.dropWhile_append_of_pos digits, List.dropWhile_cons, point]
      rfl
    have all := List.takeWhile_eq_self_iff.2 digits'
    have none := List.dropWhile_eq_nil_iff.2 digits'
    unfold Number.readDecimal?
    simp [whole, rest, all, none, some, readExponent?]

/-! ## Digits and zeros -/

theorem digitsValue_append (cs ds : List Char) :
    digitsValue (cs ++ ds) = digitsValue cs * 10 ^ ds.length + digitsValue ds := by
  induction ds using List.reverseRecOn with
  | nil => simp [digitsValue]
  | append_singleton ds c ih =>
    have last (ds : List Char) : digitsValue (ds ++ [c]) = digitsValue ds * 10 + (c.toNat - '0'.toNat) := by
      simp [digitsValue]
    rw [← List.append_assoc, last, last, ih, List.length_append, List.length_singleton, pow_succ]
    ring

theorem digitsValue_zeros (n : Nat) : digitsValue (List.replicate n '0') = 0 := by
  induction n with
  | zero => rfl
  | succ n ih =>
    rw [List.replicate_succ', digitsValue_append, ih]
    rfl

theorem isDigit_zeros (n : Nat) : ∀ c ∈ List.replicate n '0', c.isDigit := by
  intro c hc
  obtain rfl := List.eq_of_mem_replicate hc
  rfl

/-- Only zeros are left out of the significant digits. -/
theorem toDigits_eq_significant (n : Nat) :
    ∃ z, Nat.toDigits 10 n = significant n ++ List.replicate z '0' := by
  generalize ends : (Nat.toDigits 10 n).reverse.takeWhile (· = '0') = zeros
  have all : ∀ c ∈ zeros, c = '0' := by
    intro c hc
    rw [← ends] at hc
    have zero := List.mem_takeWhile_imp hc
    exact of_decide_eq_true zero
  refine ⟨zeros.length, ?_⟩
  have parts := List.takeWhile_append_dropWhile (p := (· = '0')) (l := (Nat.toDigits 10 n).reverse)
  rw [ends, List.eq_replicate_of_mem all] at parts
  rw [significant, ← List.reverse_replicate, ← List.reverse_append, parts, List.reverse_reverse]

/-! ## The point -/

theorem plain_placePoint {ds : List Char} (some : ds ≠ []) (digits : ∀ c ∈ ds, c.isDigit) (point : Int) :
    ∃ d, Plain (placePoint ds point).toList d ∧
      d.value.toRat = digitsValue ds * (10 : ℚ) ^ (point - ds.length) := by
  unfold placePoint zeros
  split
  · next before =>
    -- all digits stand behind the point
    have places : ∀ c ∈ List.replicate (-point).toNat '0' ++ ds, c.isDigit := fun c hc =>
      (List.mem_append.mp hc).elim (isDigit_zeros _ c) (digits c)
    have text : ("0." ++ String.ofList (List.replicate (-point).toNat '0') ++ String.ofList ds).toList =
        ['0'] ++ '.' :: (List.replicate (-point).toNat '0' ++ ds) := by
      simp
    rw [text]
    refine ⟨_, .fraction (List.cons_ne_nil '0' []) (by simp) places, ?_⟩
    have zero : digitsValue ['0'] = 0 := rfl
    rw [Decimal.toRat_value]
    simp only [digitsValue_append, digitsValue_zeros, zero, Nat.zero_mul, Nat.zero_add, List.length_append,
      List.length_replicate]
    congr 2
    omega
  split
  · next after inside =>
    -- the point stands among the digits
    have text : (String.ofList (ds.take point.toNat) ++ "." ++ String.ofList (ds.drop point.toNat)).toList =
        ds.take point.toNat ++ '.' :: ds.drop point.toNat := by
      simp
    have whole : ds.take point.toNat ≠ [] := by
      rw [Ne, List.take_eq_nil_iff, not_or]
      exact ⟨by omega, some⟩
    rw [text]
    refine ⟨_, .fraction whole (fun c hc => digits c (List.mem_of_mem_take hc))
      fun c hc => digits c (List.mem_of_mem_drop hc), ?_⟩
    rw [Decimal.toRat_value, List.take_append_drop, List.length_drop]
    congr 2
    dsimp only
    omega
  · next after outside =>
    -- zeros fill up the places in front of the point
    have whole : ∀ c ∈ ds ++ List.replicate (point.toNat - ds.length) '0', c.isDigit := fun c hc =>
      (List.mem_append.mp hc).elim (digits c) (isDigit_zeros _ c)
    have text : (String.ofList ds ++ String.ofList (List.replicate (point.toNat - ds.length) '0')).toList =
        ds ++ List.replicate (point.toNat - ds.length) '0' := by
      simp
    rw [text]
    refine ⟨_, .whole (by simp [some]) whole, ?_⟩
    have power : point - (ds.length : Int) = ((point.toNat - ds.length : Nat) : Int) := by omega
    rw [Decimal.toRat_value, digitsValue_append, digitsValue_zeros, List.length_replicate, power,
      zpow_zero, mul_one, zpow_natCast]
    push_cast
    ring

/-- The plain layout of a positive decimal is a plain numeral for the same rational. -/
theorem plain_plainDecimal {d : Decimal} (positive : 0 < d.digits) :
    ∃ d', Plain (plainDecimal d).toList d' ∧ d'.value.toRat = d.value.toRat := by
  obtain ⟨z, all⟩ := toDigits_eq_significant d.digits
  have written := digitsValue_toDigits d.digits
  have count : Ratio.digitCount d.digits = (significant d.digits).length + z := by
    rw [Ratio.digitCount, all, List.length_append, List.length_replicate]
  rw [all, digitsValue_append, digitsValue_zeros, List.length_replicate] at written
  have some : significant d.digits ≠ [] := by
    intro none
    rw [none] at written
    simp [digitsValue] at written
    omega
  have digits : ∀ c ∈ significant d.digits, c.isDigit := fun c hc =>
    isDigit_toDigits d.digits c (by rw [all]; exact List.mem_append_left _ hc)
  obtain ⟨d', plain, value⟩ :=
    plain_placePoint some digits ((Ratio.digitCount d.digits : Int) + d.exponent)
  refine ⟨d', plain, value.trans ?_⟩
  have power : (Ratio.digitCount d.digits : Int) + d.exponent - ((significant d.digits).length : Int) =
      (z : Int) + d.exponent := by omega
  rw [Decimal.toRat_value, power, zpow_add₀ (by norm_num), zpow_natCast, ← mul_assoc]
  congr 1
  exact_mod_cast written

/-! ## Texts of numbers -/

open Binary64 (magnitude isNegative isFinite)

variable {x : Float}

/-- A number is below zero unless its sign bit is clear or it is a zero. -/
theorem clear_or_zero (finite : isFinite x) (notBelow : ¬x < 0.0) : isNegative x = false ∨ magnitude x = 0 := by
  by_contra both
  obtain ⟨negative, some⟩ := not_or.mp both
  exact notBelow (Binary64.lt_zero_of_isNegative finite (eq_true_of_ne_false negative) some)

/-- The number with the same magnitude and no sign. -/
def unsigned (x : Float) : Float := Binary64.ofMagnitude false (magnitude x)

theorem unsigned_of_clear (clear : isNegative x = false) : unsigned x = x := by
  rw [unsigned, ← clear, Binary64.ofMagnitude_magnitude]

theorem unsigned_of_zero (zero : magnitude x = 0) : unsigned x = 0.0 := by
  rw [unsigned, zero]
  rfl

variable (finite : isFinite x) (clear : isNegative x = false ∨ magnitude x = 0)

include finite clear

/-- A finite number that is not below zero is written as a plain numeral, which is rounded to its
magnitude. -/
theorem plain_text : ∃ d, Plain (text x).toList d ∧ decimalBits d = magnitude x := by
  have bounded : magnitude x < Binary64.infinity := of_decide_eq_true finite
  unfold text
  rw [Binary64.isNaN_of_finite finite, finite]
  simp only [Bool.false_eq_true, if_false, Bool.not_true]
  by_cases zero : magnitude x = 0
  · rw [if_pos zero, zero]
    exact ⟨⟨0, 0⟩, .whole (List.cons_ne_nil '0' []) (by simp), rfl⟩
  · have positive : 0 < magnitude x := Nat.pos_of_ne_zero zero
    have bits := Decimal.bits_shortest .up bounded
    have digits : 0 < (Decimal.shortest .up (magnitude x)).digits :=
      Nat.pos_of_ne_zero fun none => zero (bits.symm.trans (Decimal.bits_of_no_digits none))
    obtain ⟨d, plain, value⟩ := plain_plainDecimal digits
    have same : d.bits = magnitude x := (Decimal.bits_congr value).trans bits
    rw [if_neg zero, clear.resolve_right zero]
    refine ⟨d, by simpa using plain, ?_⟩
    rw [Decimal.decimalBits_eq_bits (same ▸ positive) (same ▸ bounded), same]

/-- It is read as that number, without a sign. -/
theorem read?_text : read? (text x) = some (unsigned x) := by
  obtain ⟨d, plain, bits⟩ := plain_text finite clear
  obtain ⟨c, cs, text, digit⟩ := plain.begins
  rw [read?_of_digit text digit, readUnsigned?_of_digit false digit, ← text, plain.readDecimal?,
    Option.map_some, bits, unsigned]

theorem text_unsigned : text (unsigned x) = text x := by
  rcases clear with clear | zero
  · rw [unsigned_of_clear clear]
  · have zeroText {y : Float} (finite : isFinite y) (zero : magnitude y = 0) : text y = "0" := by
      unfold text
      rw [Binary64.isNaN_of_finite finite, finite, zero]
      rfl
    rw [zeroText finite zero, unsigned_of_zero zero, zeroText (by decide) (by decide)]

/-- What is read equals the number that was written. -/
theorem unsigned_beq : (unsigned x == x) = true := by
  rcases clear with clear | zero
  · rw [unsigned_of_clear clear]
    exact Binary64.beq_self_of_finite finite
  · rw [unsigned_of_zero zero]
    exact Binary64.beq_of_zero (by decide) zero

theorem isFinite_unsigned : isFinite (unsigned x) ∧ isNegative (unsigned x) = false := by
  rcases clear with clear | zero
  · rw [unsigned_of_clear clear]
    exact ⟨finite, clear⟩
  · rw [unsigned_of_zero zero]
    decide

end ScriptLang.Number
