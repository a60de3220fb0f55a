/-
# ScriptLang.Proofs.Number.Numeral — every number has a numeral.

Infinity and NaN are written by name.  A finite number is written as its exact value: all digits of a
natural number, and the power of ten that it is divided by.  Reading a numeral gives back its number,
bit by bit, so different numbers have different numerals.
-/
import ScriptLang.Proofs.Number.Finite
import ScriptLang.Proofs.Number.Shortest
import Mathlib

namespace ScriptLang

/-! ## Bits -/

namespace Binary64

open Float.Model.UnpackedFloat
open Float.Model.Format (binary64)

/-- A number is put together from its sign and its magnitude. -/
theorem ofMagnitude_magnitude (x : Float) : ofMagnitude (isNegative x) (magnitude x) = x := by
  have fits := x.toBits.toNat_lt
  have word : (if isNegative x then magnitude x + signBit else magnitude x) = x.toBits.toNat := by
    unfold isNegative magnitude signBit
    simp only [decide_eq_true_eq]
    split <;> omega
  rw [ofMagnitude, word, UInt64.ofNat_toNat, Float.ofBits_toBits]

/-- There is one number that is no number. -/
theorem eq_nan_of_infinity_lt {x : Float} (h : infinity < magnitude x) : x = Number.nan := by
  refine Float.toBits_inj.mp ?_
  obtain ⟨⟨bits, valid⟩⟩ := x
  change infinity < bits.toNat % signBit at h
  show bits = _
  have word := bits.toNat_lt
  obtain ⟨exponent, mantissa, -⟩ := unpack_parts bits
  have top : @unpackExponent binary64 bits.toBitVec = -1#11 := by
    rw [← BitVec.toNat_inj, exponent]
    show _ = 2047
    unfold infinity signBit at h
    omega
  have written : @unpackMantissa binary64 bits.toBitVec ≠ 0#52 := by
    rw [Ne, ← BitVec.toNat_inj, mantissa]
    show ¬_ = 0
    unfold infinity signBit at h
    omega
  -- all exponent bits set and a mantissa that is not zero: the word is the canonical one
  have canonical := valid.eq_packedNaN top written
  exact UInt64.toBitVec_inj.mp canonical

end Binary64

/-! ## Numerals -/

namespace Number

open Binary64 (infinity magnitude isNegative)

/-- A decimal whose exponent is not positive, with all its digits. -/
def decimalNumeral (d : Decimal) : List Char :=
  Nat.toDigits 10 d.digits ++ 'e' :: '-' :: Nat.toDigits 10 (-d.exponent).toNat

/-- A numeral of a number. -/
def numeral (x : Float) : String :=
  String.ofList <|
    if infinity < magnitude x then ['N', 'a', 'N']
    else (if isNegative x then ['-'] else []) ++
      if magnitude x = infinity then ['i', 'n', 'f'] else decimalNumeral (.exact (magnitude x))

theorem digitsValue_toDigits (n : Nat) : digitsValue (Nat.toDigits 10 n) = n := by
  have same : digitsValue (Nat.toDigits 10 n) = Nat.ofDigitChars 10 (Nat.toDigits 10 n) 0 := by
    rw [Nat.ofDigitChars_eq_foldl]
    simp only [digitsValue, Nat.mul_comm]
  rw [same, Nat.ofDigitChars_toDigits (by decide) (by decide)]

theorem isDigit_toDigits (n : Nat) : ∀ c ∈ Nat.toDigits 10 n, c.isDigit :=
  fun _ h => Nat.isDigit_of_mem_toDigits (by decide) (by decide) h

theorem readExponent?_toDigits (n : Nat) :
    readExponent? ('e' :: '-' :: Nat.toDigits 10 n) = some (-(n : Int)) := by
  have digits : (Nat.toDigits 10 n).all Char.isDigit := List.all_eq_true.mpr (isDigit_toDigits n)
  have nonempty : (Nat.toDigits 10 n).isEmpty = false := by
    rw [List.isEmpty_eq_false_iff]
    exact Nat.toDigits_ne_nil
  simp [readExponent?, digits, nonempty, digitsValue_toDigits, signed]

theorem readDecimal?_decimalNumeral {d : Decimal} (h : d.exponent ≤ 0) :
    readDecimal? (decimalNumeral d) = some d := by
  have digits := isDigit_toDigits d.digits
  have whole : (decimalNumeral d).takeWhile Char.isDigit = Nat.toDigits 10 d.digits := by
    rw [decimalNumeral, List.takeWhile_append_of_pos digits, List.takeWhile_cons]
    simp
  have rest : (decimalNumeral d).dropWhile Char.isDigit =
      'e' :: '-' :: Nat.toDigits 10 (-d.exponent).toNat := by
    rw [decimalNumeral, List.dropWhile_append_of_pos digits, List.dropWhile_cons]
    simp
  have nonempty : (Nat.toDigits 10 d.digits).isEmpty = false := by
    rw [List.isEmpty_eq_false_iff]
    exact Nat.toDigits_ne_nil
  unfold readDecimal?
  simp only [whole, rest]
  simp only [nonempty, Bool.false_and, Bool.false_eq_true, if_false]
  -- an `e` is no point, so there is no fraction
  show Option.map (fun e => (⟨digitsValue (Nat.toDigits 10 d.digits ++ []), e - ((0 : Nat) : Int)⟩ : Decimal))
    (readExponent? ('e' :: '-' :: Nat.toDigits 10 (-d.exponent).toNat)) = some d
  have exponent : -(((-d.exponent).toNat : Nat) : Int) - ((0 : Nat) : Int) = d.exponent := by omega
  rw [readExponent?_toDigits, Option.map_some, List.append_nil, digitsValue_toDigits, exponent]

/-- A numeral begins with a digit. -/
theorem decimalNumeral_eq_cons (d : Decimal) : ∃ c cs, decimalNumeral d = c :: cs ∧ c.isDigit := by
  obtain ⟨c, cs, hc⟩ := List.exists_cons_of_ne_nil (Nat.toDigits_ne_nil (b := 10) (n := d.digits))
  refine ⟨c, _, congrArg (· ++ _) hc, isDigit_toDigits d.digits c ?_⟩
  rw [hc]
  exact List.mem_cons_self

/-- What begins with a digit is read as a decimal, since a digit begins no name. -/
theorem readUnsigned?_of_digit (negative : Bool) {c : Char} (digit : c.isDigit) (cs : List Char) :
    readUnsigned? negative (c :: cs) =
      (readDecimal? (c :: cs)).map fun d => Binary64.ofMagnitude negative (decimalBits d) := by
  have lower : c.toLower = c := by
    simp only [Char.isDigit, Bool.and_eq_true, decide_eq_true_eq] at digit
    refine dif_neg fun capital => ?_
    exact absurd (UInt32.le_trans capital.1 digit.2) (by decide)
  have notName : c.toLower ≠ 'i' ∧ c.toLower ≠ 'n' := by
    rw [lower]
    constructor <;> rintro rfl <;> exact absurd digit (by decide)
  unfold readUnsigned?
  simp only [List.map_cons, List.cons.injEq, notName.1, notName.2, false_and, decide_false, Bool.or_false,
    Bool.false_eq_true, if_false]

/-- A digit is no sign. -/
theorem read?_of_digit {s : String} {c : Char} {cs : List Char} (text : s.toList = c :: cs) (digit : c.isDigit) :
    read? s = readUnsigned? false (c :: cs) := by
  unfold read?
  rw [text]
  split
  · next minus =>
    obtain rfl := (List.cons.inj minus).1
    exact absurd digit (by decide)
  · next plus =>
    obtain rfl := (List.cons.inj plus).1
    exact absurd digit (by decide)
  · rfl

/-- A decimal is read with the sign before it. -/
theorem readUnsigned?_decimalNumeral (negative : Bool) {d : Decimal} (h : d.exponent ≤ 0) :
    readUnsigned? negative (decimalNumeral d) =
      some (Binary64.ofMagnitude negative (decimalBits d)) := by
  obtain ⟨c, cs, hc, digit⟩ := decimalNumeral_eq_cons d
  have read := readDecimal?_decimalNumeral h
  rw [hc] at read ⊢
  rw [readUnsigned?_of_digit negative digit, read, Option.map_some]

/-- What a number's numeral has after its sign is read with that sign. -/
theorem readUnsigned?_numeral {x : Float} (noNan : ¬infinity < magnitude x) :
    readUnsigned? (isNegative x)
      (if magnitude x = infinity then ['i', 'n', 'f'] else decimalNumeral (.exact (magnitude x))) =
        some x := by
  by_cases infinite : magnitude x = infinity
  · rw [if_pos infinite]
    show some (Binary64.ofMagnitude (isNegative x) infinity) = some x
    rw [← infinite, Binary64.ofMagnitude_magnitude]
  · have finite : magnitude x < infinity := by omega
    have notPositive : (Decimal.exact (magnitude x)).exponent ≤ 0 := Int.min_le_right _ _
    rw [if_neg infinite, readUnsigned?_decimalNumeral _ notPositive, Decimal.decimalBits_exact finite,
      Binary64.ofMagnitude_magnitude]

/-- Every number is read from its numeral. -/
theorem read?_numeral (x : Float) : read? (numeral x) = some x := by
  by_cases nan : infinity < magnitude x
  · rw [Binary64.eq_nan_of_infinity_lt nan]
    rfl
  · have unsigned := readUnsigned?_numeral nan
    unfold numeral
    rw [if_neg nan]
    cases sign : isNegative x with
    | true =>
      -- what follows a minus sign is read as it is
      rw [sign] at unsigned
      unfold read?
      rw [String.toList_ofList]
      exact unsigned
    | false =>
      rw [sign] at unsigned
      by_cases infinite : magnitude x = infinity
      · rw [if_pos infinite] at unsigned ⊢
        exact unsigned
      · rw [if_neg infinite] at unsigned ⊢
        obtain ⟨c, cs, hc, digit⟩ := decimalNumeral_eq_cons (.exact (magnitude x))
        rw [hc] at unsigned ⊢
        exact (read?_of_digit (by simp) digit).trans unsigned

end Number

end ScriptLang
