/-
# ScriptLang.Proofs.ElementPosition — the place in an array that an index stands for.

An index stands for a place if it is a whole number and, in strict mode, one that the array has.  Outside strict
mode the whole numbers are wrapped around the length; those that do not fit into a 64-bit word are first held at its
ends.  Either way the place is one that the array has, so no element is read or written outside of it.

The computation is given once more in 64-bit words, with no result where a remainder would be undefined or overflow.
For every length that fits into a word it has one, which is the place computed with whole numbers.
-/
import ScriptLang.Proofs.MemberAssignment
import ScriptLang.Proofs.Number.Rounding
import Mathlib.Data.Int.ModEq

namespace ScriptLang

/-! ## Whole numbers -/

namespace Ratio

theorem toRat_nonneg (r : Ratio) : 0 ≤ r.toRat := by
  unfold toRat
  positivity

theorem toRat_eq_natCast_iff {r : Ratio} (h : r.Proper) {n : Nat} :
    r.toRat = n ↔ r.num % r.den = 0 ∧ r.floor = n := by
  have nonzero : (r.den : ℚ) ≠ 0 := Nat.cast_ne_zero.2 (Nat.ne_of_gt h)
  rw [toRat, div_eq_iff nonzero, ← Nat.cast_mul, Nat.cast_inj, floor]
  constructor
  · intro product
    rw [product]
    exact ⟨Nat.mul_mod_left _ _, Nat.mul_div_cancel _ h⟩
  · rintro ⟨exactly, rfl⟩
    exact (Nat.div_mul_cancel (Nat.dvd_of_mod_eq_zero exactly)).symm

end Ratio

namespace Number

open Binary64

/-- The rational number that a finite number is. -/
def toRat (x : Float) : ℚ :=
  if isNegative x then -(value (magnitude x)).toRat else (value (magnitude x)).toRat

/-- A number is finite and equal to a whole number. -/
structure IsWhole (x : Float) (i : Int) : Prop where
  finite : isFinite x
  equal : toRat x = i

variable {x : Float} {i j : Int}

theorem IsWhole.unique (hi : IsWhole x i) (hj : IsWhole x j) : i = j :=
  Int.cast_injective (hi.equal.symm.trans hj.equal)

theorem abs_toRat (x : Float) : |toRat x| = (value (magnitude x)).toRat := by
  have nonneg := (value (magnitude x)).toRat_nonneg
  unfold toRat
  split
  · rw [abs_neg, abs_of_nonneg nonneg]
  · exact abs_of_nonneg nonneg

theorem toRat_of_natural {n : Nat} (h : (value (magnitude x)).toRat = n) :
    toRat x = (signed (isNegative x) n : Int) := by
  unfold toRat signed
  rw [h]
  split <;> simp

theorem whole?_eq_some_iff : whole? x = some i ↔ IsWhole x i := by
  have proper : (value (magnitude x)).Proper := Ratio.proper_ofScaled _ _ (by decide)
  simp only [whole?, Option.ite_none_right_eq_some, Bool.and_eq_true, decide_eq_true_eq, Option.some.injEq]
  constructor
  · rintro ⟨⟨finite, exactly⟩, rfl⟩
    exact ⟨finite, toRat_of_natural ((Ratio.toRat_eq_natCast_iff proper).2 ⟨exactly, rfl⟩)⟩
  · rintro ⟨finite, equal⟩
    -- the magnitude of a whole number is a natural one
    have natural : (value (magnitude x)).toRat = i.natAbs := by rw [← abs_toRat, equal, Nat.cast_natAbs, Int.cast_abs]
    obtain ⟨exactly, floor⟩ := (Ratio.toRat_eq_natCast_iff proper).1 natural
    refine ⟨⟨finite, exactly⟩, ?_⟩
    rw [floor]
    exact Int.cast_injective ((toRat_of_natural natural).symm.trans equal)

theorem whole?_eq_none_iff : whole? x = none ↔ ¬∃ i, IsWhole x i := by
  simp only [← whole?_eq_some_iff, Option.eq_none_iff_forall_ne_some, not_exists, ne_eq]

end Number

/-! ## Places -/

open Number (IsWhole)

theorem elementPosition_of_whole {x : Float} {i : Int} (h : IsWhole x i) (length : Nat) (strict : Bool) :
    elementPosition (.number x) length strict = placeOf (clampIndex i) length strict := by
  simp only [elementPosition, Number.whole?_eq_some_iff.2 h]

theorem elementPosition_of_not_whole {x : Float} (h : ¬∃ i, IsWhole x i) (length : Nat) (strict : Bool) :
    elementPosition (.number x) length strict = .error (.range (.notWhole x)) := by
  simp only [elementPosition, Number.whole?_eq_none_iff.2 h]

theorem clampIndex_of_small {i : Int} (h : |i| < 2 ^ 63) : clampIndex i = i := by
  have bounds := abs_lt.1 h
  unfold clampIndex
  omega

/-- The ends of a word are no places of an array whose length fits into one. -/
theorem clampIndex_inside {i : Int} {length : Nat} (fits : length < 2 ^ 63) :
    (0 ≤ clampIndex i ∧ clampIndex i < length) ↔ 0 ≤ i ∧ i < length := by
  unfold clampIndex
  omega

theorem placeOf_strict (i : Int) (length : Nat) :
    placeOf i length true =
      if 0 ≤ i ∧ i < length then .ok (some i.toNat) else .error (.range (.outOfBounds i length)) := rfl

theorem placeOf_empty (i : Int) : placeOf i 0 false = .ok none := by
  unfold placeOf
  rw [if_neg (by omega)]
  rfl

/-- Outside strict mode an index stands for its remainder, also where that is the index itself. -/
theorem placeOf_lenient (i : Int) {length : Nat} (positive : 0 < length) :
    placeOf i length false = .ok (some (i % length).toNat) := by
  unfold placeOf
  split
  · next inside => rw [Int.emod_eq_of_lt inside.1 inside.2]
  · rw [if_neg (by decide), if_neg (Nat.ne_of_gt positive)]

theorem placeOf_strict_eq_ok_iff {i : Int} {length : Nat} (fits : length < 2 ^ 63) {r : Option Nat} :
    placeOf (clampIndex i) length true = .ok r ↔ ∃ p : Nat, p < length ∧ i = p ∧ r = some p := by
  rw [placeOf_strict]
  split
  · next inside =>
    obtain ⟨low, high⟩ := (clampIndex_inside fits).1 inside
    have same : clampIndex i = i := clampIndex_of_small (abs_lt.2 ⟨by omega, by omega⟩)
    rw [same, Except.ok.injEq]
    constructor
    · rintro rfl
      exact ⟨i.toNat, by omega, by omega, rfl⟩
    · rintro ⟨p, -, rfl, rfl⟩
      rfl
  · next outside =>
    simp only [reduceCtorEq, false_iff, not_exists, not_and]
    rintro p below rfl
    exact absurd ((clampIndex_inside fits).2 ⟨Int.natCast_nonneg p, by omega⟩) outside

/-- There is no place only in an empty array, outside strict mode. -/
theorem elementPosition_eq_none {index : Value} {length : Nat} {strict : Bool}
    (h : elementPosition index length strict = .ok none) : length = 0 ∧ strict = false := by
  unfold elementPosition placeOf at h
  split at h
  · split at h
    · split at h
      · cases h
      · split at h
        · cases h
        · next lenient =>
          split at h
          · next empty => exact ⟨empty, Bool.eq_false_iff.2 lenient⟩
          · cases h
    · cases h
  · cases h

section Numbers

variable {x : Float} {length : Nat}

theorem elementPosition_strict_eq_ok_iff (fits : length < 2 ^ 63) {r : Option Nat} :
    elementPosition (.number x) length true = .ok r ↔ ∃ p < length, IsWhole x (p : Nat) ∧ r = some p := by
  by_cases whole : ∃ i, IsWhole x i
  · obtain ⟨i, whole⟩ := whole
    rw [elementPosition_of_whole whole, placeOf_strict_eq_ok_iff fits]
    refine exists_congr fun p => and_congr_right fun _ => and_congr_left fun _ => ?_
    exact ⟨fun same => same ▸ whole, fun same => whole.unique same⟩
  · rw [elementPosition_of_not_whole whole]
    simp only [reduceCtorEq, false_iff]
    rintro ⟨p, -, here, -⟩
    exact whole ⟨p, here⟩

/-- Outside strict mode every whole number has an outcome. -/
theorem elementPosition_lenient_ok {i : Int} (whole : IsWhole x i) (length : Nat) :
    elementPosition (.number x) length false =
      .ok (if length = 0 then none else some (clampIndex i % length).toNat) := by
  rw [elementPosition_of_whole whole]
  split
  · next empty => rw [empty, placeOf_empty]
  · next nonempty => rw [placeOf_lenient _ (Nat.pos_of_ne_zero nonempty)]

theorem range_of_elementPosition_error {strict : Bool} {fault : RuntimeFault}
    (failed : elementPosition (.number x) length strict = .error fault) : ∃ f, fault = .range f := by
  simp only [elementPosition, placeOf] at failed
  repeat' split at failed
  all_goals cases failed
  all_goals exact ⟨_, rfl⟩

theorem elementPosition_fails_iff (fits : length < 2 ^ 63) (strict : Bool) :
    (∃ fault, elementPosition (.number x) length strict = .error (.range fault)) ↔
      (¬∃ i, IsWhole x i) ∨ strict ∧ ¬∃ p < length, IsWhole x (p : Nat) := by
  constructor
  · rintro ⟨fault, failed⟩
    by_cases whole : ∃ i, IsWhole x i
    · obtain ⟨i, whole⟩ := whole
      cases strict with
      | false => cases failed.symm.trans (elementPosition_lenient_ok whole length)
      | true =>
        refine .inr ⟨rfl, fun ⟨p, below, here⟩ => ?_⟩
        cases failed.symm.trans ((elementPosition_strict_eq_ok_iff fits).2 ⟨p, below, here, rfl⟩)
    · exact .inl whole
  · intro refused
    cases outcome : elementPosition (.number x) length strict with
    | error fault =>
      obtain ⟨f, rfl⟩ := range_of_elementPosition_error outcome
      exact ⟨f, rfl⟩
    | ok r =>
      rcases refused with whole | ⟨rfl, outside⟩
      · rw [elementPosition_of_not_whole whole] at outcome
        cases outcome
      · obtain ⟨p, below, here, -⟩ := (elementPosition_strict_eq_ok_iff fits).1 outcome
        exact absurd ⟨p, below, here⟩ outside

/-- Outside strict mode a number stands for a place of the array, and for the one that it is congruent to if it fits
into a word. -/
theorem elementPosition_wraps {i : Int} (whole : IsWhole x i) (positive : 0 < length) :
    ∃ p < length, elementPosition (.number x) length false = .ok (some p) ∧
      (|i| < 2 ^ 63 → (p : Int) ≡ i [ZMOD length] ∧
        ∀ q < length, ((q : Nat) : Int) ≡ i [ZMOD length] → q = p) := by
  have low : 0 ≤ clampIndex i % length := Int.emod_nonneg _ (by omega)
  have high : clampIndex i % length < length := Int.emod_lt_of_pos _ (by omega)
  refine ⟨(clampIndex i % length).toNat, by omega, ?_, fun small => ?_⟩
  · rw [elementPosition_lenient_ok whole, if_neg (Nat.ne_of_gt positive)]
  · rw [clampIndex_of_small small] at low ⊢
    rw [Int.toNat_of_nonneg low]
    refine ⟨Int.mod_modEq i length, fun q below congruent => ?_⟩
    have same : (q : Int) = i % length := by
      rw [← congruent, Int.emod_eq_of_lt (Int.natCast_nonneg q) (by omega)]
    omega

/-- Where strict mode finds a place, the other mode finds it too. -/
theorem elementPosition_lenient_of_strict (fits : length < 2 ^ 63) {r : Option Nat}
    (found : elementPosition (.number x) length true = .ok r) : elementPosition (.number x) length false = .ok r := by
  obtain ⟨p, below, here, rfl⟩ := (elementPosition_strict_eq_ok_iff fits).1 found
  have small : |(p : Int)| < 2 ^ 63 := abs_lt.2 ⟨by omega, by omega⟩
  obtain ⟨q, -, lenient, congruent⟩ := elementPosition_wraps here (Nat.zero_lt_of_lt below)
  rw [lenient, (congruent small).2 p below rfl]

end Numbers

/-! ## In words -/

/-- The remainder of two 64-bit integers that is not below zero.  There is none by zero, and none where the quotient
is no 64-bit integer. -/
def wordRemainder? (i n : Int64) : Option Int64 :=
  if n = 0 ∨ i = Int64.minValue ∧ n = -1 then none
  else
    let r := i % n
    some (if r < 0 then r + (if n < 0 then -n else n) else r)

/-- The place that an index stands for, computed in 64-bit words.  No result means that the remainder has none. -/
def placeInWords? (i : Int64) (length : UInt64) (strict : Bool) : Option (Except RuntimeFault (Option UInt64)) :=
  let bound := length.toInt64
  if 0 ≤ i ∧ i < bound then some (.ok (some i.toUInt64))
  else if strict then some (.error (.range (.outOfBounds i.toInt length.toNat)))
  else if length = 0 then some (.ok none)
  else (wordRemainder? i bound).map fun r => .ok (some r.toUInt64)

/-- By a positive number there is a remainder, and it is the one of whole numbers. -/
theorem wordRemainder?_of_pos {i n : Int64} (positive : 0 < n.toInt) :
    ∃ r, wordRemainder? i n = some r ∧ r.toInt = i.toInt % n.toInt := by
  have defined : ¬(n = 0 ∨ i = Int64.minValue ∧ n = -1) := by
    rintro (rfl | ⟨-, rfl⟩) <;> revert positive <;> decide
  have notBelow : ¬n < 0 := by
    rw [Int64.lt_iff_toInt_lt, Int64.toInt_zero]
    omega
  have small : n.toInt < 2 ^ 63 := n.toInt_lt
  have low : 0 ≤ i.toInt % n.toInt := Int.emod_nonneg _ (by omega)
  have high : i.toInt % n.toInt < n.toInt := Int.emod_lt_of_pos _ positive
  have truncated : (i % n).toInt = i.toInt % n.toInt ∨ (i % n).toInt = i.toInt % n.toInt - n.toInt := by
    rw [Int64.toInt_mod, Int.tmod_eq_emod]
    split <;> omega
  refine ⟨_, by rw [wordRemainder?, if_neg defined], ?_⟩
  rw [if_neg notBelow]
  split
  · next below =>
    rw [Int64.lt_iff_toInt_lt, Int64.toInt_zero] at below
    have corrected : (i % n).toInt + n.toInt = i.toInt % n.toInt := by omega
    rw [Int64.toInt_add, corrected, Int.bmod_eq_of_le (by omega) (by omega)]
  · next above =>
    rw [Int64.lt_iff_toInt_lt, Int64.toInt_zero] at above
    omega

theorem toInt_ofIntClamp (i : Int) : (Int64.ofIntClamp i).toInt = clampIndex i := by
  unfold Int64.ofIntClamp clampIndex
  split
  · next low =>
    split
    · next high =>
      rw [Int64.toInt_ofIntLE]
      rw [Int64.toInt_minValue] at low
      rw [Int64.toInt_maxValue] at high
      omega
    · next high =>
      rw [Int64.toInt_maxValue] at high ⊢
      omega
  · next low =>
    rw [Int64.toInt_minValue] at low ⊢
    omega

/-- A 64-bit integer that is not below zero, as a word without a sign. -/
theorem toUInt64_of_toInt {r : Int64} {p : Nat} (h : r.toInt = p) : r.toUInt64 = UInt64.ofNat p := by
  have notBelow : 0 ≤ r := by
    rw [Int64.le_iff_toInt_le, Int64.toInt_zero, h]
    exact Int.natCast_nonneg p
  have small : r.toInt < 2 ^ 63 := r.toInt_lt
  apply UInt64.toNat_inj.1
  rw [Int64.toNat_toUInt64_of_le notBelow, Int64.toNatClampNeg, h, Int.toNat_natCast, UInt64.toNat_ofNat']
  omega

/-- In words the computation has a result, for every length that fits into one, and it is the exact one. -/
theorem placeInWords?_eq (i : Int) {length : Nat} (fits : length < 2 ^ 63) (strict : Bool) :
    placeInWords? (.ofIntClamp i) (.ofNat length) strict =
      some ((placeOf (clampIndex i) length strict).map (Option.map UInt64.ofNat)) := by
  have bound : (UInt64.ofNat length).toInt64.toInt = length := Int64.toInt_ofNat_of_lt fits
  have size : (UInt64.ofNat length).toNat = length := by
    rw [UInt64.toNat_ofNat']
    omega
  have empty : UInt64.ofNat length = 0 ↔ length = 0 := by
    rw [← UInt64.toNat_inj, size]
    rfl
  have inside : (0 ≤ Int64.ofIntClamp i ∧ Int64.ofIntClamp i < (UInt64.ofNat length).toInt64) ↔
      0 ≤ clampIndex i ∧ clampIndex i < length := by
    rw [Int64.le_iff_toInt_le, Int64.lt_iff_toInt_lt, Int64.toInt_zero, toInt_ofIntClamp, bound]
  unfold placeInWords? placeOf
  simp only [inside, empty, size, toInt_ofIntClamp]
  split
  · next there =>
    obtain ⟨p, hp⟩ := Int.eq_ofNat_of_zero_le there.1
    rw [toUInt64_of_toInt (p := p) (by rw [toInt_ofIntClamp, hp]), hp]
    rfl
  · split
    · rfl
    · split
      · rfl
      · next nonempty =>
        have positive : 0 < (UInt64.ofNat length).toInt64.toInt := by omega
        obtain ⟨r, remainder, value⟩ := wordRemainder?_of_pos (i := .ofIntClamp i) positive
        rw [toInt_ofIntClamp, bound] at value
        have low : 0 ≤ clampIndex i % length := Int.emod_nonneg _ (by omega)
        rw [remainder, Option.map_some, toUInt64_of_toInt (p := (clampIndex i % length).toNat) (by omega)]
        rfl

/-! ## Reading and writing elements -/

namespace Eval

variable {self : Evaluator} {property : Expr} {strict : Bool} {span : Span} {stamp : Stamp} {elements : List Value}
  {m k : Machine}

/-- What is read from an array is the element at a place that it has, or null from an empty one. -/
theorem memberValue_of_array {v : Value}
    (h : memberValue self (.array stamp elements) property true strict span m = .ok v k) :
    ∃ index, self.expression property strict m = .ok index k ∧
      (elements = [] ∧ strict = false ∧ v = .null ∨
        ∃ p, ∃ bound : p < elements.length,
          elementPosition index elements.length strict = .ok (some p) ∧ v = elements[p]) := by
  obtain ⟨place, l, named, read⟩ := Run.bind_eq_ok.1 h
  obtain ⟨index, _, evaluated, settled⟩ := Run.bind_eq_ok.1 named
  obtain ⟨position, rfl⟩ := Run.settle_eq_ok.1 settled
  cases read
  refine ⟨index, evaluated, ?_⟩
  cases place with
  | none =>
    obtain ⟨empty, lenient⟩ := elementPosition_eq_none position
    exact .inl ⟨List.length_eq_zero_iff.1 empty, lenient, rfl⟩
  | some p =>
    have bound := elementPosition_lt position
    refine .inr ⟨p, bound, position, ?_⟩
    simp [bound]

/-- What is written into an array stands at a place that it has. -/
theorem withMember_of_array {v updated : Value}
    (h : withMember self (.array stamp elements) property true v strict span m = .ok updated k) :
    ∃ index l p, self.expression property strict m = .ok index l ∧ p < elements.length ∧
      elementPosition index elements.length strict = .ok (some p) ∧
      updated = .array l.stamps (elements.set p v) := by
  obtain ⟨place, l, named, written⟩ := Run.bind_eq_ok.1 h
  obtain ⟨index, _, evaluated, settled⟩ := Run.bind_eq_ok.1 named
  obtain ⟨position, rfl⟩ := Run.settle_eq_ok.1 settled
  cases place with
  | none => cases written
  | some p =>
    cases written
    exact ⟨index, l, p, evaluated, elementPosition_lt position, position, rfl⟩

end Eval

/-- For every number and every length that fits into a 64-bit word.

The only faults are those of range: the number is not a whole one, or in strict mode it is no place of the array.
In strict mode the place is the number itself.  Outside it an empty array has no place, and else the place is one
that the array has; it is the one that is congruent to the number, unless the number is held at the ends of a word.
Where strict mode finds a place, the other mode finds the same.  The computation in words never overflows and comes
to the same.

So what is read from an array is one of its elements, or null from an empty one, and what is written replaces one
of its elements. -/
theorem elementPosition_exact (x : Float) {length : Nat} (fits : length < 2 ^ 63) :
    (∀ strict, (∃ fault, elementPosition (.number x) length strict = .error (.range fault)) ↔
      (¬∃ i, IsWhole x i) ∨ strict ∧ ¬∃ p < length, IsWhole x (p : Nat)) ∧
    (∀ strict fault, elementPosition (.number x) length strict = .error fault → ∃ f, fault = .range f) ∧
    (∀ r, elementPosition (.number x) length true = .ok r ↔ ∃ p < length, IsWhole x (p : Nat) ∧ r = some p) ∧
    (∀ i, IsWhole x i → length = 0 → elementPosition (.number x) length false = .ok none) ∧
    (∀ i, IsWhole x i → 0 < length →
      ∃ p < length, elementPosition (.number x) length false = .ok (some p) ∧
        (|i| < 2 ^ 63 → (p : Int) ≡ i [ZMOD length] ∧
          ∀ q < length, ((q : Nat) : Int) ≡ i [ZMOD length] → q = p)) ∧
    (∀ r, elementPosition (.number x) length true = .ok r → elementPosition (.number x) length false = .ok r) ∧
    (∀ i strict, IsWhole x i → placeInWords? (.ofIntClamp i) (.ofNat length) strict =
      some ((elementPosition (.number x) length strict).map (Option.map UInt64.ofNat))) ∧
    (∀ self stamp elements property strict span m v k,
      Eval.memberValue self (.array stamp elements) property true strict span m = .ok v k →
      ∃ index, self.expression property strict m = .ok index k ∧
        (elements = [] ∧ strict = false ∧ v = .null ∨
          ∃ p, ∃ bound : p < elements.length,
            elementPosition index elements.length strict = .ok (some p) ∧ v = elements[p])) ∧
    ∀ self stamp elements property strict span m v updated k,
      Eval.withMember self (.array stamp elements) property true v strict span m = .ok updated k →
      ∃ index l p, self.expression property strict m = .ok index l ∧ p < elements.length ∧
        elementPosition index elements.length strict = .ok (some p) ∧
        updated = .array l.stamps (elements.set p v) := by
  refine ⟨elementPosition_fails_iff fits, fun _ _ => range_of_elementPosition_error,
    fun _ => elementPosition_strict_eq_ok_iff fits, ?_, fun _ => elementPosition_wraps,
    fun _ => elementPosition_lenient_of_strict fits, ?_, fun _ _ _ _ _ _ _ _ _ => Eval.memberValue_of_array,
    fun _ _ _ _ _ _ _ _ _ _ => Eval.withMember_of_array⟩
  · intro i whole empty
    rw [elementPosition_lenient_ok whole, if_pos empty]
  · intro i strict whole
    rw [elementPosition_of_whole whole, placeInWords?_eq i fits]

/-- In an array of three elements the index -1 stands for the last one, in words as well, and strict mode refuses
it. -/
theorem minusOne_stands_for_last :
    elementPosition (.number (-1.0)) 3 false = .ok (some 2) ∧
      placeInWords? (.ofIntClamp (-1)) 3 false = some (.ok (some 2)) ∧
      ∃ fault, elementPosition (.number (-1.0)) 3 true = .error (.range fault) := by
  have fits : 3 < 2 ^ 63 := by decide
  have whole : IsWhole (-1.0) (-1) := Number.whole?_eq_some_iff.1 (by decide)
  obtain ⟨fails, -, -, -, wraps, -, words, -⟩ := elementPosition_exact (-1.0) fits
  obtain ⟨p, -, found, only⟩ := wraps (-1) whole (by decide)
  have last : 2 = p := (only (by decide)).2 2 (by decide) (by decide)
  subst last
  refine ⟨found, ?_, (fails true).2 (.inr ⟨rfl, ?_⟩)⟩
  · exact (words (-1) false whole).trans (by rw [found]; rfl)
  · rintro ⟨p, -, here⟩
    have := whole.unique here
    omega

end ScriptLang
