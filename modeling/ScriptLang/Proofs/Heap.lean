/-
# ScriptLang.Proofs.Heap — what stamps stand for.

A heap says which value each stamp stands for.  A value fits a heap if it, and every made value in it, is what the
heap has at its stamp; so two values that fit one heap and have one stamp are one value.

Programs make values that fit: each new one gets a stamp that the heap does not have, and what is made of parts that
fit is put there.  The heap only grows, so what fitted before still fits.  This is an invariant, and by it all values
that are bound or come out in a session fit one heap.
-/
import ScriptLang.Proofs.Instance
import ScriptLang.Proofs.Invariant.Rules

namespace ScriptLang

/-- What each stamp stands for, where it stands for anything. -/
abbrev Heap := Stamp → Option Value

namespace Heap

/-- One heap has all that another has. -/
def Grows (heap heap' : Heap) : Prop := ∀ {k v}, heap k = some v → heap' k = some v

/-- No stamp from `k` on stands for anything. -/
def FreshFrom (heap : Heap) (k : Stamp) : Prop := ∀ i, k ≤ i → heap i = none

/-- The heap in which `k` stands for a value. -/
def put (heap : Heap) (k : Stamp) (v : Value) : Heap := fun i => if i = k then some v else heap i

variable {heap : Heap} {k : Stamp} {v : Value}

@[simp] theorem put_self : heap.put k v k = some v := if_pos rfl

/-- What is put at a fresh stamp takes nothing away. -/
theorem FreshFrom.grows (h : heap.FreshFrom k) : heap.Grows (heap.put k v) := by
  intro i w stands
  have other : i ≠ k := by
    rintro rfl
    rw [h i le_rfl] at stands
    cases stands
  rw [put, if_neg other, stands]

theorem FreshFrom.put (h : heap.FreshFrom k) : (heap.put k v).FreshFrom (k + 1) := by
  intro i above
  rw [Heap.put, if_neg (Nat.ne_of_gt above)]
  exact h i (Nat.le_of_lt above)

end Heap

namespace Value

/-- The stamp of a made value. -/
def stamp? : Value → Option Stamp
  | array i _ | object i _ | native i _ => some i
  | function f => some f.stamp
  | classValue c => some c.stamp
  | _ => none

/-- A value fits a heap: it and each made part of it is what the heap has at its stamp.  The properties of objects
stand in order. -/
inductive Fits (heap : Heap) : Value → Prop
  | plain {v : Value} (plain : v.IsPlain) : Fits heap v
  | array {i : Stamp} {vs : List Value} (made : heap i = some (array i vs)) (parts : ∀ v ∈ vs, Fits heap v) :
    Fits heap (array i vs)
  | object {i : Stamp} {ps : Properties} (made : heap i = some (object i ps)) (ordered : Properties.Ordered ps)
    (parts : ∀ p ∈ ps, Fits heap p.2) : Fits heap (object i ps)
  | function {f : Function} (made : heap f.stamp = some (function f)) : Fits heap (function f)
  | native {i : Stamp} {n : Native} (made : heap i = some (native i n)) : Fits heap (native i n)
  | classValue {c : Class} (made : heap c.stamp = some (classValue c)) : Fits heap (classValue c)

namespace Fits

variable {heap heap' : Heap} {k : Stamp} {v : Value}

theorem mono (h : v.Fits heap) (grows : heap.Grows heap') : v.Fits heap' := by
  induction h with
  | plain plain => exact .plain plain
  | array made _ ih => exact .array (grows made) ih
  | object made ordered _ ih => exact .object (grows made) ordered ih
  | function made => exact .function (grows made)
  | native made => exact .native (grows made)
  | classValue made => exact .classValue (grows made)

theorem elements {i : Stamp} {vs : List Value} (h : (Value.array i vs).Fits heap) : ∀ v ∈ vs, v.Fits heap := by
  cases h with
  | plain plain => cases plain
  | array _ parts => exact parts

theorem properties {i : Stamp} {ps : Properties} (h : (Value.object i ps).Fits heap) :
    Properties.Ordered ps ∧ ∀ p ∈ ps, p.2.Fits heap := by
  cases h with
  | plain plain => cases plain
  | object _ ordered parts => exact ⟨ordered, parts⟩

theorem stands (h : v.Fits heap) (made : v.stamp? = some k) : heap k = some v := by
  cases h with
  | plain plain => cases v <;> first | exact plain.elim | cases made
  | _ => cases made; assumption

/-- Made values with one stamp are one value. -/
theorem eq_of_stamp {w : Value} (hv : v.Fits heap) (hw : w.Fits heap) (madeV : v.stamp? = some k)
    (madeW : w.stamp? = some k) : v = w :=
  Option.some.inj ((hv.stands madeV).symm.trans (hw.stands madeW))

/-- A value that is made of parts that fit, at a fresh stamp, fits when it is put there. -/
theorem make (fresh : heap.FreshFrom k) (h : v.Made Properties.Ordered (Fits heap) k) : v.Fits (heap.put k v) := by
  cases h with
  | array parts => exact .array Heap.put_self fun v mem => (parts v mem).mono fresh.grows
  | object ordered parts => exact .object Heap.put_self ordered fun p mem => (parts p mem).mono fresh.grows
  | function => exact .function Heap.put_self
  | native => exact .native Heap.put_self
  | classValue => exact .classValue Heap.put_self

end Fits

end Value

/-- The values that fit a heap, as heaps grow. -/
def Invariant.fits : Invariant Heap where
  later := Heap.Grows
  value heap v := v.Fits heap
  fresh := Heap.FreshFrom
  shape := Properties.Ordered
  refl _ := id
  trans first second := fun stands => second (first stands)
  mono later fits := fits.mono later
  plain := .plain
  elements := .elements
  properties := Value.Fits.properties
  empty := .nil
  insert key v ordered := ordered.insert key v
  make fresh made := ⟨_, fresh.grows, .make fresh made, fresh.put⟩

/-- All values of a session fit one heap: those that are bound after each of its sources, and those that the sources
end with. -/
theorem Machine.session_fits (n : Nat) (host : Host) (sources : List String) :
    ∃ heap : Heap, ∀ step ∈ (initial host).session n sources,
      step.2.scopes.All (Value.Fits heap) ∧ ∀ v, step.1 = .value v → v.Fits heap := by
  have empty : Invariant.fits.fresh (fun _ => none) 0 := fun _ _ => rfl
  obtain ⟨_, -, holds⟩ := initial_upholds host empty
  obtain ⟨heap, -, steps⟩ := session_upholds n sources holds
  exact ⟨heap, steps⟩

end ScriptLang
