/-
# ScriptLang.Proofs.Equality — the equality of programs, and what it says about that of hosts.

Programs compare objects by their properties for one level, and everything else that is made by its stamp; hosts
compare arrays and objects all the way down.  The comparison of two objects looks up each key of the left one in the
right one.  Since both have as many keys, in order and each once, the keys are the same, and so the properties can be
compared one after another.  Hence the comparison of programs is symmetric and transitive, and what is not equal to
itself is a native function, a NaN, or an object with a NaN for a property.

Where programs say that two values are equal, hosts say so too, but for NaN.  That needs what the stamps are for: made
values with one stamp are one value.
-/
import ScriptLang.Proofs.Heap
import ScriptLang.Proofs.Number.Finite
import ScriptLang.Value.Equality

namespace ScriptLang

/-! ## Numbers -/

namespace Binary64

open Float.Model (UnpackedFloat)

/-- What a number is compared as: there is one zero. -/
def compared : UnpackedFloat → UnpackedFloat
  | .zero _ => .zero .positive
  | u => u

/-- Two numbers are equal if they are compared as one, and that is not NaN. -/
theorem beq_iff (x y : Float) :
    (x == y) = true ↔ x.isNaN = false ∧ compared x.toModel.unpack = compared y.toModel.unpack := by
  show x.toModel.unpack.beq y.toModel.unpack = true ↔ x.toModel.unpack.isNaN = false ∧ _
  generalize x.toModel.unpack = u, y.toModel.unpack = w
  rcases u with ⟨_ | _⟩ | _ | _ | ⟨_ | _⟩ <;> rcases w with ⟨_ | _⟩ | _ | _ | ⟨_ | _⟩ <;>
    simp [compared, UnpackedFloat.beq, UnpackedFloat.compare, UnpackedFloat.isNaN, Ordering.then_eq_eq, and_comm]
  case infinity.negative.infinity.negative | infinity.positive.infinity.positive => rfl

theorem isNaN_eq_of_compared {x y : Float} (same : compared x.toModel.unpack = compared y.toModel.unpack) :
    x.isNaN = y.isNaN := by
  show x.toModel.unpack.isNaN = y.toModel.unpack.isNaN
  revert same
  generalize x.toModel.unpack = u, y.toModel.unpack = w
  cases u <;> cases w <;> simp [compared, UnpackedFloat.isNaN]

theorem beq_self_iff (x : Float) : (x == x) = true ↔ x.isNaN = false := by
  rw [beq_iff, and_iff_left rfl]

theorem beq_symm {x y : Float} (h : (x == y) = true) : (y == x) = true := by
  rw [beq_iff] at *
  exact ⟨isNaN_eq_of_compared h.2 ▸ h.1, h.2.symm⟩

theorem beq_comm (x y : Float) : (x == y) = (y == x) :=
  Bool.eq_iff_iff.2 ⟨beq_symm, beq_symm⟩

theorem beq_trans {x y z : Float} (h : (x == y) = true) (k : (y == z) = true) : (x == z) = true := by
  rw [beq_iff] at *
  exact ⟨h.1, h.2.trans k.2⟩

end Binary64

/-! ## Properties in order -/

namespace Properties

variable {ps qs : Properties}

theorem get?_eq_none_iff {key : String} : get? key ps = none ↔ key ∉ ps.map Prod.fst := by
  induction ps with
  | nil => simp [get?]
  | cons p rest ih =>
    unfold get?
    split <;> simp_all [eq_comm]

/-- As many keys, each of which the other has: then both have the same keys in the same places. -/
theorem keys_eq_of_subset (hp : Properties.Ordered ps) (hq : Properties.Ordered qs) (length : ps.length = qs.length)
    (subset : ps.map Prod.fst ⊆ qs.map Prod.fst) : ps.map Prod.fst = qs.map Prod.fst := by
  have distinct : (ps.map Prod.fst).Nodup := hp.imp ne_of_lt
  have permuted : (ps.map Prod.fst).Perm (qs.map Prod.fst) :=
    (distinct.subperm subset).perm_of_length_le (by simp [length])
  exact permuted.eq_of_pairwise (fun a b _ _ lt gt => absurd lt (lt_asymm gt)) hp hq

end Properties

namespace Value

variable {ps qs : Properties} {a b c : Value}

/-- Two properties have the same key and the same value. -/
def SameProperty (p q : String × Value) : Prop := p.1 = q.1 ∧ same p.2 q.2

/-- Where the keys are the same, looking up each of them is going through both lists at once. -/
theorem all_same_iff (keys : ps.map Prod.fst = qs.map Prod.fst) (hp : Properties.Ordered ps) :
    (∀ p ∈ ps, ∃ w, Properties.get? p.1 qs = some w ∧ same p.2 w) ↔ List.Forall₂ SameProperty ps qs := by
  induction ps generalizing qs with
  | nil =>
    obtain rfl := List.map_eq_nil_iff.1 keys.symm
    simp
  | cons p ps ih =>
    cases qs with
    | nil => simp at keys
    | cons q qs =>
      obtain ⟨key, v⟩ := p
      obtain ⟨key', w⟩ := q
      rw [List.map_cons, List.map_cons, List.cons.injEq] at keys
      obtain ⟨rfl, keys⟩ := keys
      obtain ⟨least, ordered⟩ := List.pairwise_cons.1 hp
      rw [List.forall_mem_cons, List.forall₂_cons, ← ih keys ordered]
      refine and_congr ?_ (forall₂_congr fun p mem => ?_)
      · simp [Properties.get?, SameProperty]
      · have other : key ≠ p.1 := ne_of_lt (least _ (List.mem_map_of_mem mem))
        simp [Properties.get?, other]

/-- Objects are compared one property after another. -/
theorem sameProperties_iff (hp : Properties.Ordered ps) (hq : Properties.Ordered qs) :
    sameProperties ps qs ↔ List.Forall₂ SameProperty ps qs := by
  have looked : sameProperties ps qs ↔
      ps.length = qs.length ∧ ∀ p ∈ ps, ∃ w, Properties.get? p.1 qs = some w ∧ same p.2 w := by
    simp only [sameProperties, Bool.and_eq_true, beq_iff_eq, List.all_eq_true]
    refine and_congr_right fun _ => forall₂_congr fun p _ => ?_
    cases Properties.get? p.1 qs <;> simp
  rw [looked]
  constructor
  · rintro ⟨length, all⟩
    refine (all_same_iff (Properties.keys_eq_of_subset hp hq length fun key mem => ?_) hp).1 all
    obtain ⟨p, there, rfl⟩ := List.mem_map.1 mem
    obtain ⟨w, found, -⟩ := all p there
    by_contra absent
    rw [Properties.get?_eq_none_iff.2 absent] at found
    cases found
  · intro both
    have keys : ps.map Prod.fst = qs.map Prod.fst := by
      rw [← List.forall₂_eq_eq_eq, List.forall₂_map_left_iff, List.forall₂_map_right_iff]
      exact both.imp fun _ _ same => same.1
    exact ⟨both.length_eq, (all_same_iff keys hp).2 both⟩

/-! ## The same value -/

theorem same_comm (v w : Value) : same v w = same w v := by
  cases v <;> cases w <;> first | rfl | exact Binary64.beq_comm _ _ | exact Bool.beq_comm

theorem same_trans (h : same a b) (k : same b c) : same a c := by
  cases a <;> cases b <;> cases c <;> simp_all [same]
  case number.number.number => exact Binary64.beq_trans h k

/-- What is the same is of one kind. -/
theorem kind_eq_of_same (h : same a b) : a.kind = b.kind := by
  cases a <;> cases b <;> first | rfl | cases h

/-- Is a value the number NaN? -/
def isNaN : Value → Bool
  | number x => x.isNaN
  | _ => false

theorem same_self_iff (a : Value) : same a a ↔ a.isNaN = false := by
  cases a <;> simp [same, isNaN]

theorem SameProperty.trans {p q r : String × Value} (h : SameProperty p q) (k : SameProperty q r) :
    SameProperty p r :=
  ⟨h.1.trans k.1, same_trans h.2 k.2⟩

theorem SameProperty.symm {p q : String × Value} (h : SameProperty p q) : SameProperty q p :=
  ⟨h.1.symm, by rw [same_comm]; exact h.2⟩

theorem forall₂_sameProperty_symm (h : List.Forall₂ SameProperty ps qs) : List.Forall₂ SameProperty qs ps :=
  .flip (h.imp fun _ _ => SameProperty.symm)

theorem forall₂_sameProperty_trans {rs : Properties} (h : List.Forall₂ SameProperty ps qs)
    (k : List.Forall₂ SameProperty qs rs) : List.Forall₂ SameProperty ps rs := by
  induction h generalizing rs with
  | nil => exact k
  | cons first _ ih =>
    obtain ⟨r, rs, second, rest, rfl⟩ := List.forall₂_cons_left_iff.1 k
    exact .cons (first.trans second) (ih rest)

/-! ## The equality of programs -/

/-- The properties of an object stand in order. -/
def Ordered : Value → Prop
  | object _ ps => Properties.Ordered ps
  | _ => True

/-- Two values are equal to a program: objects with the same properties, or else the same value. -/
inductive Equals : Value → Value → Prop
  | objects {i j : Stamp} {ps qs : Properties} (properties : List.Forall₂ SameProperty ps qs) :
    Equals (object i ps) (object j qs)
  | same {a b : Value} (plain : a.kind ≠ .object) (same : same a b) : Equals a b

namespace Equals

theorem symm (h : Equals a b) : Equals b a := by
  cases h with
  | objects properties => exact .objects (forall₂_sameProperty_symm properties)
  | same plain same => exact .same (kind_eq_of_same same ▸ plain) (by rwa [same_comm])

theorem trans (h : Equals a b) (k : Equals b c) : Equals a c := by
  cases h with
  | objects properties =>
    cases k with
    | objects properties' => exact .objects (forall₂_sameProperty_trans properties properties')
    | same plain _ => exact absurd rfl plain
  | same plain same =>
    cases k with
    | objects _ => exact absurd (kind_eq_of_same same) plain
    | same _ same' => exact .same plain (same_trans same same')

end Equals

theorem looselyEqual_iff (ha : a.Ordered) (hb : b.Ordered) : looselyEqual a b ↔ Equals a b := by
  unfold looselyEqual
  split
  · next i ps j qs =>
    rw [sameProperties_iff ha hb]
    exact ⟨.objects, fun | .objects properties => properties | .same plain _ => absurd rfl plain⟩
  · next other =>
    constructor
    · intro h
      refine .same (fun object => ?_) h
      have object' := kind_eq_of_same h ▸ object
      cases a <;> cases object
      cases b <;> cases object'
      exact other _ _ _ _ rfl rfl
    · rintro (properties | ⟨-, same⟩)
      · exact absurd rfl (other _ _ _ _ rfl)
      · exact same

theorem equal_eq_ok_iff {r : Bool} :
    a.equal b = .ok r ↔ (a.isNative = false ∧ b.isNative = false) ∧ looselyEqual a b = r := by
  unfold equal
  cases a.isNative <;> cases b.isNative <;> simp

theorem equal_eq_error_iff {fault : RuntimeFault} :
    a.equal b = .error fault ↔ (a.isNative ∨ b.isNative) ∧ fault = .type .nativeComparison := by
  unfold equal
  cases a.isNative <;> cases b.isNative <;> simp [eq_comm]

theorem equal_eq_true_iff (ha : a.Ordered) (hb : b.Ordered) :
    a.equal b = .ok true ↔ (a.isNative = false ∧ b.isNative = false) ∧ Equals a b := by
  rw [equal_eq_ok_iff, looselyEqual_iff ha hb]

theorem equal_comm (ha : a.Ordered) (hb : b.Ordered) : a.equal b = b.equal a := by
  have loosely : looselyEqual a b = looselyEqual b a := by
    rw [Bool.eq_iff_iff, looselyEqual_iff ha hb, looselyEqual_iff hb ha]
    exact ⟨.symm, .symm⟩
  rw [equal, equal, Bool.or_comm, loosely]

theorem equal_trans (ha : a.Ordered) (hb : b.Ordered) (hc : c.Ordered) (h : a.equal b = .ok true)
    (k : b.equal c = .ok true) : a.equal c = .ok true := by
  rw [equal_eq_true_iff ha hb] at h
  rw [equal_eq_true_iff hb hc] at k
  rw [equal_eq_true_iff ha hc]
  exact ⟨⟨h.1.1, k.1.2⟩, h.2.trans k.2⟩

/-- Has an object a NaN directly among its values? -/
def hasNaN : Value → Bool
  | object _ ps => ps.any (·.2.isNaN)
  | _ => false

theorem equals_self_iff (a : Value) : Equals a a ↔ a.isNaN = false ∧ a.hasNaN = false := by
  constructor
  · intro h
    cases h with
    | objects properties =>
      rw [List.forall₂_same] at properties
      refine ⟨rfl, List.any_eq_false.2 fun p mem => ?_⟩
      simpa [same_self_iff] using (properties p mem).2
    | same plain same =>
      refine ⟨(same_self_iff a).1 same, ?_⟩
      cases a <;> first | rfl | exact absurd rfl plain
  · rintro ⟨number, properties⟩
    cases a with
    | object i ps =>
      refine .objects (List.forall₂_same.2 fun p mem => ⟨rfl, ?_⟩)
      simpa [same_self_iff] using List.any_eq_false.1 properties p mem
    | _ => exact .same nofun ((same_self_iff _).2 number)

theorem equal_self_iff (ha : a.Ordered) :
    a.equal a = .ok true ↔ a.isNative = false ∧ a.isNaN = false ∧ a.hasNaN = false := by
  rw [equal_eq_true_iff ha ha, and_self, equals_self_iff]

/-! ## The equality of hosts -/

/-- A NaN stands in a value, at any depth. -/
inductive ContainsNaN : Value → Prop
  | number {x : Float} (nan : x.isNaN) : ContainsNaN (number x)
  | array {i : Stamp} {vs : List Value} {v : Value} (mem : v ∈ vs) (part : ContainsNaN v) : ContainsNaN (array i vs)
  | object {i : Stamp} {ps : Properties} {p : String × Value} (mem : p ∈ ps) (part : ContainsNaN p.2) :
    ContainsNaN (object i ps)

@[simp] theorem containsNaN_number_iff {x : Float} : (number x).ContainsNaN ↔ x.isNaN :=
  ⟨fun | .number nan => nan, .number⟩

@[simp] theorem containsNaN_array_iff {i : Stamp} {vs : List Value} :
    (array i vs).ContainsNaN ↔ ∃ v ∈ vs, v.ContainsNaN :=
  ⟨fun | .array mem part => ⟨_, mem, part⟩, fun ⟨_, mem, part⟩ => .array mem part⟩

@[simp] theorem containsNaN_object_iff {i : Stamp} : (object i ps).ContainsNaN ↔ ∃ p ∈ ps, p.2.ContainsNaN :=
  ⟨fun | .object mem part => ⟨_, mem, part⟩, fun ⟨_, mem, part⟩ => .object mem part⟩

mutual

/-- Without a NaN in it a value is equal to itself. -/
theorem hostEqual_self : ∀ v : Value, ¬v.ContainsNaN → hostEqual v v
  | number x, free => by
    rw [hostEqual, Binary64.beq_self_iff]
    exact Bool.eq_false_iff.2 fun nan => free (.number nan)
  | array i vs, free => by
    rw [hostEqual]
    exact hostEqualElements_self vs fun v mem part => free (.array mem part)
  | object i ps, free => by
    rw [hostEqual]
    exact hostEqualProperties_self ps fun p mem part => free (.object mem part)
  | null, _ => rfl
  | string s, _ => by simp [hostEqual]
  | bool b, _ => by simp [hostEqual]
  | function f, _ => by simp [hostEqual]
  | native i n, _ => by simp [hostEqual]
  | classValue c, _ => by simp [hostEqual]

theorem hostEqualElements_self : ∀ vs : List Value, (∀ v ∈ vs, ¬v.ContainsNaN) → hostEqualElements vs vs
  | [], _ => rfl
  | v :: vs, free => by
    rw [List.forall_mem_cons] at free
    simp [hostEqualElements, hostEqual_self v free.1, hostEqualElements_self vs free.2]

theorem hostEqualProperties_self :
    ∀ ps : List (String × Value), (∀ p ∈ ps, ¬p.2.ContainsNaN) → hostEqualProperties ps ps
  | [], _ => rfl
  | (key, v) :: ps, free => by
    rw [List.forall_mem_cons] at free
    simp [hostEqualProperties, hostEqual_self v free.1, hostEqualProperties_self ps free.2]

end

/-! ## Values of one heap -/

variable {heap : Heap}

theorem Fits.ordered (h : a.Fits heap) : a.Ordered := by
  cases a with
  | object => exact h.properties.1
  | _ => trivial

/-- What is the same is equal for hosts as well, or else it is made and has one stamp. -/
theorem same_cases (h : same a b) : hostEqual a b ∨ ∃ k, a.stamp? = some k ∧ b.stamp? = some k := by
  cases a <;> cases b <;> first
    | exact .inl h
    | exact .inr ⟨_, rfl, by rw [eq_of_beq h]; rfl⟩

/-- Made values with one stamp are one value, so their parts are equal as well. -/
theorem hostEqual_of_same (ha : a.Fits heap) (hb : b.Fits heap) (h : same a b) (free : ¬a.ContainsNaN) :
    hostEqual a b := by
  rcases same_cases h with equal | ⟨k, madeA, madeB⟩
  · exact equal
  · obtain rfl := ha.eq_of_stamp hb madeA madeB
    exact hostEqual_self _ free

theorem hostEqualProperties_of_sameProperties (h : List.Forall₂ SameProperty ps qs)
    (hp : ∀ p ∈ ps, p.2.Fits heap) (hq : ∀ q ∈ qs, q.2.Fits heap) (free : ∀ p ∈ ps, ¬p.2.ContainsNaN) :
    hostEqualProperties ps qs := by
  induction h with
  | nil => rfl
  | @cons p q ps qs first _ ih =>
    rw [List.forall_mem_cons] at hp hq free
    have equal := hostEqual_of_same hp.1 hq.1 first.2 free.1
    simp [hostEqualProperties, first.1, equal, ih hp.2 hq.2 free.2]

theorem hostEqual_of_equal (ha : a.Fits heap) (hb : b.Fits heap) (h : a.equal b = .ok true)
    (free : ¬a.ContainsNaN) : hostEqual a b := by
  rw [equal_eq_true_iff ha.ordered hb.ordered] at h
  cases h.2 with
  | objects properties =>
    rw [hostEqual]
    exact hostEqualProperties_of_sameProperties properties ha.properties.2 hb.properties.2
      fun p mem nan => free (.object mem nan)
  | same _ same => exact hostEqual_of_same ha hb same free

end Value

/-- The equality of programs is a partial equivalence that refines the equality of hosts.  It fails on native
functions only, is symmetric and transitive, and holds of a value and itself but for native functions, NaN and objects
with a NaN directly among their values.  What it holds of, hosts find equal as well, if no NaN stands in it.  This is
said of values that fit one heap, as all values of a session do. -/
theorem equality_refines_host_equality :
    (∀ (n : Nat) (host : Host) (sources : List String), ∃ heap : Heap,
      ∀ step ∈ (Machine.initial host).session n sources,
        step.2.scopes.All (Value.Fits heap) ∧ ∀ v, step.1 = .value v → v.Fits heap) ∧
    ∀ (heap : Heap) (a b c : Value), a.Fits heap → b.Fits heap → c.Fits heap →
      ((∃ fault, a.equal b = .error fault) ↔ a.isNative ∨ b.isNative) ∧
      a.equal b = b.equal a ∧
      (a.equal b = .ok true → b.equal c = .ok true → a.equal c = .ok true) ∧
      (a.equal a = .ok true ↔ a.isNative = false ∧ a.isNaN = false ∧ a.hasNaN = false) ∧
      (a.equal b = .ok true → ¬a.ContainsNaN → Value.hostEqual a b) := by
  refine ⟨Machine.session_fits, fun heap a b c ha hb hc => ⟨?_, ?_, ?_, ?_, ?_⟩⟩
  · simp [Value.equal_eq_error_iff]
  · exact Value.equal_comm ha.ordered hb.ordered
  · exact Value.equal_trans ha.ordered hb.ordered hc.ordered
  · exact Value.equal_self_iff ha.ordered
  · exact Value.hostEqual_of_equal ha hb

/-- An object with a zero, and with an array that it may share with others. -/
def Value.sharing (i : Stamp) (zero : Float) : Value :=
  .object i [("items", .array 0 [.number 1]), ("zero", .number zero)]

/-- Three objects that share an array; the zero is signed in one of them. -/
def Heap.sharing : Heap
  | 0 => some (.array 0 [.number 1])
  | 1 => some (.sharing 1 0)
  | 2 => some (.sharing 2 (-0))
  | 3 => some (.sharing 3 0)
  | _ => none

theorem sharing_objects_are_equal :
    (Value.sharing 1 0).equal (.sharing 3 0) = .ok true ∧ Value.hostEqual (.sharing 1 0) (.sharing 2 (-0)) := by
  have array : (Value.array 0 [.number 1]).Fits Heap.sharing :=
    .array rfl (List.forall_mem_singleton.2 (.plain trivial))
  have object {i : Stamp} {x : Float} (made : Heap.sharing i = some (.sharing i x)) :
      (Value.sharing i x).Fits Heap.sharing := by
    have ordered : "items" < "zero" := String.lt_iff_toList_lt.2 (by decide)
    refine .object made (by simpa [Properties.Ordered] using ordered) (List.forall_mem_cons.2 ⟨array, ?_⟩)
    exact List.forall_mem_singleton.2 (.plain trivial)
  obtain ⟨-, -, transitive, -, refines⟩ := equality_refines_host_equality.2 Heap.sharing _ _ _
    (object (i := 1) rfl) (object (i := 2) rfl) (object (i := 3) rfl)
  have free : ¬(Value.sharing 1 0).ContainsNaN := by
    simp only [Value.sharing, Value.containsNaN_object_iff, Value.containsNaN_array_iff,
      Value.containsNaN_number_iff, List.mem_cons, List.not_mem_nil, or_false, exists_eq_or_imp, exists_eq_left]
    decide
  exact ⟨transitive rfl rfl, refines rfl free⟩

end ScriptLang
