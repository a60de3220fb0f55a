/-
# ScriptLang.Proofs.MemberAssignment — which container a member assignment changes.

An assignment to a member of a variable makes a copy of a container with one member replaced and binds
the variable to the copy.  Three things happen before: the container is read from the variable, the value
is evaluated, the key or index is evaluated, in this order.  The copy is made of the container that was
read first.  So what the value or the index do to the variable on their way is overwritten, and nothing is
lost exactly when the container that the variable is bound to at the end of these evaluations agrees,
apart from the replaced member, with the one that was read.
-/
import ScriptLang.Eval
import ScriptLang.Proofs.Run
import ScriptLang.Proofs.Scope.Lookup

namespace ScriptLang

/-! ## Containers that differ in one member -/

/-- A member of a container: a key of an object, or a place in an array. -/
inductive MemberName where
  | key (k : String)
  | place (a : Nat)

namespace Value

/-- `old.Replaces name v new`: the container `new` is `old` with the member `name` replaced by `v`.  An
object may gain the key; an array has the place already. -/
inductive Replaces : Value → MemberName → Value → Value → Prop
  | key {i j : Stamp} {k : String} {v : Value} {ps qs : Properties} (now : Properties.get? k qs = some v)
      (others : ∀ l, l ≠ k → Properties.get? l qs = Properties.get? l ps) :
      Replaces (.object i ps) (.key k) v (.object j qs)
  | place {i j : Stamp} {a : Nat} {v : Value} {vs ws : List Value} (bound : a < vs.length)
      (now : ws = vs.set a v) : Replaces (.array i vs) (.place a) v (.array j ws)

/-- The member of a container under a name. -/
def member? : MemberName → Value → Option Value
  | .key k, .object _ ps => Properties.get? k ps
  | .place a, .array _ vs => vs[a]?
  | _, _ => none

/-- Two containers of one kind that have the same members, but perhaps for one. -/
def AgreesOff : MemberName → Value → Value → Prop
  | .key k, .object _ ps, .object _ qs => ∀ l, l ≠ k → Properties.get? l ps = Properties.get? l qs
  | .place a, .array _ vs, .array _ ws => vs.length = ws.length ∧ ∀ b, b ≠ a → vs[b]? = ws[b]?
  | _, _, _ => False

theorem set_eq_set_iff {α : Type} {vs ws : List α} {a : Nat} {v : α} (bound : a < ws.length) :
    (a < vs.length ∧ ws.set a v = vs.set a v) ↔
      vs.length = ws.length ∧ ∀ b, b ≠ a → vs[b]? = ws[b]? := by
  constructor
  · rintro ⟨-, same⟩
    refine ⟨by simpa using (congrArg List.length same).symm, fun b hb => ?_⟩
    have at_b := congrArg (·[b]?) same
    simpa [List.getElem?_set_ne hb.symm] using at_b.symm
  · rintro ⟨lengths, others⟩
    refine ⟨lengths ▸ bound, ?_⟩
    apply List.ext_getElem?
    intro b
    by_cases hb : b = a
    · subst hb
      simp [bound, lengths]
    · simp [List.getElem?_set_ne (Ne.symm hb), others b hb]

/-- A replacement in one container is the same replacement in another exactly where the two agree apart
from the replaced member. -/
theorem Replaces.iff_agreesOff {read v updated : Value} {name : MemberName}
    (h : read.Replaces name v updated) (current : Value) :
    current.Replaces name v updated ↔ current.AgreesOff name read := by
  cases h with
  | key now others =>
    constructor
    · rintro ⟨-, others'⟩
      intro l hl
      rw [← others' l hl, others l hl]
    · intro agrees
      cases current with
      | object i rs => exact .key now fun l hl => (others l hl).trans (agrees l hl).symm
      | _ => exact agrees.elim
  | place bound now =>
    subst now
    constructor
    · rintro ⟨⟩
      next bound' now => exact (set_eq_set_iff bound).1 ⟨bound', now⟩
    · intro agrees
      cases current with
      | array i rs =>
        obtain ⟨bound', now⟩ := (set_eq_set_iff bound).2 agrees
        exact .place bound' now
      | _ => exact agrees.elim

end Value

/-! ## The place that is written to -/

theorem placeOf_lt {i : Int} {length a : Nat} {strict : Bool} (h : placeOf i length strict = .ok (some a)) :
    a < length := by
  unfold placeOf at h
  split at h
  · cases h
    omega
  · split at h
    · cases h
    · split at h
      · cases h
      · next empty =>
        cases h
        have below : i % length < length := Int.emod_lt_of_pos i (by omega)
        omega

/-- An index that stands for a place stands for one that the array has. -/
theorem elementPosition_lt {index : Value} {length a : Nat} {strict : Bool}
    (h : elementPosition index length strict = .ok (some a)) : a < length := by
  unfold elementPosition at h
  split at h
  · split at h
    · exact placeOf_lt h
    · cases h
  · cases h

namespace Eval

/-- From the machine `m` the key or index of a member expression is evaluated, with the machine `n` after
it; of the container `read` it names the member `name`. -/
inductive NamesMember (self : Evaluator) (property : Expr) (computed strict : Bool) (span : Span) :
    Value → Machine → MemberName → Machine → Prop
  | key {i : Stamp} {ps : Properties} {m n : Machine} {k : String}
      (h : propertyKey self property computed strict m = .ok k n) :
      NamesMember self property computed strict span (.object i ps) m (.key k) n
  | place {i : Stamp} {vs : List Value} {m n : Machine} {a : Nat} (bracketed : computed = true)
      (h : elementPlace self property vs.length strict span m = .ok (some a) n) :
      NamesMember self property computed strict span (.array i vs) m (.place a) n

variable {self : Evaluator} {property : Expr} {computed strict : Bool} {span : Span}

theorem elementPlace_lt {index : Expr} {length a : Nat} {m n : Machine}
    (h : elementPlace self index length strict span m = .ok (some a) n) : a < length := by
  obtain ⟨v, k, -, h⟩ := Run.bind_eq_ok.1 h
  exact elementPosition_lt (Run.settle_eq_ok.1 h).1

/-- Making the changed copy evaluates the key or index and takes one stamp.  In strict mode the member has been
there before. -/
theorem withMember_eq_ok {read v updated : Value} {m n : Machine}
    (h : withMember self read property computed v strict span m = .ok updated n) :
    ∃ name k, NamesMember self property computed strict span read m name k ∧
      read.Replaces name v updated ∧ (strict → (read.member? name).isSome) ∧
      n = { k with stamps := k.stamps + 1 } := by
  unfold withMember at h
  split at h
  · obtain ⟨key, k, named, h⟩ := Run.bind_eq_ok.1 h
    split at h
    · cases h
    · next accepted =>
      cases h
      refine ⟨.key key, k, .key named, .key ?_ ?_, fun isStrict => ?_, rfl⟩
      · rw [Properties.get?_insert, if_pos rfl]
      · intro l hl
        rw [Properties.get?_insert, if_neg hl]
      · simpa [isStrict, Properties.has, Value.member?, Option.isSome_iff_ne_none] using accepted
  · split at h
    · next bracketed =>
      obtain ⟨place, k, named, h⟩ := Run.bind_eq_ok.1 h
      cases place with
      | none => cases h
      | some a =>
        cases h
        have bound := elementPlace_lt named
        exact ⟨.place a, k, .place bracketed named, .place bound rfl, fun _ => by simp [Value.member?, bound], rfl⟩
    · cases h
  · cases h

/-- An assignment to a member that succeeds: what it reads, evaluates, names and writes, in this order. -/
theorem assign_member_eq_ok {n : Nat} {m after : Machine} {out : Value} {s t : Span} {x : String} {e : Expr}
    (h : evalExpression (n + 1) (.assign span (.member s (.identifier t x) property computed) e) strict m =
      .ok out after) :
    ∃ (read v : Value) (m₁ : Machine) (name : MemberName) (m₂ : Machine) (updated : Value) (owner : ScopeId),
      m.scopes.value m.frame.scope x = .ok read ∧
      evalExpression n e strict m = .ok v m₁ ∧
      NamesMember (.bounded n) property computed strict span read m₁ name m₂ ∧
      (strict → (read.member? name).isSome) ∧ read.Replaces name v updated ∧
      m₂.scopes.writable m₂.frame.scope x = .ok owner ∧ out = .null ∧
      after = { m₂ with scopes := m₂.scopes.setValue owner x updated, stamps := m₂.stamps + 1 } := by
  obtain ⟨read, _, looked, h₁⟩ := Run.bind_eq_ok.1 h
  obtain ⟨found, rfl⟩ := Run.lookup_eq_ok.1 looked
  obtain ⟨v, m₁, evaluated, h₂⟩ := Run.bind_eq_ok.1 h₁
  obtain ⟨updated, _, copied, h₃⟩ := Run.bind_eq_ok.1 h₂
  obtain ⟨name, m₂, named, replaced, there, rfl⟩ := withMember_eq_ok copied
  obtain ⟨_, _, written, h₄⟩ := Run.bind_eq_ok.1 h₃
  obtain ⟨owner, writable, rfl⟩ := Run.reassign_eq_ok written
  cases h₄
  -- taking the stamp of the copy left the scopes and the frame as they were
  exact ⟨read, v, m₁, name, m₂, updated, owner, found, evaluated, named, there, replaced, writable, rfl, rfl⟩

end Eval

/-! ## The assignment -/

/-- An assignment `x.k = e` or `x[i] = e` that succeeds.  It reads the container of `x`, then evaluates
`e`, then the key or index, and after that changes nothing but `x`, which is bound to a copy of the
container that was read with the one member replaced by the value of `e`.  This copy is a copy of the
container that `x` is bound to by then, with the one member replaced, exactly if that container agrees
with the one that was read apart from the member. -/
theorem memberAssignment_copies_container_read_first {n : Nat} {m after : Machine} {out : Value}
    {strict computed : Bool} {span s t : Span} {x : String} {property e : Expr}
    (h : evalExpression (n + 1) (.assign span (.member s (.identifier t x) property computed) e) strict m =
      .ok out after) :
    ∃ (read v : Value) (m₁ : Machine) (name : MemberName) (m₂ : Machine) (current updated : Value)
      (owner : ScopeId),
      m.scopes.value m.frame.scope x = .ok read ∧
      evalExpression n e strict m = .ok v m₁ ∧
      Eval.NamesMember (.bounded n) property computed strict span read m₁ name m₂ ∧
      m₂.scopes.value m₂.frame.scope x = .ok current ∧
      m₂.scopes.writable m₂.frame.scope x = .ok owner ∧
      after = { m₂ with scopes := m₂.scopes.setValue owner x updated, stamps := m₂.stamps + 1 } ∧
      after.scopes.value after.frame.scope x = .ok updated ∧
      read.Replaces name v updated ∧
      (current.Replaces name v updated ↔ current.AgreesOff name read) := by
  obtain ⟨read, v, m₁, name, m₂, updated, owner, found, evaluated, named, -, replaced, writable, -, rfl⟩ :=
    Eval.assign_member_eq_ok h
  obtain ⟨current, present⟩ := Scopes.exists_value_of_writable writable
  have bound := Scopes.value_setValue writable updated
  exact ⟨read, v, m₁, name, m₂, current, updated, owner, found, evaluated, named, present, writable, rfl,
    bound, replaced, replaced.iff_agreesOff current⟩

/-- A variable that is bound to an object, and a function that changes its property `b`. -/
def objectWithTouch : Machine :=
  ((Machine.initial (.closed [] [] 0.0)).run 20
    "let x = \x7ba: \"old\", b: \"old\"\x7d; function touch() \x7bx.b = \"new\"; return \"set\"\x7d").2

/-- The call `touch()`. -/
def touchCall : Expr := .call ⟨1, 7, 5⟩ (.identifier ⟨1, 7, 5⟩ "touch") []

/-- The assignment `x.a = touch()`. -/
def touchedAssignment : Expr :=
  .assign ⟨1, 1, 1⟩ (.member ⟨1, 1, 1⟩ (.identifier ⟨1, 1, 1⟩ "x") (.identifier ⟨1, 3, 1⟩ "a") false)
    touchCall

theorem touchedAssignment_copies_container_read_first :
    ∃ (out : Value) (after : Machine) (read updated : Value) (name : MemberName) (v : Value),
      evalExpression 20 touchedAssignment false objectWithTouch = .ok out after ∧
      objectWithTouch.scopes.value objectWithTouch.frame.scope "x" = .ok read ∧
      read.Replaces name v updated ∧
      after.scopes.value after.frame.scope "x" = .ok updated := by
  have succeeds : Run.succeeds (evalExpression 20 touchedAssignment false) objectWithTouch := by
    decide +kernel
  obtain ⟨out, after, h⟩ := Run.succeeds_iff.1 succeeds
  obtain ⟨read, v, _, name, _, _, updated, _, found, _, _, _, _, _, bound, replaced, _⟩ :=
    memberAssignment_copies_container_read_first h
  exact ⟨out, after, read, updated, name, v, h, found, replaced, bound⟩

/-- What the call does to `b` is gone after the assignment to `a`. -/
theorem touchedAssignment_loses_update :
    ((Run.after (evalExpression 19 touchCall false) objectWithTouch).scopes.value 0 "x").toOption.map
        Value.text = some "\x7b a: \"old\", b: \"new\" \x7d" ∧
      ((Run.after (evalExpression 20 touchedAssignment false) objectWithTouch).scopes.value 0
        "x").toOption.map Value.text = some "\x7b a: \"set\", b: \"old\" \x7d" := by
  decide +kernel

end ScriptLang
