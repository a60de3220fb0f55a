/-
# ScriptLang.Proofs.Scope.Owner — the one scope that a name belongs to.

Seen from a scope, a name belongs to the first scope, going outward, that binds it.  Looking for the owner, reading
the name and giving it a new value come to this scope, and where there is none they fail alike.  A new value is
written into the owner.  Whoever finds the name there sees it, and nobody else sees a difference.
-/
import ScriptLang.Proofs.Scope.Sees

namespace ScriptLang

namespace Scopes

/-- Seen from the scope `t`, the name `x` belongs to the scope `owner`: going outward from `t` one comes to `owner`,
which binds the name, and none before it does. -/
structure Belongs (s : Scopes) (t : ScopeId) (x : String) (owner : ScopeId) : Prop where
  sees : s.Sees owner x t
  binds : s.hasOwn owner x

variable {s s' : Scopes} {t owner : ScopeId} {x : String}

/-! ## Three ways to the owner -/

theorem owner?_eq_some_iff : s.owner? t x = some owner ↔ s.Belongs t x owner := by
  constructor
  · intro found
    refine ⟨?_, own?_of_owner? s found⟩
    induction t using Nat.strongRecOn with
    | ind t ih =>
      rw [owner?_eq] at found
      split at found
      · obtain rfl := Option.some.inj found
        exact .here
      · next free =>
        obtain ⟨p, parent, found⟩ := Option.bind_eq_some_iff.1 found
        exact .outward parent (Bool.eq_false_iff.2 free) (ih p (parent?_lt parent) found)
  · intro belongs
    rw [belongs.sees.owner?_eq, owner?_eq, if_pos belongs.binds]

theorem owner?_eq_none_iff : s.owner? t x = none ↔ ¬∃ owner, s.Belongs t x owner := by
  simp only [← owner?_eq_some_iff, Option.eq_none_iff_forall_ne_some, not_exists, ne_eq]

/-- Looking for the owner asks the scope itself, and else its parent. -/
theorem find_outward (s : Scopes) (t : ScopeId) (x : String) :
    s.find t x = if s.hasOwn t x then .ok t else
      match s.parent? t with
      | some p => s.find p x
      | none => .error (.unboundName x) := by
  rw [find]
  by_cases there : t < s.entries.size
  · have entry := Array.getElem?_eq_getElem there
    have bindings : s.bindings t = s.entries[t].bindings := by simp [bindings, entry]
    have parent : s.parent? t = s.entries[t].parent := by simp [parent?, entry]
    rw [dif_pos there, hasOwn, own?, bindings, parent]
    split
    · rfl
    · split <;> simp [*]
  · have entry := Array.getElem?_eq_none (Nat.le_of_not_lt there)
    rw [dif_neg there]
    simp [hasOwn, own?, bindings, parent?, entry]

/-- It comes to the scope in which a name is read and written. -/
theorem find_eq (s : Scopes) (t : ScopeId) (x : String) :
    s.find t x = match s.owner? t x with
      | some owner => .ok owner
      | none => .error (.unboundName x) := by
  induction t using Nat.strongRecOn with
  | ind t ih =>
    rw [find_outward, owner?_eq]
    split
    · rfl
    · cases parent : s.parent? t with
      | none => rfl
      | some p => exact ih p (parent?_lt parent)

theorem find_eq_ok_iff : s.find t x = .ok owner ↔ s.Belongs t x owner := by
  rw [find_eq, ← owner?_eq_some_iff]
  cases s.owner? t x <;> simp

theorem find_eq_error_iff {fault : RuntimeFault} :
    s.find t x = .error fault ↔ fault = .unboundName x ∧ ¬∃ owner, s.Belongs t x owner := by
  rw [find_eq, ← owner?_eq_none_iff]
  cases s.owner? t x <;> simp [eq_comm]

theorem value_eq_ok_iff_belongs {v : Value} :
    s.value t x = .ok v ↔ ∃ owner, s.Belongs t x owner ∧ s.ownValue? owner x = some v := by
  simp only [value_eq_ok_iff, owner?_eq_some_iff]

theorem value_eq_error_iff {fault : RuntimeFault} :
    s.value t x = .error fault ↔ fault = .unboundName x ∧ ¬∃ owner, s.Belongs t x owner := by
  rw [← owner?_eq_none_iff, value_eq]
  cases found : s.owner? t x with
  | none => simp [eq_comm]
  | some owner =>
    obtain ⟨b, own⟩ := Option.isSome_iff_exists.1 (own?_of_owner? s found)
    simp [ownValue?, own]

theorem writable_eq (s : Scopes) (t : ScopeId) (x : String) :
    s.writable t x = match s.owner? t x with
      | none => .error (.unboundName x)
      | some owner => if s.isConstant owner x then .error (.constantReassign x) else .ok owner := rfl

theorem writable_eq_ok_iff :
    s.writable t x = .ok owner ↔ s.Belongs t x owner ∧ s.isConstant owner x = false := by
  rw [← owner?_eq_some_iff, writable_eq]
  cases s.owner? t x with
  | none => simp
  | some o =>
    simp only [Option.some.injEq]
    by_cases constant : s.isConstant o x
    · rw [if_pos constant]
      simp only [reduceCtorEq, false_iff, not_and, Bool.not_eq_false]
      rintro rfl
      exact constant
    · rw [if_neg constant, Except.ok.injEq, and_iff_left_of_imp]
      rintro rfl
      exact Bool.eq_false_iff.2 constant

theorem writable_eq_error_iff {fault : RuntimeFault} :
    s.writable t x = .error fault ↔
      fault = .unboundName x ∧ (¬∃ owner, s.Belongs t x owner) ∨
      fault = .constantReassign x ∧ ∃ owner, s.Belongs t x owner ∧ s.isConstant owner x := by
  rw [← owner?_eq_none_iff, writable_eq]
  simp only [← owner?_eq_some_iff]
  cases s.owner? t x with
  | none => simp [@eq_comm _ fault]
  | some o => by_cases constant : s.isConstant o x <;> simp [constant, @eq_comm _ fault]

/-! ## What a new value changes -/

theorem isConstant_setValue (s : Scopes) (owner id : ScopeId) (x y : String) (v : Value) :
    (s.setValue owner x v).isConstant id y = s.isConstant id y := by
  unfold isConstant
  rcases own?_setValue s owner id x y v with same | ⟨-, -, changed⟩
  · rw [same]
  · rw [changed, Option.map_map]
    rfl

theorem belongs_setValue {id o : ScopeId} {y : String} (v : Value) :
    (s.setValue owner x v).Belongs id y o ↔ s.Belongs id y o := by
  rw [← owner?_eq_some_iff, ← owner?_eq_some_iff, owner?_setValue]

/-- From `s` to `s'` the name `x` of the scope `owner` is given the value `v`.  Who finds the name there finds this
value, and every other reading ends as before.  The scopes keep their parents, their names, which of them are
constant, and so who finds which name where. -/
structure Rewrites (s : Scopes) (owner : ScopeId) (x : String) (v : Value) (s' : Scopes) : Prop where
  seen : ∀ id, s.Belongs id x owner → s'.value id x = .ok v
  unseen : ∀ id y, ¬(y = x ∧ s.Belongs id y owner) → s'.value id y = s.value id y
  names : ∀ id y, s'.hasOwn id y = s.hasOwn id y
  constants : ∀ id y, s'.isConstant id y = s.isConstant id y
  bindings : ∀ id y, ¬(id = owner ∧ y = x) → s'.own? id y = s.own? id y
  owners : ∀ id y o, s'.Belongs id y o ↔ s.Belongs id y o
  size : s'.size = s.size
  parents : ∀ id, s'.parent? id = s.parent? id

theorem rewrites_setValue (s : Scopes) (owner : ScopeId) (x : String) (v : Value) :
    s.Rewrites owner x v (s.setValue owner x v) where
  seen _ belongs := value_setValue_of_owner (owner?_eq_some_iff.2 belongs) v
  unseen _ _ other := value_setValue_of_ne (fun found same => other ⟨same, owner?_eq_some_iff.1 found⟩) v
  names _ _ := hasOwn_setValue _ _ _ _ _ _
  constants _ _ := isConstant_setValue _ _ _ _ _ _
  bindings _ _ other := own?_setValue_of_ne (fun there named => other ⟨there, named⟩) v
  owners _ _ _ := belongs_setValue v
  size := size_setValue _ _ _ _
  parents _ := parent?_update _ _ _ _

theorem reassign_eq_ok_iff {v : Value} :
    s.reassign t x v = .ok s' ↔
      ∃ owner, s.Belongs t x owner ∧ s.isConstant owner x = false ∧ s' = s.setValue owner x v := by
  rw [reassign]
  cases target : s.writable t x with
  | error fault =>
    simp only [Except.map, reduceCtorEq, false_iff]
    rintro ⟨owner, belongs, constant, -⟩
    cases target.symm.trans (writable_eq_ok_iff.2 ⟨belongs, constant⟩)
  | ok o =>
    have belongs := writable_eq_ok_iff.1 target
    simp only [Except.map, Except.ok.injEq]
    constructor
    · rintro rfl
      exact ⟨o, belongs.1, belongs.2, rfl⟩
    · rintro ⟨owner, found, constant, rfl⟩
      obtain rfl := Except.ok.inj (target.symm.trans (writable_eq_ok_iff.2 ⟨found, constant⟩))
      rfl

theorem reassign_eq_error_iff {v : Value} {fault : RuntimeFault} :
    s.reassign t x v = .error fault ↔ s.writable t x = .error fault := by
  rw [reassign]
  cases s.writable t x <;> simp [Except.map]

end Scopes

/-- A program gives a name a new value as the scopes do; if that fails, the machine is as it was. -/
theorem Run.reassign_run (x : String) (v : Value) (span : Span) (m : Machine) :
    Run.reassign x v span m = match m.scopes.reassign m.frame.scope x v with
      | .ok s' => .ok v { m with scopes := s' }
      | .error fault => .error (.raised ⟨span, fault⟩) m := by
  unfold Run.reassign Scopes.reassign
  cases m.scopes.writable m.frame.scope x <;> rfl

/-- In all scopes, from each of them, for every name and value.

Finding the owner, reading and writing come to one scope, the one that the name belongs to; writing asks in
addition that the name is not constant there.  Where there is none all three fail, and with the same fault, and
they fail in no other way but for a constant that is written.

A new value is seen by those who find the name in that scope and by nobody else, under no other name, and it
changes neither the names nor the constants of any scope.  A program that fails to write leaves all scopes as they
were. -/
theorem reading_and_writing_share_owner (s : Scopes) (t : ScopeId) (x : String) (v : Value) :
    (∀ owner, s.find t x = .ok owner ↔ s.Belongs t x owner) ∧
    (∀ w, s.value t x = .ok w ↔ ∃ owner, s.Belongs t x owner ∧ s.ownValue? owner x = some w) ∧
    (∀ s', s.reassign t x v = .ok s' ↔
      ∃ owner, s.Belongs t x owner ∧ s.isConstant owner x = false ∧ s' = s.setValue owner x v) ∧
    (∀ owner, s.Belongs t x owner → (∃ w, s.value t x = .ok w) ∧ ∀ o, s.Belongs t x o → o = owner) ∧
    (∀ fault, s.find t x = .error fault ↔ fault = .unboundName x ∧ ¬∃ owner, s.Belongs t x owner) ∧
    (∀ fault, s.value t x = .error fault ↔ fault = .unboundName x ∧ ¬∃ owner, s.Belongs t x owner) ∧
    (∀ fault, s.reassign t x v = .error fault ↔
      fault = .unboundName x ∧ (¬∃ owner, s.Belongs t x owner) ∨
      fault = .constantReassign x ∧ ∃ owner, s.Belongs t x owner ∧ s.isConstant owner x) ∧
    (∀ s' owner, s.reassign t x v = .ok s' → s.find t x = .ok owner → s.Rewrites owner x v s') ∧
    ∀ m span halt k, m.scopes = s → Run.reassign x v span m = .error halt k →
      k = m ∧ ∃ fault, halt = .raised ⟨span, fault⟩ ∧ s.reassign m.frame.scope x v = .error fault := by
  refine ⟨fun _ => Scopes.find_eq_ok_iff, fun _ => Scopes.value_eq_ok_iff_belongs,
    fun _ => Scopes.reassign_eq_ok_iff, fun owner belongs => ⟨?_, fun o found => ?_⟩,
    fun _ => Scopes.find_eq_error_iff, fun _ => Scopes.value_eq_error_iff,
    fun _ => Scopes.reassign_eq_error_iff.trans Scopes.writable_eq_error_iff,
    fun s' owner written found => ?_, fun m span halt k same failed => ?_⟩
  · cases read : s.value t x with
    | ok w => exact ⟨w, rfl⟩
    | error fault => exact absurd ⟨owner, belongs⟩ (Scopes.value_eq_error_iff.1 read).2
  · exact Except.ok.inj ((Scopes.find_eq_ok_iff.2 found).symm.trans (Scopes.find_eq_ok_iff.2 belongs))
  · obtain ⟨o, belongs, -, rfl⟩ := Scopes.reassign_eq_ok_iff.1 written
    obtain rfl := Except.ok.inj ((Scopes.find_eq_ok_iff.2 belongs).symm.trans found)
    exact s.rewrites_setValue o x v
  · subst same
    rw [Run.reassign_run] at failed
    cases outcome : m.scopes.reassign m.frame.scope x v with
    | ok s' => simp [outcome] at failed
    | error fault =>
      rw [outcome] at failed
      cases failed
      exact ⟨rfl, fault, rfl, rfl⟩

end ScriptLang
