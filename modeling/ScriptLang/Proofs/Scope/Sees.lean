/-
# ScriptLang.Proofs.Scope.Sees — scopes that see a name as another scope does.

A scope sees a name as an outer scope does when the name is bound nowhere on the way from the one to the other.
Then the name has one owner for both, and so one value, and both may give it a new value or neither may.  This
lasts as long as no code binds the name on that way.
-/
import ScriptLang.Proofs.Isolation
import ScriptLang.Proofs.Scope.Lookup

namespace ScriptLang

namespace Scopes

/-- Going outward from a scope one comes to the scope `outer`, and none on the way binds the name `x`. -/
inductive Sees (s : Scopes) (outer : ScopeId) (x : String) : ScopeId → Prop
  | here : Sees s outer x outer
  | outward {t p : ScopeId} (parent : s.parent? t = some p) (free : s.hasOwn t x = false)
      (rest : Sees s outer x p) : Sees s outer x t

namespace Sees

variable {s s' : Scopes} {outer t : ScopeId} {x : String}

theorem outer_le (h : s.Sees outer x t) : outer ≤ t := by
  induction h with
  | here => exact Nat.le_refl _
  | outward parent _ _ ih => exact Nat.le_trans ih (Nat.le_of_lt (parent?_lt parent))

theorem owner?_eq (h : s.Sees outer x t) : s.owner? t x = s.owner? outer x := by
  induction h with
  | here => rfl
  | @outward t p parent free _ ih =>
    have bound : ¬ s.hasOwn t x := by simp [free]
    rw [Scopes.owner?_eq s t, if_neg bound, parent, Option.bind_some, ih]

theorem value_eq (h : s.Sees outer x t) : s.value t x = s.value outer x := by
  rw [value, value, h.owner?_eq]

theorem writable_eq (h : s.Sees outer x t) : s.writable t x = s.writable outer x := by
  rw [writable, writable, h.owner?_eq]

/-- It is enough that the scopes on the way keep their parents and still do not bind the name. -/
theorem keeps (h : s.Sees outer x t) (same : ∀ id, outer < id → s.Sees id x t →
    s'.parent? id = s.parent? id ∧ s'.hasOwn id x = s.hasOwn id x) : s'.Sees outer x t := by
  induction h with
  | here => exact .here
  | @outward t p parent free rest ih =>
    obtain ⟨parents, own⟩ := same t (Nat.lt_of_le_of_lt rest.outer_le (parent?_lt parent)) .here
    refine .outward (parents.trans parent) (own.trans free) (ih fun id younger between => ?_)
    exact same id younger (.outward parent free between)

theorem bind (h : s.Sees outer x t) {name : String} (other : x ≠ name) (id : ScopeId) (v : Value)
    (constant : Bool) : (s.bind id name v constant).Sees outer x t :=
  h.keeps fun i _ _ => ⟨parent?_update _ _ _ _, by simp only [hasOwn, own?_bind_of_name_ne s id i other]⟩

theorem beginPass (h : s.Sees outer x t) (id : ScopeId) : (s.beginPass id).Sees outer x t :=
  h.keeps fun i _ _ => ⟨parent?_update _ _ _ _, hasOwn_beginPass s id i x⟩

theorem push (h : s.Sees outer x t) (there : t < s.size) (parent : Option ScopeId) :
    (s.push parent).Sees outer x t := by
  refine h.keeps fun id _ between => ⟨?_, by simp only [hasOwn, own?_push]⟩
  rw [parent?_push, if_neg (Nat.ne_of_lt (Nat.lt_of_le_of_lt between.outer_le there))]

/-- A new scope sees every name as the one around it does. -/
theorem enter (h : s.Sees outer x t) (there : t < s.size) : (s.push (some t)).Sees outer x s.size := by
  refine .outward (p := t) ?_ ?_ (h.push there _)
  · simp [parent?_push, there]
  · simp only [hasOwn, own?_push_size, Option.isSome_none]

/-- Along the path of a run the scopes on the way keep their parents, and the name is bound on the way only where
the code of the run stands there and declares it. -/
theorem path {base : Nat} {here : ScopeId} {names : List String} (h : s.Sees outer x t)
    (path : Path base here names s s') (size : base ≤ s.size) (there : t < base)
    (free : outer < here → s.Sees here x t → x ∉ names) : s'.Sees outer x t := by
  refine h.keeps fun id younger between => ?_
  obtain ⟨kept, elsewhere⟩ := path.keeps size (Nat.lt_of_le_of_lt between.outer_le there)
  by_cases stands : id = here
  · subst stands
    exact ⟨kept.parent, kept.own x (free younger between)⟩
  · exact ⟨kept.parent, (elsewhere stands).own x List.not_mem_nil⟩

end Sees

end Scopes

/-- A run leaves a scope that sees a name as an outer one does so, if its code does not declare the name on the
way between them. -/
theorem Run.Stays.sees {α : Type} {names : List String} {y : Run α} {m : Machine} {outer t : ScopeId} {x : String}
    (h : y.Stays m.scopes.size m.frame.scope names) (sees : m.scopes.Sees outer x t) (there : t < m.scopes.size)
    (free : outer < m.frame.scope → m.scopes.Sees m.frame.scope x t → x ∉ names) :
    (y.after m).scopes.Sees outer x t :=
  sees.path (h m rfl (Nat.le_refl _)).2 (Nat.le_refl _) there free

/-- The scope in which a machine looks names up is there, and it sees a name as an outer scope does. -/
structure Machine.Sees (m : Machine) (outer : ScopeId) (x : String) : Prop where
  sees : m.scopes.Sees outer x m.frame.scope
  there : m.frame.scope < m.scopes.size

namespace Machine.Sees

variable {m k : Machine} {outer : ScopeId} {x : String}

/-- Behind a run that does not declare the name where it stands, and that may declare anything in the scopes from
`base` on, which are younger. -/
theorem afterFrom {α : Type} {base : Nat} {names : List String} {y : Run α} {a : α} (h : m.Sees outer x)
    (older : m.frame.scope < base) (size : base ≤ m.scopes.size) (stays : y.Stays base m.frame.scope names)
    (ran : y m = .ok a k) (free : x ∉ names) : k.Sees outer x := by
  obtain ⟨frame, path⟩ := stays.of_ok ran rfl size
  refine ⟨?_, ?_⟩
  · rw [frame]
    exact h.sees.path path size older fun _ _ => free
  · rw [frame]
    exact Nat.lt_of_lt_of_le h.there path.size_le

theorem after {α : Type} {names : List String} {y : Run α} {a : α} (h : m.Sees outer x)
    (stays : y.Stays m.scopes.size m.frame.scope names) (ran : y m = .ok a k) (free : x ∉ names) :
    k.Sees outer x :=
  h.afterFrom h.there (Nat.le_refl _) stays ran free

end Machine.Sees

end ScriptLang
