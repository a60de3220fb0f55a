/-
# ScriptLang.Proofs.Scope.Path — what can become of the scopes while code runs.

A run changes the scopes one step at a time, and there are five kinds of step: a new scope, a declaration
in the scope that the code stands in, a declaration in a scope that is younger than the run, a new value
for a name that is not constant, and another pass of a loop in a scope that is younger than the run.  A
path is any number of such steps.

From the kinds of step follows what a scope that was there before keeps along every path: its parent and
its names, and, but for the names that the code declares where it stands, which of them are constant and
what the constants are bound to.
-/
import ScriptLang.Scope
import Mathlib.Logic.Relation

namespace ScriptLang

namespace Scopes

/-! ## The binding of a name after an operation -/

/-- Is a name constant in the scope itself? -/
def isConstant (s : Scopes) (id : ScopeId) (name : String) : Bool :=
  ((s.own? id name).map Binding.constant).getD false

/-- The value that the scope itself gives a name. -/
def ownValue? (s : Scopes) (id : ScopeId) (name : String) : Option Value :=
  (s.own? id name).map Binding.value

theorem bindings_update_of_ne (s : Scopes) {id other : ScopeId} (h : other ≠ id)
    (f : Bindings → Bindings) : (s.update id f).bindings other = s.bindings other := by
  simp only [bindings, update, Array.getElem?_modify, if_neg (Ne.symm h)]

/-- A scope that is not there is not changed. -/
theorem bindings_update_of_le (s : Scopes) {id : ScopeId} (h : s.size ≤ id) (other : ScopeId)
    (f : Bindings → Bindings) : (s.update id f).bindings other = s.bindings other := by
  by_cases he : other = id
  · subst he
    have hn : s.entries[other]? = none := Array.getElem?_eq_none h
    simp only [bindings, update, Array.getElem?_modify, if_pos, hn, Option.map_none]
  · exact bindings_update_of_ne s he f

@[simp] theorem size_bind (s : Scopes) (id : ScopeId) (name : String) (v : Value) (constant : Bool) :
    (s.bind id name v constant).size = s.size := size_update _ _ _

@[simp] theorem size_setValue (s : Scopes) (id : ScopeId) (name : String) (v : Value) :
    (s.setValue id name v).size = s.size := size_update _ _ _

@[simp] theorem size_beginPass (s : Scopes) (id : ScopeId) : (s.beginPass id).size = s.size :=
  size_update _ _ _

theorem own?_bind_of_ne (s : Scopes) {id other : ScopeId} (h : other ≠ id) (name x : String) (v : Value)
    (constant : Bool) : (s.bind id name v constant).own? other x = s.own? other x := by
  unfold own? bind
  rw [bindings_update_of_ne s h]

/-- A declaration leaves the other names of its scope as they are. -/
theorem own?_bind_of_name_ne (s : Scopes) (id other : ScopeId) {name x : String} (h : x ≠ name)
    (v : Value) (constant : Bool) : (s.bind id name v constant).own? other x = s.own? other x := by
  by_cases hlt : id < s.size
  · unfold own? bind
    rw [bindings_update s id other _ hlt]
    split
    · next he => rw [he, Bindings.get?_set, if_neg h]
    · rfl
  · unfold own? bind
    rw [bindings_update_of_le s (Nat.not_lt.1 hlt)]

theorem own?_bind_self (s : Scopes) {id : ScopeId} (h : id < s.size) (name : String) (v : Value)
    (constant : Bool) : (s.bind id name v constant).own? id name = some ⟨v, constant, false⟩ := by
  unfold own? bind
  rw [bindings_update s id id _ h, if_pos rfl, Bindings.get?_set, if_pos rfl]

theorem own?_setValue (s : Scopes) (id other : ScopeId) (name x : String) (v : Value) :
    (s.setValue id name v).own? other x = s.own? other x ∨
      (other = id ∧ x = name ∧
        (s.setValue id name v).own? other x = (s.own? other x).map (fun b => { b with value := v })) := by
  by_cases hlt : id < s.size
  · unfold own? setValue
    rw [bindings_update s id other _ hlt]
    split
    · next he =>
      subst he
      rw [Bindings.get?_setValue]
      split
      · next hx => exact .inr ⟨rfl, hx, rfl⟩
      · exact .inl rfl
    · exact .inl rfl
  · unfold own? setValue
    rw [bindings_update_of_le s (Nat.not_lt.1 hlt)]
    exact .inl rfl

theorem own?_beginPass_of_ne (s : Scopes) {id other : ScopeId} (h : other ≠ id) (x : String) :
    (s.beginPass id).own? other x = s.own? other x := by
  unfold own? beginPass
  rw [bindings_update_of_ne s h]

/-- Another pass takes no name away and brings none. -/
theorem hasOwn_beginPass (s : Scopes) (id other : ScopeId) (x : String) :
    (s.beginPass id).hasOwn other x = s.hasOwn other x := by
  unfold hasOwn own? beginPass
  by_cases hlt : id < s.size
  · rw [bindings_update s id other _ hlt]
    split
    · next same => rw [same, Bindings.get?_carry, Option.isSome_map]
    · rfl
  · rw [bindings_update_of_le s (Nat.not_lt.1 hlt)]

@[simp] theorem own?_push (s : Scopes) (parent : Option ScopeId) (id : ScopeId) (x : String) :
    (s.push parent).own? id x = s.own? id x := by
  unfold own?
  rw [bindings_push]

/-- A new scope binds nothing. -/
theorem own?_push_size (s : Scopes) (parent : Option ScopeId) (x : String) :
    (s.push parent).own? s.size x = none := by
  rw [own?_push, own?, bindings, size, Array.getElem?_eq_none (Nat.le_refl _)]
  rfl

/-- The scope that a name belongs to is there and binds it. -/
theorem own?_of_owner? (s : Scopes) {id owner : ScopeId} {name : String}
    (h : s.owner? id name = some owner) : (s.own? owner name).isSome := by
  induction id using Nat.strongRecOn with
  | ind id ih =>
    -- the scopes outwards from `id`, each older than the one before
    unfold owner? at h
    split at h
    · next hlt =>
      split at h
      · next hs =>
        obtain rfl := Option.some.inj h
        have he := Array.getElem?_eq_getElem hlt
        simpa [own?, bindings, he] using hs
      · split at h
        · cases h
        · next p hp => exact ih p (s.parent_lt id hlt p hp) h
    · cases h

/-- A name that can be given a new value is bound, and not constant. -/
theorem own?_of_writable (s : Scopes) {id owner : ScopeId} {name : String}
    (h : s.writable id name = .ok owner) :
    ∃ b, s.own? owner name = some b ∧ b.constant = false := by
  unfold writable at h
  split at h
  · cases h
  · next o ho =>
    split at h
    · cases h
    · next hc =>
      cases h
      obtain ⟨b, hb⟩ := Option.isSome_iff_exists.1 (own?_of_owner? s ho)
      refine ⟨b, hb, ?_⟩
      simpa [hb] using hc

end Scopes

/-! ## Steps and paths -/

/-- One step of a run whose code stands in the scope `here` and declares the names `names` there, where
`base` is the number of scopes that were there when the run began. -/
inductive Scopes.Step (base : Nat) (here : ScopeId) (names : List String) : Scopes → Scopes → Prop
  | enter (s : Scopes) (parent : ScopeId) : Step base here names s (s.push (some parent))
  | declareHere (s : Scopes) {name : String} (h : name ∈ names) (v : Value) (constant : Bool) :
      Step base here names s (s.bind here name v constant)
  | declareWithin (s : Scopes) {id : ScopeId} (h : base ≤ id) (name : String) (v : Value)
      (constant : Bool) : Step base here names s (s.bind id name v constant)
  | reassign (s : Scopes) {from_ owner : ScopeId} {name : String}
      (h : s.writable from_ name = .ok owner) (v : Value) :
      Step base here names s (s.setValue owner name v)
  | beginPass (s : Scopes) {id : ScopeId} (h : base ≤ id) :
      Step base here names s (s.beginPass id)

/-- Any number of steps. -/
abbrev Scopes.Path (base : Nat) (here : ScopeId) (names : List String) : Scopes → Scopes → Prop :=
  Relation.ReflTransGen (Scopes.Step base here names)

/-- What a scope keeps while the names `names` may be declared in it: its parent and its names, and of
all other names which are its own, which are constant, and the values of the constants. -/
structure Scopes.Keeps (names : List String) (before after : Scopes) (id : ScopeId) : Prop where
  parent : after.parent? id = before.parent? id
  grows : ∀ x, before.hasOwn id x → after.hasOwn id x
  own : ∀ x, x ∉ names → after.hasOwn id x = before.hasOwn id x
  constant : ∀ x, x ∉ names → after.isConstant id x = before.isConstant id x
  value : ∀ x, x ∉ names → before.isConstant id x → after.ownValue? id x = before.ownValue? id x

namespace Scopes

variable {base : Nat} {here : ScopeId} {names : List String} {s s' : Scopes}

/-! ### What one step does -/

theorem Step.size_le (h : Step base here names s s') : s.size ≤ s'.size := by
  cases h <;> simp

/-- A scope that is there keeps its parent. -/
theorem Step.parent?_eq (h : Step base here names s s') {id : ScopeId} (hid : id < s.size) :
    s'.parent? id = s.parent? id := by
  cases h with
  | enter parent => rw [parent?_push, if_neg (Nat.ne_of_lt hid)]
  | _ => exact parent?_update _ _ _ _

/-- A step in the scope `inner`, which is younger than the run, is a step of the run. -/
theorem Step.outward {inner : ScopeId} {names' : List String} (h : Step base inner names s s')
    (hb : base ≤ inner) : Step base here names' s s' := by
  cases h with
  | enter parent => exact .enter s parent
  | declareHere hn v constant => exact .declareWithin s hb _ v constant
  | declareWithin hid name v constant => exact .declareWithin s hid name v constant
  | reassign hw v => exact .reassign s hw v
  | beginPass hid => exact .beginPass s hid

theorem Step.mono {names' : List String} (h : Step base here names s s') (hn : names ⊆ names') :
    Step base here names' s s' := by
  cases h with
  | enter parent => exact .enter s parent
  | declareHere hm v constant => exact .declareHere s (hn hm) v constant
  | declareWithin hid name v constant => exact .declareWithin s hid name v constant
  | reassign hw v => exact .reassign s hw v
  | beginPass hid => exact .beginPass s hid

/-- A step leaves a scope that was there before the run as ready as it was to have a name declared in it, but
for the names that are declared. -/
theorem Step.refuses_eq (h : Step base here names s s') {id : ScopeId} (hid : id < base) {x : String}
    (hx : x ∉ names) (strict : Bool) : s'.refuses id x strict = s.refuses id x strict := by
  unfold refuses
  cases h with
  | enter parent => rw [own?_push]
  | @declareHere name hm v constant =>
    have other : x ≠ name := fun he => hx (he ▸ hm)
    rw [own?_bind_of_name_ne s here id other]
  | declareWithin hb name v constant => rw [own?_bind_of_ne s (Nat.ne_of_lt (Nat.lt_of_lt_of_le hid hb))]
  | @reassign viewer owner name hw v =>
    rcases own?_setValue s owner id name x v with he | ⟨-, -, he⟩
    · rw [he]
    · rw [he]
      cases s.own? id x <;> rfl
  | beginPass hb => rw [own?_beginPass_of_ne s (Nat.ne_of_lt (Nat.lt_of_lt_of_le hid hb))]

/-- What is the same about the bindings of a scope is kept. -/
theorem Keeps.of_own?_eq {id : ScopeId} (hp : s'.parent? id = s.parent? id)
    (h : ∀ x, s'.own? id x = s.own? id x) : Keeps names s s' id where
  parent := hp
  grows x hx := by simpa only [hasOwn, h] using hx
  own x _ := by simp only [hasOwn, h]
  constant x _ := by simp only [isConstant, h]
  value x _ _ := by simp only [ownValue?, h]

theorem Keeps.refl (names : List String) (s : Scopes) (id : ScopeId) : Keeps names s s id :=
  .of_own?_eq rfl fun _ => rfl

theorem Keeps.trans {s'' : Scopes} {id : ScopeId} (h : Keeps names s s' id)
    (k : Keeps names s' s'' id) : Keeps names s s'' id where
  parent := k.parent.trans h.parent
  grows x hx := k.grows x (h.grows x hx)
  own x hx := (k.own x hx).trans (h.own x hx)
  constant x hx := (k.constant x hx).trans (h.constant x hx)
  value x hx hc := by
    have hc' : s'.isConstant id x := by rw [h.constant x hx]; exact hc
    exact (k.value x hx hc').trans (h.value x hx hc)

/-- Giving a name that is not constant a new value takes no name away and touches no constant. -/
theorem keeps_setValue {owner from_ : ScopeId} {name : String}
    (h : s.writable from_ name = .ok owner) (v : Value) (id : ScopeId) :
    Keeps names s (s.setValue owner name v) id := by
  obtain ⟨b, hb, hc⟩ := own?_of_writable s h
  have hp : (s.setValue owner name v).parent? id = s.parent? id := parent?_update _ _ _ _
  -- only one binding is another after the step, and it is no constant
  have same : ∀ x, (s.setValue owner name v).own? id x = s.own? id x ∨
      (s.own? id x = some b ∧ (s.setValue owner name v).own? id x = some { b with value := v }) := by
    intro x
    rcases own?_setValue s owner id name x v with he | ⟨rfl, rfl, he⟩
    · exact .inl he
    · exact .inr ⟨hb, by rw [he, hb]; rfl⟩
  refine ⟨hp, fun x hx => ?_, fun x _ => ?_, fun x _ => ?_, fun x _ hx => ?_⟩
  · rcases same x with he | ⟨-, he⟩
    · simpa only [hasOwn, he] using hx
    · simp only [hasOwn, he, Option.isSome_some]
  · rcases same x with he | ⟨ho, he⟩
    · simp only [hasOwn, he]
    · simp only [hasOwn, ho, he, Option.isSome_some]
  · rcases same x with he | ⟨ho, he⟩
    · simp only [isConstant, he]
    · simp only [isConstant, ho, he, Option.map_some]
  · rcases same x with he | ⟨ho, he⟩
    · simp only [ownValue?, he]
    · simp [isConstant, ho, hc] at hx

theorem lt_size_of_hasOwn {id : ScopeId} {x : String} (h : s.hasOwn id x) : id < s.size := by
  refine Nat.lt_of_not_le fun hge => ?_
  rw [hasOwn, own?, bindings, Array.getElem?_eq_none hge] at h
  cases h

/-- A declaration in a scope touches only the name that it declares there. -/
theorem keeps_bind (id : ScopeId) {name : String} (h : name ∈ names) (v : Value) (constant : Bool) :
    Keeps names s (s.bind id name v constant) id := by
  have other : ∀ x, x ∉ names → (s.bind id name v constant).own? id x = s.own? id x :=
    fun x hx => own?_bind_of_name_ne s id id (fun (he : x = name) => hx (he ▸ h)) v constant
  refine ⟨parent?_update _ _ _ _, fun x hx => ?_, fun x hx => ?_, fun x hx => ?_, fun x hx _ => ?_⟩
  · by_cases he : x = name
    · -- declared again, the name stays
      subst he
      have hlt : id < s.size := lt_size_of_hasOwn hx
      rw [hasOwn, own?_bind_self s hlt]
      rfl
    · rw [hasOwn, own?_bind_of_name_ne s id id he]
      exact hx
  · simp only [hasOwn, other x hx]
  · simp only [isConstant, other x hx]
  · simp only [ownValue?, other x hx]

theorem Keeps.mono {id : ScopeId} {names' : List String} (h : Keeps names s s' id)
    (hn : names ⊆ names') : Keeps names' s s' id where
  parent := h.parent
  grows := h.grows
  own x hx := h.own x fun hm => hx (hn hm)
  constant x hx := h.constant x fun hm => hx (hn hm)
  value x hx hc := h.value x (fun hm => hx (hn hm)) hc

/-- A step is a declaration in the scope that the code stands in, or it keeps all of every scope that was
there before the run. -/
theorem Step.declares_or_keeps (h : Step base here names s s') (hs : base ≤ s.size) :
    (∃ name ∈ names, ∃ v constant, s' = s.bind here name v constant) ∨
      ∀ id < base, Keeps [] s s' id := by
  cases h with
  | enter parent =>
    refine .inr fun id hid => .of_own?_eq ?_ (own?_push s _ id)
    -- the new scope takes a place of its own
    have hne : id ≠ s.size := Nat.ne_of_lt (Nat.lt_of_lt_of_le hid hs)
    rw [parent?_push, if_neg hne]
  | declareHere hn v constant => exact .inl ⟨_, hn, v, constant, rfl⟩
  | declareWithin hb name v constant =>
    refine .inr fun id hid => .of_own?_eq (parent?_update _ _ _ _) fun x => ?_
    exact own?_bind_of_ne s (Nat.ne_of_lt (Nat.lt_of_lt_of_le hid hb)) name x v constant
  | reassign hw v => exact .inr fun id _ => keeps_setValue hw v id
  | beginPass hb =>
    refine .inr fun id hid => .of_own?_eq (parent?_update _ _ _ _) fun x => ?_
    exact own?_beginPass_of_ne s (Nat.ne_of_lt (Nat.lt_of_lt_of_le hid hb)) x

/-- A step keeps of a scope that was there before the run all but what is declared in it. -/
theorem Step.keeps (h : Step base here names s s') (hs : base ≤ s.size) {id : ScopeId} (hid : id < base) :
    Keeps names s s' id ∧ (id ≠ here → Keeps [] s s' id) := by
  rcases h.declares_or_keeps hs with ⟨name, hn, v, constant, rfl⟩ | hk
  · have other : id ≠ here → Keeps [] s (s.bind here name v constant) id := fun hne =>
      .of_own?_eq (parent?_update _ _ _ _) fun x => own?_bind_of_ne s hne name x v constant
    refine ⟨?_, other⟩
    by_cases he : id = here
    · exact he ▸ keeps_bind id hn v constant
    · exact (other he).mono (List.nil_subset _)
  · exact ⟨(hk id hid).mono (List.nil_subset _), fun _ => hk id hid⟩

/-! ### What a path does -/

theorem Path.size_le (h : Path base here names s s') : s.size ≤ s'.size := by
  induction h with
  | refl => exact Nat.le_refl _
  | tail _ step ih => exact Nat.le_trans ih step.size_le

theorem Path.parent?_eq (h : Path base here names s s') {id : ScopeId} (hid : id < s.size) :
    s'.parent? id = s.parent? id := by
  induction h with
  | refl => rfl
  | tail path step ih => exact (step.parent?_eq (Nat.lt_of_lt_of_le hid (Path.size_le path))).trans ih

theorem Path.outward {inner : ScopeId} {names' : List String} (h : Path base inner names s s')
    (hb : base ≤ inner) : Path base here names' s s' :=
  Relation.ReflTransGen.mono (fun _ _ step => Step.outward step hb) _ _ h

theorem Path.mono {names' : List String} (h : Path base here names s s') (hn : names ⊆ names') :
    Path base here names' s s' :=
  Relation.ReflTransGen.mono (fun _ _ step => Step.mono step hn) _ _ h

theorem Path.refuses_eq (h : Path base here names s s') {id : ScopeId} (hid : id < base) {x : String}
    (hx : x ∉ names) (strict : Bool) : s'.refuses id x strict = s.refuses id x strict := by
  induction h with
  | refl => rfl
  | tail _ step ih => exact (step.refuses_eq hid hx strict).trans ih

theorem Path.keeps (h : Path base here names s s') (hs : base ≤ s.size) {id : ScopeId}
    (hid : id < base) : Keeps names s s' id ∧ (id ≠ here → Keeps [] s s' id) := by
  induction h with
  | refl => exact ⟨.refl _ _ _, fun _ => .refl _ _ _⟩
  | tail path step ih =>
    have hk := step.keeps (Nat.le_trans hs (Path.size_le path)) hid
    exact ⟨ih.1.trans hk.1, fun hne => (ih.2 hne).trans (hk.2 hne)⟩

/-- Along a path a constant of the scope that the code stands in changes its value only by a declaration
of its name there, somewhere on the path. -/
theorem Path.redeclares (h : Path base here names s s') (hs : base ≤ s.size) (hh : here < base)
    {x : String} (hc : s.isConstant here x) (hv : s'.ownValue? here x ≠ s.ownValue? here x) :
    ∃ (mid : Scopes) (v : Value) (constant : Bool), Path base here names s mid ∧
      Path base here names (mid.bind here x v constant) s' := by
  induction h using Relation.ReflTransGen.head_induction_on with
  | refl => exact absurd rfl hv
  | @head s mid step path ih =>
    -- the first step either declares the name or leaves the constant as it was
    have go : ∀ {ns : List String}, x ∉ ns → Keeps ns s mid here → _ := fun hx hk =>
      ih (Nat.le_trans hs step.size_le) (by rw [hk.constant x hx, hc])
        (fun he => hv (he.trans (hk.value x hx hc)))
    have later : (∃ (mid' : Scopes) (v : Value) (constant : Bool), Path base here names mid mid' ∧
        Path base here names (mid'.bind here x v constant) s') → ∃ (mid' : Scopes) (v : Value)
        (constant : Bool), Path base here names s mid' ∧
        Path base here names (mid'.bind here x v constant) s' :=
      fun ⟨mid', v, constant, hp, hq⟩ => ⟨mid', v, constant, hp.head step, hq⟩
    rcases step.declares_or_keeps hs with ⟨name, hn, v, constant, rfl⟩ | hk
    · by_cases he : x = name
      · exact ⟨s, v, constant, .refl, he ▸ path⟩
      · have hx : x ∉ [name] := by simpa using he
        exact later (go hx (keeps_bind here (List.mem_singleton_self name) v constant))
    · exact later (go List.not_mem_nil (hk here hh))

end Scopes

end ScriptLang
