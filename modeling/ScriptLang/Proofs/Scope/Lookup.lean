/-
# ScriptLang.Proofs.Scope.Lookup — what a name means depends on the view of the scopes.

The owner of a name is found by going outward from scope to parent, each older than the one before.  So
two states of scopes that agree on the parents and the bindings of all scopes up to some number agree on
what a name means in each of these scopes.
-/
import ScriptLang.Proofs.Scope.Path

namespace ScriptLang.Scopes

variable {s s' : Scopes}

/-- A parent is older than its child. -/
theorem parent?_lt {id p : ScopeId} (h : s.parent? id = some p) : p < id := by
  unfold parent? at h
  cases he : s.entries[id]? with
  | none => simp [he] at h
  | some scope =>
    obtain ⟨hlt, rfl⟩ := Array.getElem?_eq_some_iff.1 he
    exact s.parent_lt id hlt p (by simpa [he] using h)

/-- The owner of a name is the scope itself if it binds the name, and else the owner that its parent
finds. -/
theorem owner?_eq (s : Scopes) (id : ScopeId) (name : String) :
    s.owner? id name =
      if s.hasOwn id name then some id else (s.parent? id).bind (s.owner? · name) := by
  rw [owner?]
  by_cases hlt : id < s.entries.size
  · have he := Array.getElem?_eq_getElem hlt
    have bindings : s.bindings id = s.entries[id].bindings := by simp [bindings, he]
    have parent : s.parent? id = s.entries[id].parent := by simp [parent?, he]
    rw [dif_pos hlt, hasOwn, own?, bindings, parent]
    split
    · rfl
    · split
      · next hp => simp [hp]
      · next p hp => simp [hp]
  · have he := Array.getElem?_eq_none (Nat.le_of_not_lt hlt)
    rw [dif_neg hlt]
    simp [hasOwn, own?, bindings, parent?, he]

/-- The owner of a name is found by way of the scopes outward of the one that looks. -/
theorem owner?_congr {bound : Nat} {name : String}
    (parents : ∀ id < bound, s'.parent? id = s.parent? id)
    (own : ∀ id < bound, s'.hasOwn id name = s.hasOwn id name) :
    ∀ id < bound, s'.owner? id name = s.owner? id name := by
  intro id
  induction id using Nat.strongRecOn with
  | ind id ih =>
    intro hid
    rw [owner?_eq s', owner?_eq s, parents id hid, own id hid]
    split
    · rfl
    · cases hp : s.parent? id with
      | none => rfl
      | some p =>
        have older : p < id := parent?_lt hp
        exact ih p older (Nat.lt_trans older hid)

theorem owner?_le {id owner : ScopeId} {name : String} (h : s.owner? id name = some owner) :
    owner ≤ id := by
  induction id using Nat.strongRecOn with
  | ind id ih =>
    rw [owner?_eq] at h
    split at h
    · exact Nat.le_of_eq (Option.some.inj h).symm
    · obtain ⟨p, hp, h⟩ := Option.bind_eq_some_iff.1 h
      have older : p < id := parent?_lt hp
      exact Nat.le_trans (ih p older h) (Nat.le_of_lt older)

/-- A name has a value where it has an owner: the one that the owner binds it to. -/
theorem value_eq_ok_iff {id : ScopeId} {name : String} {v : Value} :
    s.value id name = .ok v ↔
      ∃ owner, s.owner? id name = some owner ∧ s.ownValue? owner name = some v := by
  unfold value ownValue?
  cases ho : s.owner? id name with
  | none => simp
  | some owner =>
    cases hb : s.own? owner name with
    | none => simp [hb]
    | some b => simp [hb]

/-- Where a name can be written, it has a value. -/
theorem owner?_of_writable {id owner : ScopeId} {name : String} (h : s.writable id name = .ok owner) :
    s.owner? id name = some owner := by
  unfold writable at h
  split at h
  · cases h
  · next o ho =>
    split at h
    · cases h
    · cases h
      exact ho

theorem exists_value_of_writable {id owner : ScopeId} {name : String}
    (h : s.writable id name = .ok owner) : ∃ v, s.value id name = .ok v := by
  have ho := owner?_of_writable h
  obtain ⟨b, hb⟩ := Option.isSome_iff_exists.1 (own?_of_owner? s ho)
  exact ⟨b.value, value_eq_ok_iff.2 ⟨owner, ho, by simp [ownValue?, hb]⟩⟩

theorem hasOwn_eq_isSome (s : Scopes) (id : ScopeId) (name : String) :
    s.hasOwn id name = (s.ownValue? id name).isSome := by
  simp [hasOwn, ownValue?]

theorem value_eq (s : Scopes) (id : ScopeId) (name : String) :
    s.value id name = match (s.owner? id name).bind (s.ownValue? · name) with
      | some v => .ok v
      | none => .error (.unboundName name) := by
  unfold value ownValue?
  cases s.owner? id name with
  | none => rfl
  | some owner => cases h : s.own? owner name <;> simp [h]

/-- What a scope binds itself is what it sees. -/
theorem value_of_own {id : ScopeId} {name : String} {v : Value}
    (h : s.ownValue? id name = some v) : s.value id name = .ok v := by
  have own : s.hasOwn id name := by
    rw [hasOwn_eq_isSome, h]
    rfl
  rw [value_eq, owner?_eq, if_pos own, Option.bind_some, h]

theorem ownValue?_bind_self {id : ScopeId} (h : id < s.size) (name : String) (v : Value) (constant : Bool) :
    (s.bind id name v constant).ownValue? id name = some v := by
  rw [ownValue?, own?_bind_self s h]
  rfl

theorem hasOwn_bind {id : ScopeId} (there : id < s.size) (name x : String) (v : Value) (constant : Bool) :
    (s.bind id name v constant).hasOwn id x ↔ x = name ∨ s.hasOwn id x := by
  by_cases same : x = name
  · subst same
    simp [hasOwn, own?_bind_self s there]
  · simp [hasOwn, own?_bind_of_name_ne s id id same, same]

/-- What a name means is settled by what the scopes outward of the one that looks bind it to. -/
theorem value_congr {bound : Nat} {name : String}
    (parents : ∀ id < bound, s'.parent? id = s.parent? id)
    (own : ∀ id < bound, s'.ownValue? id name = s.ownValue? id name) {id : ScopeId} (h : id < bound) :
    s'.value id name = s.value id name := by
  have owners : s'.owner? id name = s.owner? id name := by
    refine owner?_congr parents (fun other hlt => ?_) id h
    rw [hasOwn_eq_isSome, hasOwn_eq_isSome, own other hlt]
  rw [value_eq, value_eq, owners]
  cases ho : s.owner? id name with
  | none => rfl
  | some owner => simp only [Option.bind_some, own owner (Nat.lt_of_le_of_lt (owner?_le ho) h)]

theorem ownValue?_setValue_self {id : ScopeId} {name : String} (h : s.hasOwn id name) (v : Value) :
    (s.setValue id name v).ownValue? id name = some v := by
  have hlt := lt_size_of_hasOwn h
  unfold ownValue? own? setValue
  rw [bindings_update s id id _ hlt, if_pos rfl, Bindings.get?_setValue, if_pos rfl]
  obtain ⟨b, hb⟩ := Option.isSome_iff_exists.1 h
  unfold own? at hb
  simp [hb]

theorem hasOwn_setValue (s : Scopes) (id other : ScopeId) (name x : String) (v : Value) :
    (s.setValue id name v).hasOwn other x = s.hasOwn other x := by
  unfold hasOwn
  rcases own?_setValue s id other name x v with h | ⟨-, -, h⟩ <;> simp [h]

theorem owner?_setValue (s : Scopes) (owner id : ScopeId) (name x : String) (v : Value) :
    (s.setValue owner name v).owner? id x = s.owner? id x := by
  apply owner?_congr
  · exact fun _ _ => parent?_update _ _ _ _
  · exact fun _ _ => hasOwn_setValue _ _ _ _ _ _
  · exact Nat.lt_succ_self id

/-- Who finds the owner in which a name has been given a value, finds this value. -/
theorem value_setValue_of_owner {id owner : ScopeId} {name : String} (h : s.owner? id name = some owner)
    (v : Value) : (s.setValue owner name v).value id name = .ok v := by
  have bound : s.hasOwn owner name := own?_of_owner? s h
  exact value_eq_ok_iff.2 ⟨owner, (owner?_setValue ..).trans h, ownValue?_setValue_self bound v⟩

/-- After a name has been given a value, it has this value for the one who gave it. -/
theorem value_setValue {id owner : ScopeId} {name : String} (h : s.writable id name = .ok owner)
    (v : Value) : (s.setValue owner name v).value id name = .ok v :=
  value_setValue_of_owner (owner?_of_writable h) v

/-- A name in a scope that is another name or in another scope keeps its binding. -/
theorem own?_setValue_of_ne {owner id : ScopeId} {name x : String} (h : id = owner → x ≠ name) (v : Value) :
    (s.setValue owner name v).own? id x = s.own? id x := by
  rcases own?_setValue s owner id name x v with same | ⟨there, named, -⟩
  · exact same
  · exact absurd named (h there)

/-- Who means another binding, finds what was found before. -/
theorem value_setValue_of_ne {owner id : ScopeId} {name x : String}
    (h : s.owner? id x = some owner → x ≠ name) (v : Value) :
    (s.setValue owner name v).value id x = s.value id x := by
  unfold value
  rw [owner?_setValue]
  cases found : s.owner? id x with
  | none => rfl
  | some o =>
    have other : o = owner → x ≠ name := fun same => h (same ▸ found)
    simp only [Option.bind_eq_bind, Option.bind_some, own?_setValue_of_ne other]

end ScriptLang.Scopes
