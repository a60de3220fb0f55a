/-
# ScriptLang.Proofs.MemberWrite — what an assignment to a member changes, and what is read after it.

A key, an index or a value that is a name or a literal is evaluated without any change but to the stamps.  So an
assignment to a member of a variable whose parts are such expressions changes one binding and nothing else, or
nothing at all.  A later reading of a member evaluates its key or index again, in other scopes; but these differ
from the old ones in one name, which is bound to a container before and after, and no key and no index tells one
array or one object from another.  So both readings name the same member, and they differ just if it is the one
that was assigned.
-/
import ScriptLang.Proofs.MemberAssignment

namespace ScriptLang

/-! ## Names and literals -/

mutual

/-- Is an expression a name, or a literal whose parts are names and literals? -/
def Expr.isPlain : Expr → Bool
  | .identifier _ _ | .number _ _ | .string _ _ | .null _ => true
  | .array _ es => arePlain es
  | .object _ ps => entriesArePlain ps
  | _ => false

/-- Are expressions names and literals? -/
def arePlain : List Expr → Bool
  | [] => true
  | e :: rest => e.isPlain && arePlain rest

/-- Is the value of an entry a name or a literal? -/
def Property.isPlain : Property → Bool
  | ⟨_, some e, _⟩ => e.isPlain
  | ⟨_, none, _⟩ => true

/-- Are the values of entries names and literals? -/
def entriesArePlain : List Property → Bool
  | [] => true
  | p :: rest => p.isPlain && entriesArePlain rest

end

/-! ## Machines on which names and literals come to the same -/

namespace Value

/-- Values that no key and no index tells apart. -/
inductive Indistinct : Value → Value → Prop
  | same (v : Value) : Indistinct v v
  | arrays (i j : Stamp) (vs ws : List Value) : Indistinct (.array i vs) (.array j ws)
  | objects (i j : Stamp) (ps qs : Properties) : Indistinct (.object i ps) (.object j qs)

theorem Replaces.indistinct {read v updated : Value} {name : MemberName} (h : read.Replaces name v updated) :
    read.Indistinct updated := by
  cases h with
  | key => exact .objects _ _ _ _
  | place => exact .arrays _ _ _ _

theorem Replaces.member?_self {read v updated : Value} {name : MemberName} (h : read.Replaces name v updated) :
    updated.member? name = some v := by
  cases h with
  | key now others => exact now
  | place bound now =>
    subst now
    simp [member?, bound]

theorem Replaces.member?_of_ne {read v updated : Value} {name other : MemberName}
    (h : read.Replaces name v updated) (ne : other ≠ name) : updated.member? other = read.member? other := by
  cases h with
  | key now others =>
    cases other with
    | key l => exact others l fun same => ne (same ▸ rfl)
    | place b => rfl
  | place bound now =>
    subst now
    cases other with
    | key l => rfl
    | place b => exact List.getElem?_set_ne fun same => ne (congrArg _ same.symm)

end Value

theorem elementPosition_congr {v w : Value} (h : v.Indistinct w) (length : Nat) (strict : Bool) :
    elementPosition v length strict = elementPosition w length strict := by
  cases h <;> rfl

/-- What is found under a name is the same, or cannot be told apart by a key or an index. -/
inductive FoundAlike : Except RuntimeFault Value → Except RuntimeFault Value → Prop
  | value {v w : Value} (h : v.Indistinct w) : FoundAlike (.ok v) (.ok w)
  | fault (fault : RuntimeFault) : FoundAlike (.error fault) (.error fault)

theorem FoundAlike.refl (x : Except RuntimeFault Value) : FoundAlike x x := by
  cases x with
  | ok v => exact .value (.same v)
  | error fault => exact .fault fault

/-- Every name that is looked up means alike on both machines. -/
def Machine.SeesAlike (m m' : Machine) : Prop :=
  ∀ name, FoundAlike (m.scopes.value m.frame.scope name) (m'.scopes.value m'.frame.scope name)

theorem Machine.SeesAlike.refl (m : Machine) : m.SeesAlike m := fun _ => .refl _

/-- Two runs, from `m` and from `m'`, that change nothing but the stamps and end alike: with related values, or
for the same reason. -/
inductive EndAlike {α : Type} (R : α → α → Prop) (m m' : Machine) :
    EStateM.Result Halt Machine α → EStateM.Result Halt Machine α → Prop
  | value {a b : α} (i j : Stamp) (h : R a b) :
      EndAlike R m m' (.ok a { m with stamps := i }) (.ok b { m' with stamps := j })
  | halt (halt : Halt) (i j : Stamp) :
      EndAlike R m m' (.error halt { m with stamps := i }) (.error halt { m' with stamps := j })

namespace EndAlike

variable {α β : Type} {R : α → α → Prop} {S : β → β → Prop} {m m' : Machine}

/-- What changes nothing but the stamps behind a change of the stamps, does so from before it. -/
theorem restamp {i j : Stamp} {r r' : EStateM.Result Halt Machine α}
    (h : EndAlike R { m with stamps := i } { m' with stamps := j } r r') : EndAlike R m m' r r' := by
  cases h with
  | value i j related => exact .value i j related
  | halt halt i j => exact .halt halt i j

/-- Runs that end alike and are followed by such runs. -/
theorem bind {x y : Run α} {f g : α → Run β} (h : EndAlike R m m' (x m) (y m'))
    (k : ∀ a b i j, R a b → x m = .ok a { m with stamps := i } →
      EndAlike S { m with stamps := i } { m' with stamps := j } (f a { m with stamps := i })
        (g b { m' with stamps := j })) :
    EndAlike S m m' ((x >>= f) m) ((y >>= g) m') := by
  rw [Run.bind_run, Run.bind_run]
  generalize ran : x m = left at h k ⊢
  generalize y m' = right at h ⊢
  cases h with
  | value i j related => exact (k _ _ i j related rfl).restamp
  | halt halt i j => exact .halt halt i j

theorem settle (span : Span) (x : Except RuntimeFault α) :
    EndAlike Eq m m' (Run.settle span x m) (Run.settle span x m') := by
  cases x with
  | ok a => exact .value m.stamps m'.stamps rfl
  | error fault => exact .halt _ m.stamps m'.stamps

theorem lookup (sees : m.SeesAlike m') (name : String) (span : Span) :
    EndAlike Value.Indistinct m m' (Run.lookup name span m) (Run.lookup name span m') := by
  have found := sees name
  unfold Run.lookup Run.lookupFrom Run.settle
  generalize m.scopes.value m.frame.scope name = left at found ⊢
  generalize m'.scopes.value m'.frame.scope name = right at found ⊢
  cases found with
  | value h => exact .value m.stamps m'.stamps h
  | fault fault => exact .halt _ m.stamps m'.stamps

/-- Such a run has changed nothing but the stamps. -/
theorem machine_of_value {x : Run α} {a : α} {k : Machine} {r : EStateM.Result Halt Machine α}
    (h : EndAlike R m m' (x m) r) (ran : x m = .ok a k) : ∃ i, k = { m with stamps := i } := by
  rw [ran] at h
  cases h with
  | value i j _ => exact ⟨i, rfl⟩

theorem machine_of_halt {x : Run α} {halt : Halt} {k : Machine} {r : EStateM.Result Halt Machine α}
    (h : EndAlike R m m' (x m) r) (ran : x m = .error halt k) : ∃ i, k = { m with stamps := i } := by
  rw [ran] at h
  cases h with
  | halt halt i j => exact ⟨i, rfl⟩

/-- What one run ends with, the other ends with too. -/
theorem value_right {x y : Run α} {a : α} {k : Machine} (h : EndAlike Eq m m' (x m) (y m'))
    (ran : x m = .ok a k) : ∃ j, y m' = .ok a { m' with stamps := j } := by
  rw [ran] at h
  generalize y m' = right at h ⊢
  cases h with
  | value i j same => exact ⟨j, same ▸ rfl⟩

end EndAlike

namespace Eval

variable {n : Nat} {strict : Bool} {m m' : Machine}

/-! ## The evaluation of names and literals -/

/-- Names and literals are evaluated alike, in steps bounded by `n`. -/
def PlainAlike (n : Nat) : Prop :=
  ∀ {e : Expr} {strict : Bool} {m m' : Machine}, e.isPlain → m.SeesAlike m' →
    EndAlike Value.Indistinct m m' (evalExpression n e strict m) (evalExpression n e strict m')

theorem expressions_endAlike (parts : PlainAlike n) {es : List Expr} (plain : arePlain es)
    (sees : m.SeesAlike m') :
    EndAlike (fun _ _ => True) m m' (expressions (.bounded n) es strict m)
      (expressions (.bounded n) es strict m') := by
  induction es generalizing m m' with
  | nil => exact .value m.stamps m'.stamps trivial
  | cons e rest ih =>
    rw [arePlain, Bool.and_eq_true] at plain
    refine (parts plain.1 sees).bind fun v w i j _ _ => ?_
    have others : Machine.SeesAlike { m with stamps := i } { m' with stamps := j } := sees
    exact (ih plain.2 others).bind fun _ _ i j _ _ => .value i j trivial

theorem properties_endAlike (parts : PlainAlike n) {ps : List Property} (plain : entriesArePlain ps)
    (sees : m.SeesAlike m') (done done' : Properties) :
    EndAlike (fun _ _ => True) m m' (properties (.bounded n) ps strict done m)
      (properties (.bounded n) ps strict done' m') := by
  induction ps generalizing m m' done done' with
  | nil => exact .value m.stamps m'.stamps trivial
  | cons p rest ih =>
    obtain ⟨key, value, span⟩ := p
    rw [entriesArePlain, Bool.and_eq_true] at plain
    have others (i j : Stamp) : Machine.SeesAlike { m with stamps := i } { m' with stamps := j } := sees
    cases value with
    | some e => exact (parts plain.1 sees).bind fun v w i j _ _ => ih plain.2 (others i j) _ _
    | none => exact (EndAlike.lookup sees key span).bind fun v w i j _ _ => ih plain.2 (others i j) _ _

/-- By induction on the bound: the parts of a literal have a smaller one. -/
theorem plainAlike (n : Nat) : PlainAlike n := by
  induction n with
  | zero => exact fun _ _ => .halt _ _ _
  | succ n ih =>
    intro e strict m m' plain sees
    show EndAlike _ m m' (Eval.expression (.bounded n) e strict m) (Eval.expression (.bounded n) e strict m')
    cases e with
    | identifier span name => exact .lookup sees name span
    | number span x => exact .value m.stamps m'.stamps (.same _)
    | string span text => exact .value m.stamps m'.stamps (.same _)
    | null span => exact .value m.stamps m'.stamps (.same _)
    | array span es =>
      rw [Expr.isPlain] at plain
      refine (expressions_endAlike ih plain sees).bind fun vs ws i j _ _ => ?_
      exact .value (i + 1) (j + 1) (.arrays i j vs ws)
    | object span ps =>
      rw [Expr.isPlain] at plain
      refine (properties_endAlike ih plain sees [] []).bind fun ps qs i j _ _ => ?_
      exact .value (i + 1) (j + 1) (.objects i j ps qs)
    | _ => cases plain

/-! ## Keys and indices -/

variable {property : Expr} {computed : Bool} {span : Span}

theorem propertyKey_endAlike (plain : property.isPlain) (sees : m.SeesAlike m') :
    EndAlike Eq m m' (propertyKey (.bounded n) property computed strict m)
      (propertyKey (.bounded n) property computed strict m') := by
  unfold propertyKey
  split
  · exact .value m.stamps m'.stamps rfl
  · refine (plainAlike n plain sees).bind fun v w i j alike _ => ?_
    cases alike with
    | same v =>
      cases v with
      | string key => exact .value i j rfl
      | _ => exact .halt _ i j
    | arrays | objects => exact .halt _ i j

theorem elementPlace_endAlike (plain : property.isPlain) (sees : m.SeesAlike m') (length : Nat) :
    EndAlike Eq m m' (elementPlace (.bounded n) property length strict span m)
      (elementPlace (.bounded n) property length strict span m') := by
  refine (plainAlike n plain sees).bind fun v w i j alike _ => ?_
  rw [elementPosition_congr alike]
  exact .settle span _

/-! ## Readings -/

variable {read v updated : Value} {name : MemberName}

/-- The member that a key or index names is what is read. -/
theorem memberValue_of_names {self : Evaluator} {k : Machine} {w : Value}
    (named : NamesMember self property computed strict span read m name k) (there : read.member? name = some w) :
    memberValue self read property computed strict span m = .ok w k := by
  cases named with
  | key h =>
    change Properties.get? _ _ = _ at there
    unfold memberValue
    dsimp only
    rw [Run.bind_of_ok h, there]
    rfl
  | place bracketed h =>
    change _[_]? = _ at there
    unfold memberValue
    dsimp only
    rw [if_pos bracketed, Run.bind_of_ok h, Option.bind_some, there]
    rfl

/-- A key or index names the same member of a container and of its changed copy. -/
theorem NamesMember.of_replaces {k : Machine} {other : MemberName}
    (named : NamesMember (.bounded n) property computed strict span read m other k)
    (replaced : read.Replaces name v updated) (plain : property.isPlain) (sees : m.SeesAlike m') :
    ∃ i, NamesMember (.bounded n) property computed strict span updated m' other { m' with stamps := i } := by
  cases replaced with
  | key =>
    cases named with
    | key h =>
      obtain ⟨i, h⟩ := (propertyKey_endAlike plain sees).value_right h
      exact ⟨i, .key h⟩
  | place bound now =>
    subst now
    cases named with
    | place bracketed h =>
      obtain ⟨i, h⟩ := (elementPlace_endAlike plain sees _).value_right h
      exact ⟨i, .place bracketed (by rwa [List.length_set])⟩

/-- A key or index that does not name the replaced member reads the same of a container and of its changed copy. -/
theorem memberValue_endAlike (replaced : read.Replaces name v updated) (plain : property.isPlain)
    (sees : m.SeesAlike m')
    (others : ∀ k, ¬ NamesMember (.bounded n) property computed strict span read m name k) :
    EndAlike Eq m m' (memberValue (.bounded n) read property computed strict span m)
      (memberValue (.bounded n) updated property computed strict span m') := by
  cases replaced with
  | @key i j key v ps qs now same =>
    unfold memberValue
    refine (propertyKey_endAlike plain sees).bind fun l _ i j equal ran => ?_
    subst equal
    have other : l ≠ key := by
      rintro rfl
      exact others _ (.key ran)
    rw [same l other]
    cases Properties.get? l ps with
    | some w => exact .value i j rfl
    | none => exact .halt _ i j
  | @place i j a v vs ws bound now =>
    subst now
    unfold memberValue
    dsimp only
    by_cases bracketed : computed = true
    · rw [if_pos bracketed, if_pos bracketed, List.length_set]
      refine (elementPlace_endAlike plain sees _).bind fun place _ i j equal ran => ?_
      subst equal
      cases place with
      | none => exact .value i j rfl
      | some b =>
        have other : a ≠ b := by
          rintro rfl
          exact others _ (.place bracketed ran)
        refine .value i j ?_
        simp [List.getElem?_set_ne other]
    · rw [if_neg bracketed, if_neg bracketed]
      exact .halt _ m.stamps m'.stamps

/-- The reading of a member of a variable, when the variable has been read. -/
theorem member_of_value {s t : Span} {x : String} (found : m.scopes.value m.frame.scope x = .ok read) :
    evalExpression (n + 2) (.member s (.identifier t x) property computed) strict m =
      memberValue (.bounded (n + 1)) read property computed strict s m :=
  Run.bind_of_ok (Run.lookup_eq_ok.2 ⟨found, rfl⟩)

/-! ## Assignments -/

theorem NamesMember.machine {k : Machine} (plain : property.isPlain)
    (named : NamesMember (.bounded n) property computed strict span read m name k) :
    ∃ i, k = { m with stamps := i } := by
  cases named with
  | key h => exact (propertyKey_endAlike plain (.refl m)).machine_of_value h
  | place _ h => exact (elementPlace_endAlike plain (.refl m) _).machine_of_value h

theorem withMember_endAlike (plain : property.isPlain) :
    EndAlike (fun _ _ => True) m m (withMember (.bounded n) read property computed v strict span m)
      (withMember (.bounded n) read property computed v strict span m) := by
  unfold withMember
  split
  · refine (propertyKey_endAlike plain (.refl m)).bind fun key _ i j equal _ => ?_
    subst equal
    split
    · exact .halt _ i j
    · exact .value (i + 1) (j + 1) trivial
  · split
    · refine (elementPlace_endAlike plain (.refl m) _).bind fun place _ i j equal _ => ?_
      subst equal
      cases place with
      | none => exact .halt _ i j
      | some a => exact .value (i + 1) (j + 1) trivial
    · exact .halt _ m.stamps m.stamps
  · exact .halt _ m.stamps m.stamps

/-- An assignment to a member, its parts names and literals, that fails has changed nothing but the stamps. -/
theorem assign_member_eq_error {e : Expr} {s t : Span} {x : String} {halt : Halt} {k : Machine}
    (key : property.isPlain) (value : e.isPlain)
    (h : evalExpression (n + 1) (.assign span (.member s (.identifier t x) property computed) e) strict m =
      .error halt k) : ∃ i, k = { m with stamps := i } := by
  rcases Run.bind_eq_error.1 h with looked | ⟨read, l, looked, h₁⟩
  · exact (EndAlike.lookup (.refl m) x t).machine_of_halt looked
  obtain ⟨-, rfl⟩ := Run.lookup_eq_ok.1 looked
  rcases Run.bind_eq_error.1 h₁ with evaluated | ⟨v, _, evaluated, h₂⟩
  · exact (plainAlike n value (.refl _)).machine_of_halt evaluated
  obtain ⟨i, rfl⟩ := (plainAlike n value (.refl _)).machine_of_value evaluated
  rcases Run.bind_eq_error.1 h₂ with copied | ⟨updated, _, copied, h₃⟩
  · exact (withMember_endAlike (m := { l with stamps := i }) key).machine_of_halt copied
  obtain ⟨j, rfl⟩ := (withMember_endAlike (m := { l with stamps := i }) key).machine_of_value copied
  rcases Run.bind_eq_error.1 h₃ with written | ⟨_, _, _, h₄⟩
  · unfold Run.reassign at written
    split at written
    · cases written
    · cases written
      exact ⟨j, rfl⟩
  · cases h₄

end Eval

/-- A variable is given another container of its kind: each name still means a container of the kind, or what it
meant before. -/
theorem Machine.seesAlike_setValue {m : Machine} {x : String} {owner : ScopeId} {read v updated : Value}
    {name : MemberName} (found : m.scopes.value m.frame.scope x = .ok read)
    (writable : m.scopes.writable m.frame.scope x = .ok owner) (replaced : read.Replaces name v updated)
    (stamps : Stamp) :
    m.SeesAlike { m with scopes := m.scopes.setValue owner x updated, stamps := stamps } := by
  intro y
  show FoundAlike _ ((m.scopes.setValue owner x updated).value m.frame.scope y)
  by_cases same : y = x
  · subst same
    rw [found, Scopes.value_setValue writable]
    exact .value replaced.indistinct
  · rw [Scopes.value_setValue_of_ne fun _ => same]
    exact .refl _

/-! ## What is changed, and what is read -/

/-- From `before` to `after` the variable `x` of the scope `owner` is given the value `updated`.  Every other
binding of every scope is the same, every name has the owner that it had, and so every name that does not mean
this variable has the value that it had. -/
structure Machine.Rebinds (before : Machine) (owner : ScopeId) (x : String) (updated : Value) (after : Machine) :
    Prop where
  machine : after = { before with scopes := before.scopes.setValue owner x updated, stamps := after.stamps }
  bindings : ∀ id y, (id = owner → y ≠ x) → after.scopes.own? id y = before.scopes.own? id y
  owners : ∀ id y, after.scopes.owner? id y = before.scopes.owner? id y
  written : ∀ id, before.scopes.owner? id x = some owner → after.scopes.value id x = .ok updated
  others : ∀ id y, (before.scopes.owner? id y = some owner → y ≠ x) →
    after.scopes.value id y = before.scopes.value id y

theorem Machine.rebinds_setValue (m : Machine) (owner : ScopeId) (x : String) (updated : Value) (stamps : Stamp) :
    m.Rebinds owner x updated { m with scopes := m.scopes.setValue owner x updated, stamps := stamps } where
  machine := rfl
  bindings _ _ other := Scopes.own?_setValue_of_ne other updated
  owners id y := Scopes.owner?_setValue m.scopes owner id x y updated
  written _ owns := Scopes.value_setValue_of_owner owns updated
  others _ _ other := Scopes.value_setValue_of_ne other updated

/-- An assignment `x.k = e` or `x[k] = e` whose key or index and whose value are names and literals.  If it fails,
nothing has changed but the stamps.  If it succeeds, `x` holds a container of which `k` names a member, a place of
an array or a key of an object, and in strict mode the container has it; then `x` is bound to a copy with the
value of `e` under this member and all others as they were, and no other binding is changed.  Behind it a reading of a member of `x`, by a name
or a literal and in the same mode, yields that value if the key or index named the assigned member before, and
else ends as it would have ended before. -/
theorem memberWrite_exact {n : Nat} {m : Machine} {strict computed : Bool} {span s t : Span} {x : String}
    {property e : Expr} (key : property.isPlain) (value : e.isPlain) :
    (∀ halt after,
      evalExpression (n + 1) (.assign span (.member s (.identifier t x) property computed) e) strict m =
        .error halt after → ∃ stamps, after = { m with stamps := stamps }) ∧
    ∀ out after,
      evalExpression (n + 1) (.assign span (.member s (.identifier t x) property computed) e) strict m =
        .ok out after →
      ∃ (read v updated : Value) (name : MemberName) (owner : ScopeId) (i j : Stamp),
        m.scopes.value m.frame.scope x = .ok read ∧
        m.scopes.writable m.frame.scope x = .ok owner ∧
        evalExpression n e strict m = .ok v { m with stamps := i } ∧
        Eval.NamesMember (.bounded n) property computed strict span read { m with stamps := i } name
          { m with stamps := j } ∧
        read.Replaces name v updated ∧ (strict → (read.member? name).isSome) ∧
        updated.member? name = some v ∧ (∀ other, other ≠ name → updated.member? other = read.member? other) ∧
        out = .null ∧ m.Rebinds owner x updated after ∧
        ∀ (k : Nat) (s' t' : Span) (property' : Expr) (computed' : Bool), property'.isPlain →
          (∀ l, Eval.NamesMember (.bounded (k + 1)) property' computed' strict s' read m name l →
            ∃ stamps, evalExpression (k + 2) (.member s' (.identifier t' x) property' computed') strict after =
              .ok v { after with stamps := stamps }) ∧
          ((∀ l, ¬ Eval.NamesMember (.bounded (k + 1)) property' computed' strict s' read m name l) →
            EndAlike Eq m after
              (evalExpression (k + 2) (.member s' (.identifier t' x) property' computed') strict m)
              (evalExpression (k + 2) (.member s' (.identifier t' x) property' computed') strict after)) := by
  refine ⟨fun halt after h => Eval.assign_member_eq_error key value h, fun out after h => ?_⟩
  obtain ⟨read, v, m₁, name, m₂, updated, owner, found, evaluated, named, there, replaced, writable, rfl, rfl⟩ :=
    Eval.assign_member_eq_ok h
  obtain ⟨i, rfl⟩ := (Eval.plainAlike n value (.refl m)).machine_of_value evaluated
  obtain ⟨j, rfl⟩ := named.machine key
  have sees := Machine.seesAlike_setValue found writable replaced (j + 1)
  have bound := Scopes.value_setValue writable updated
  refine ⟨read, v, updated, name, owner, i, j, found, writable, evaluated, named, replaced, there,
    replaced.member?_self, fun _ other => replaced.member?_of_ne other, rfl,
    m.rebinds_setValue owner x updated (j + 1), fun k s' t' property' computed' plain => ⟨fun l reads => ?_, ?_⟩⟩
  · obtain ⟨stamps, reads⟩ := reads.of_replaces replaced plain sees
    exact ⟨stamps, (Eval.member_of_value bound).trans (Eval.memberValue_of_names reads replaced.member?_self)⟩
  · intro others
    rw [Eval.member_of_value found, Eval.member_of_value bound]
    exact Eval.memberValue_endAlike replaced plain sees others

/-- A machine with a variable `x` that is bound to an object with the key `k`. -/
def withKey : Machine := (Machine.blank .live).mapScopes (·.bind 0 "x" (.object 0 [("k", .string "old")]) false)

/-- Behind `x.k = "new"` the reading `x["k"]` yields the new value. -/
theorem withKey_written :
    ∃ after stamps,
      evalExpression 2 (.assign ⟨1, 1, 1⟩ (.member ⟨1, 1, 1⟩ (.identifier ⟨1, 1, 1⟩ "x")
        (.identifier ⟨1, 3, 1⟩ "k") false) (.string ⟨1, 7, 5⟩ "new")) true withKey = .ok .null after ∧
      evalExpression 2 (.member ⟨2, 1, 1⟩ (.identifier ⟨2, 1, 1⟩ "x") (.string ⟨2, 3, 3⟩ "k") true) true after =
        .ok (.string "new") { after with stamps := stamps } := by
  have succeeds : Run.succeeds (evalExpression 2 (.assign ⟨1, 1, 1⟩ (.member ⟨1, 1, 1⟩ (.identifier ⟨1, 1, 1⟩ "x")
      (.identifier ⟨1, 3, 1⟩ "k") false) (.string ⟨1, 7, 5⟩ "new")) true) withKey := by decide +kernel
  obtain ⟨out, after, ran⟩ := Run.succeeds_iff.1 succeeds
  obtain ⟨read, v, updated, name, owner, i, j, found, -, evaluated, named, -, -, -, -, rfl, -, reads⟩ :=
    (memberWrite_exact (by rfl) (by rfl)).2 out after ran
  cases evaluated
  have there : withKey.scopes.value 0 "x" = .ok (.object 0 [("k", .string "old")]) :=
    Scopes.value_of_own (Scopes.ownValue?_bind_self (Nat.zero_lt_succ 0) "x" _ false)
  obtain rfl := Except.ok.inj (found.symm.trans there)
  cases named with
  | key named =>
    cases named
    obtain ⟨same, -⟩ := reads 0 ⟨2, 1, 1⟩ ⟨2, 1, 1⟩ (.string ⟨2, 3, 3⟩ "k") true rfl
    obtain ⟨stamps, again⟩ := same _ (.key rfl)
    exact ⟨after, stamps, ran, again⟩

end ScriptLang
