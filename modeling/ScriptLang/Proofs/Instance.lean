/-
# ScriptLang.Proofs.Instance — what can be seen of an instance.

The members of a lineage are laid into one scope, the root's first.  A later member of a name replaces an
earlier one, and its visibility is the one that counts; constructors are put aside, and the last of them runs
when all members are laid.  An instance is the object of the names whose last member is visible, with the values
they have then.  A scope loses no name, whatever initial values and constructors do, so these names can always
be read.

What an instantiation does is described apart from the function that does it: `Lays` says for each kind of member
what it leaves in the scope, and `Builds` puts all members of the lineage and the call of the last constructor in
their order.  An instantiation succeeds exactly if there is such a course.
-/
import ScriptLang.Proofs.Flow.Returns
import ScriptLang.Proofs.Isolation
import ScriptLang.Proofs.Scope.Lookup
import Mathlib.Data.String.Basic

namespace ScriptLang

/-! ## Objects as tables -/

namespace Properties

/-- The keys stand in their order, each once. -/
def Ordered (ps : Properties) : Prop := (ps.map Prod.fst).Pairwise (· < ·)

theorem mem_keys_insert {key k : String} {v : Value} {ps : Properties}
    (h : k ∈ (insert key v ps).map Prod.fst) : k = key ∨ k ∈ ps.map Prod.fst := by
  induction ps with
  | nil => simpa [insert] using h
  | cons p rest ih =>
    obtain ⟨other, w⟩ := p
    unfold insert at h
    split at h
    · next same =>
      subst same
      exact .inr h
    · split at h
      · simpa using h
      · rw [List.map_cons, List.mem_cons] at h ⊢
        rcases h with rfl | h
        · exact .inr (.inl rfl)
        · rcases ih h with rfl | h
          · exact .inl rfl
          · exact .inr (.inr h)

theorem Ordered.insert {ps : Properties} (h : Ordered ps) (key : String) (v : Value) :
    Ordered (insert key v ps) := by
  induction ps with
  | nil => simp [Ordered, Properties.insert]
  | cons p rest ih =>
    obtain ⟨other, w⟩ := p
    obtain ⟨least, ordered⟩ := List.pairwise_cons.1 h
    unfold Properties.insert
    split
    · next same =>
      subst same
      exact h
    · next ne =>
      split
      · next lt =>
        refine List.pairwise_cons.2 ⟨fun k hk => ?_, h⟩
        rcases List.mem_cons.1 hk with rfl | hk
        · exact lt
        · exact lt_trans lt (least k hk)
      · next notBefore =>
        refine List.pairwise_cons.2 ⟨fun k hk => ?_, ih ordered⟩
        rcases mem_keys_insert hk with rfl | hk
        · exact lt_of_le_of_ne (not_lt.1 notBefore) ne
        · exact least k hk

end Properties

/-! ## Members that count -/

/-- The visibility that a member gives a name.  A method that is a constructor gives none. -/
def Member.visibility? (name : String) : Member → Option Visibility
  | .property visibility d => if d.name = name then some visibility else none
  | .method visibility d =>
    if d.shownName ≠ constructorName ∧ d.shownName = name then some visibility else none

/-- The constructor that a member is. -/
def Member.constructor? : Member → Option FunctionDeclaration
  | .property _ _ => none
  | .method _ d => if d.shownName = constructorName then some d else none

/-- The visibility of the last member of a name. -/
def lastVisibility (name : String) (ms : List Member) : Option Visibility :=
  (ms.filterMap (Member.visibility? name)).getLast?

/-- The last constructor among members. -/
def lastConstructor (ms : List Member) : Option FunctionDeclaration :=
  (ms.filterMap Member.constructor?).getLast?

/-- The members of a class with those that it inherits: the root's first, and its own last. -/
def Class.members (c : Class) : List Member :=
  c.ancestors.reverse.flatMap (·.declaration.members) ++ c.declaration.members

theorem Class.members_eq (c : Class) : c.lineage.flatMap (·.declaration.members) = c.members := by
  rw [Class.lineage, List.reverse_cons, List.flatMap_append, List.flatMap_singleton]
  rfl

theorem lastVisibility_concat (name : String) (ms : List Member) (m : Member) :
    lastVisibility name (ms ++ [m]) = (m.visibility? name).or (lastVisibility name ms) := by
  unfold lastVisibility
  rw [List.filterMap_append, List.getLast?_append]
  cases h : m.visibility? name <;> simp [h]

theorem lastConstructor_concat (ms : List Member) (m : Member) :
    lastConstructor (ms ++ [m]) = m.constructor?.or (lastConstructor ms) := by
  unfold lastConstructor
  rw [List.filterMap_append, List.getLast?_append]
  cases h : m.constructor? <;> simp [h]

namespace Eval

/-! ## Lineages -/

/-- A class that is declared has the members of the class that it extends, if there is one, and then its own. -/
theorem declareClass_members {d : ClassDeclaration} {strict : Bool} {span : Span} {m k : Machine} {v : Value}
    (h : declareClass d strict span m = .ok v k) :
    ∃ c : Class, v = .classValue c ∧ c.closure = m.frame.scope ∧
      match d.superclass with
      | none => c.members = d.members
      | some name => ∃ above : Class, m.scopes.value m.frame.scope name = .ok (.classValue above) ∧
        c.members = above.members ++ d.members := by
  obtain ⟨layers, l, found, made⟩ := Run.bind_eq_ok.1 h
  have bound (scope : ScopeId) (stamp : Stamp) (there : l.frame.scope = scope)
      (declared : Run.declareIn scope d.name (.classValue ⟨⟨stamp, d, scope⟩, layers⟩) true strict span
        { l with stamps := stamp + 1 } = .ok v k) :
      v = .classValue ⟨⟨stamp, d, scope⟩, layers⟩ := by
    unfold Run.declareIn at declared
    split at declared <;> cases declared
    rfl
  unfold ancestors at found
  cases extended : d.superclass with
  | none =>
    rw [extended] at found
    cases found
    exact ⟨_, bound _ _ rfl made, rfl, rfl⟩
  | some name =>
    rw [extended] at found
    obtain ⟨w, l', looked, found⟩ := Run.bind_eq_ok.1 found
    obtain ⟨value, rfl⟩ := Run.lookup_eq_ok.1 looked
    cases w with
    | classValue above =>
      cases found
      refine ⟨_, bound _ _ rfl made, rfl, above, value, ?_⟩
      show (above.toClassLayer :: above.ancestors).reverse.flatMap _ ++ d.members = _
      rw [← above.members_eq]
      rfl
    | _ => cases found

/-! ## Laying members -/

/-- A member is laid into the scope of an instance.  A property is bound to what its initial value comes to in that
scope, or to null; a method to a function that has that scope.  A constructor is made and bound to no name. -/
inductive Lays (n : Nat) (scope : ScopeId) (strict : Bool) : Member → Machine → Machine → Prop
  | empty {visibility : Visibility} {d : VariableDeclaration} {m : Machine} : d.value = none →
    Lays n scope strict (.property visibility d) m (m.mapScopes (·.bind scope d.name .null d.constant))
  | initial {visibility : Visibility} {d : VariableDeclaration} {e : Expr} {v : Value} {m k : Machine} :
    d.value = some e → evalExpression n e strict { m with frame := ⟨scope, m.frame.depth⟩ } = .ok v k →
    Lays n scope strict (.property visibility d) m
      ({ k with frame := m.frame }.mapScopes (·.bind scope d.name v d.constant))
  | method {visibility : Visibility} {d : FunctionDeclaration} {m : Machine} : d.shownName ≠ constructorName →
    Lays n scope strict (.method visibility d) m
      ({ m with stamps := m.stamps + 1 }.mapScopes
        (·.bind scope d.shownName (.function ⟨m.stamps, d, scope⟩) false))
  | constructor {visibility : Visibility} {d : FunctionDeclaration} {m : Machine} : d.shownName = constructorName →
    Lays n scope strict (.method visibility d) m { m with stamps := m.stamps + 1 }

/-- Members are laid into the scope of an instance, one after the other. -/
inductive LaysAll (n : Nat) (scope : ScopeId) (strict : Bool) : List Member → Machine → Machine → Prop
  | nil {m : Machine} : LaysAll n scope strict [] m m
  | cons {member : Member} {rest : List Member} {m l k : Machine} : Lays n scope strict member m l →
    LaysAll n scope strict rest l k → LaysAll n scope strict (member :: rest) m k

theorem Assembly.mem_mark (a : Assembly) (name x : String) (visibility : Visibility) :
    x ∈ (a.mark name visibility).visible ↔
      if x = name then visibility = .visible else x ∈ a.visible := by
  cases visibility with
  | visible =>
    unfold Assembly.mark
    by_cases there : name ∈ a.visible <;> by_cases same : x = name <;> simp_all
  | hidden =>
    unfold Assembly.mark
    by_cases same : x = name <;> simp_all

/-- A property is bound to its initial value, which is evaluated in the scope of the instance. -/
theorem layMember_property (self : Evaluator) (scope : ScopeId) (strict : Bool) (span : Span) (a : Assembly)
    (visibility : Visibility) (d : VariableDeclaration) (m : Machine) :
    layMember self scope strict span a (.property visibility d) m =
      (Run.within scope (initialValue self d.value strict) >>= fun v => do
        let _ ← Run.declareIn scope d.name v d.constant false span
        return a.mark d.name visibility) m := by
  unfold layMember
  dsimp only
  cases d.value <;> rfl

/-- A method is bound to a function that has the scope of the instance, and a constructor is put aside. -/
theorem layMember_method (self : Evaluator) (scope : ScopeId) (strict : Bool) (span : Span) (a : Assembly)
    (visibility : Visibility) (d : FunctionDeclaration) (m : Machine) :
    layMember self scope strict span a (.method visibility d) m =
      if d.shownName = constructorName then
        .ok { a with constructor := some ⟨m.stamps, d, scope⟩ } { m with stamps := m.stamps + 1 }
      else
        .ok (a.mark d.shownName visibility) { m with
          stamps := m.stamps + 1
          scopes := m.scopes.bind scope d.shownName (.function ⟨m.stamps, d, scope⟩) false } := by
  show (if d.shownName = constructorName then _ else _ : Run Assembly) { m with stamps := m.stamps + 1 } = _
  split
  · rfl
  · exact Run.bind_of_ok (Run.declareIn_lenient _ _ _ _ _ _)

/-- What has been laid when a member is added, with the stamp that a function gets there. -/
def Assembly.add (a : Assembly) (scope : ScopeId) (stamp : Stamp) : Member → Assembly
  | .property visibility d => a.mark d.name visibility
  | .method visibility d =>
    if d.shownName = constructorName then { a with constructor := some ⟨stamp, d, scope⟩ }
    else a.mark d.shownName visibility

/-- Laying one member succeeds exactly as the relation says, and adds the member to what was laid before. -/
theorem layMember_eq_ok {n : Nat} {scope : ScopeId} {strict : Bool} {span : Span} {member : Member} {m k : Machine}
    {a a' : Assembly} :
    layMember (.bounded n) scope strict span a member m = .ok a' k ↔
      Lays n scope strict member m k ∧ a' = a.add scope m.stamps member := by
  constructor
  · intro ran
    cases member with
    | property visibility d =>
      rw [layMember_property] at ran
      obtain ⟨v, l, initial, rest⟩ := Run.bind_eq_ok.1 ran
      rw [Run.bind_of_ok (Run.declareIn_lenient _ _ _ _ _ _)] at rest
      cases rest
      refine ⟨?_, rfl⟩
      obtain ⟨l, evaluated, rfl⟩ := Run.within_eq_ok initial
      cases value : d.value with
      | none =>
        rw [value] at evaluated
        cases evaluated
        exact .empty value
      | some e =>
        rw [value] at evaluated
        exact .initial value evaluated
    | method visibility d =>
      rw [layMember_method] at ran
      unfold Assembly.add
      split at ran
      · next isConstructor =>
        cases ran
        exact ⟨.constructor isConstructor, (if_pos isConstructor).symm⟩
      · next plain =>
        cases ran
        exact ⟨.method plain, (if_neg plain).symm⟩
  · rintro ⟨lays, rfl⟩
    unfold Assembly.add
    cases lays with
    | empty value =>
      rw [layMember_property, value]
      exact (Run.bind_of_ok rfl).trans (Run.bind_of_ok (Run.declareIn_lenient ..))
    | @initial _ _ e v _ k value evaluated =>
      have within : Run.within scope (initialValue (.bounded n) (some e) strict) m = .ok v { k with frame := m.frame } :=
        (Run.within_run ..).trans (congrArg (Run.giveBack m.frame) evaluated)
      rw [layMember_property, value]
      exact (Run.bind_of_ok within).trans (Run.bind_of_ok (Run.declareIn_lenient ..))
    | method plain =>
      rw [layMember_method, if_neg plain]
      exact congrArg (EStateM.Result.ok · _) (if_neg plain).symm
    | constructor isConstructor =>
      rw [layMember_method, if_pos isConstructor]
      exact congrArg (EStateM.Result.ok · _) (if_pos isConstructor).symm

/-- Laying members succeeds exactly as the relation says, by induction on the members. -/
theorem layMembers_iff {n : Nat} {scope : ScopeId} {strict : Bool} {members : List Member} {m k : Machine}
    (span : Span) (a : Assembly) :
    (∃ a', layMembers (.bounded n) scope strict span members a m = .ok a' k) ↔
      LaysAll n scope strict members m k := by
  induction members generalizing a m with
  | nil =>
    constructor
    · rintro ⟨a', ran⟩
      cases ran
      exact .nil
    · intro lays
      cases lays
      exact ⟨a, rfl⟩
  | cons member rest ih =>
    constructor
    · rintro ⟨a', ran⟩
      obtain ⟨b, l, first, ran⟩ := Run.bind_eq_ok.1 ran
      exact .cons (layMember_eq_ok.1 first).1 ((ih b).1 ⟨a', ran⟩)
    · intro lays
      cases lays with
      | cons first later =>
        obtain ⟨a', later⟩ := (ih _).2 later
        exact ⟨a', (Run.bind_of_ok (layMember_eq_ok.2 ⟨first, rfl⟩)).trans later⟩

/-- The members `ms` have been laid into a scope: the visible names are those whose last member is visible, the
scope binds them, and the constructor is the last one. -/
structure Laid (scope : ScopeId) (ms : List Member) (a : Assembly) (m : Machine) : Prop where
  visible : ∀ name, name ∈ a.visible ↔ lastVisibility name ms = some .visible
  bound : ∀ name ∈ a.visible, m.scopes.hasOwn scope name
  constructor : a.constructor.map Function.declaration = lastConstructor ms
  closure : ∀ f, a.constructor = some f → f.closure = scope

namespace Laid

variable {scope : ScopeId} {ms : List Member} {a : Assembly} {m : Machine}

theorem empty (scope : ScopeId) (m : Machine) : Laid scope [] ⟨[], none⟩ m :=
  ⟨fun name => by simp [lastVisibility], nofun, rfl, nofun⟩

/-- Nothing is lost on a machine whose scope still has its names. -/
theorem mono (h : Laid scope ms a m) {k : Machine}
    (keeps : ∀ name, m.scopes.hasOwn scope name → k.scopes.hasOwn scope name) : Laid scope ms a k :=
  ⟨h.visible, fun name hn => keeps name (h.bound name hn), h.constructor, h.closure⟩

/-- A member that is no constructor is bound, and marked with its visibility. -/
theorem bind (h : Laid scope ms a m) (there : scope < m.scopes.size) {member : Member} {name : String}
    {visibility : Visibility} (gives : ∀ x, member.visibility? x = if name = x then some visibility else none)
    (plain : member.constructor? = none) (v : Value) (constant : Bool) :
    Laid scope (ms ++ [member]) (a.mark name visibility) (m.mapScopes (·.bind scope name v constant)) := by
  have kept : (a.mark name visibility).constructor = a.constructor := by cases visibility <;> rfl
  refine ⟨fun x => ?_, fun x hx => ?_, ?_, ?_⟩
  · rw [Assembly.mem_mark, lastVisibility_concat, gives, h.visible]
    by_cases same : x = name
    · simp [same]
    · simp [same, Ne.symm same]
  · refine (Scopes.hasOwn_bind there name x v constant).2 ?_
    rw [Assembly.mem_mark] at hx
    split at hx
    · next same => exact .inl same
    · exact .inr (h.bound x hx)
  · rw [kept, lastConstructor_concat, plain, Option.none_or, h.constructor]
  · rw [kept]
    exact h.closure

theorem member {n : Nat} {strict : Bool} {member : Member} {k : Machine} (h : Laid scope ms a m)
    (there : scope < m.scopes.size) (lays : Lays n scope strict member m k) :
    Laid scope (ms ++ [member]) (a.add scope m.stamps member) k ∧ scope < k.scopes.size := by
  cases lays with
  | @empty visibility d _ value =>
    exact ⟨h.bind there (fun x => rfl) rfl .null d.constant, by simpa [Machine.mapScopes] using there⟩
  | @initial visibility d e v _ l value evaluated =>
    have stays : ((Evaluator.bounded n).expression e strict).Stays m.scopes.size scope e.declared :=
      (Evaluator.bounded_stays _ n).expression strict (List.Subset.refl _)
    have size := (stays.of_ok evaluated rfl (Nat.le_refl _)).2.size_le
    have laid : Laid scope ms a { l with frame := m.frame } := h.mono fun _ own => stays.keeps_own evaluated own
    have there : scope < l.scopes.size := Nat.lt_of_lt_of_le there size
    exact ⟨laid.bind there (fun x => rfl) rfl v d.constant, by simpa [Machine.mapScopes] using there⟩
  | @method visibility d _ plain =>
    have gives (x : String) : (Member.method visibility d).visibility? x =
        if d.shownName = x then some visibility else none := by
      simp [Member.visibility?, plain]
    have noConstructor : (Member.method visibility d).constructor? = none := by
      simp [Member.constructor?, plain]
    have laid := h.bind there gives noConstructor (.function ⟨m.stamps, d, scope⟩) false
    have added : a.add scope m.stamps (.method visibility d) = a.mark d.shownName visibility := if_neg plain
    rw [added]
    exact ⟨⟨laid.visible, laid.bound, laid.constructor, laid.closure⟩, by simpa [Machine.mapScopes] using there⟩
  | @constructor visibility d _ isConstructor =>
    have added : a.add scope m.stamps (.method visibility d) = { a with constructor := some ⟨m.stamps, d, scope⟩ } :=
      if_pos isConstructor
    rw [added]
    refine ⟨⟨fun name => ?_, h.bound, ?_, ?_⟩, there⟩
    · rw [lastVisibility_concat, h.visible]
      simp [Member.visibility?, isConstructor]
    · simp [lastConstructor_concat, Member.constructor?, isConstructor]
    · rintro f ⟨⟩
      rfl

/-- All members are laid, by induction on those that are left. -/
theorem members {n : Nat} {strict : Bool} {span : Span} {rest : List Member} {a' : Assembly} {k : Machine}
    (h : Laid scope ms a m) (there : scope < m.scopes.size)
    (ran : layMembers (.bounded n) scope strict span rest a m = .ok a' k) :
    Laid scope (ms ++ rest) a' k ∧ scope < k.scopes.size := by
  induction rest generalizing ms a m with
  | nil =>
    cases ran
    rw [List.append_nil]
    exact ⟨h, there⟩
  | cons first rest ih =>
    obtain ⟨a₁, m₁, ran₁, ran⟩ := Run.bind_eq_ok.1 ran
    obtain ⟨lays, rfl⟩ := layMember_eq_ok.1 ran₁
    obtain ⟨laid, there⟩ := h.member there lays
    rw [List.append_cons]
    exact ih laid there ran

end Laid

/-! ## Reading the visible names -/

/-- Names that a scope binds can be read, whatever was read before: the object shows the values that they have,
and its keys stand in their order. -/
theorem readNames_bound {scope : ScopeId} {m : Machine} (span : Span) {names : List String}
    (bound : ∀ name ∈ names, m.scopes.hasOwn scope name) (done : Properties) (ordered : done.Ordered) :
    ∃ ps, readNames scope span names done m = .ok ps m ∧ ps.Ordered ∧
      ∀ key, Properties.get? key ps =
        if key ∈ names then m.scopes.ownValue? scope key else Properties.get? key done := by
  induction names generalizing done with
  | nil => exact ⟨done, rfl, ordered, fun key => by simp⟩
  | cons name rest ih =>
    obtain ⟨v, own⟩ := Option.isSome_iff_exists.1 (Scopes.hasOwn_eq_isSome .. ▸ bound name List.mem_cons_self)
    have read : Run.lookupFrom scope name span m = .ok v m :=
      Run.settle_eq_ok.2 ⟨Scopes.value_of_own own, rfl⟩
    obtain ⟨ps, ran, sorted, shows⟩ :=
      ih (fun x hx => bound x (List.mem_cons_of_mem _ hx)) _ (ordered.insert name v)
    refine ⟨ps, (Run.bind_of_ok read).trans ran, sorted, fun key => ?_⟩
    rw [shows, Properties.get?_insert]
    by_cases same : key = name
    · subst same
      simp [own]
    · simp [same]

end Eval

/-! ## Instances -/

/-- The machine with the scope of a new instance of a class, which nothing is laid into yet. -/
def Machine.withInstance (m : Machine) (c : Class) : Machine := m.mapScopes (·.push (some c.closure))

namespace Eval

/-- An instance of a class comes about.  The members of the lineage are laid into a new scope inside the one of the
class, the root's first; then the last constructor among them is called, if there is one, as a function that has the
scope of the instance. -/
structure Builds (n : Nat) (c : Class) (args : List Value) (strict : Bool) (span : Span) (m laid built : Machine) :
    Prop where
  laying : LaysAll n m.scopes.size strict c.members (m.withInstance c) laid
  constructing : match lastConstructor c.members with
    | none => built = laid
    | some d => ∃ stamp v, callFunction (.bounded n) ⟨stamp, d, m.scopes.size⟩ args strict span laid = .ok v built

variable {n : Nat} {c : Class} {args : List Value} {strict : Bool} {span : Span} {m laid built : Machine}
  {a : Assembly}

/-- An instantiation lays all members of the lineage, runs the constructor and reads what is visible. -/
theorem instantiate_run (self : Evaluator) (c : Class) (args : List Value) (strict : Bool) (span : Span)
    (m : Machine) :
    Eval.instantiate self c args strict span m =
      (layMembers self m.scopes.size strict span c.members ⟨[], none⟩ >>= fun a => do
        construct self a.constructor args strict span
        let ps ← readNames m.scopes.size span a.visible []
        Run.newObject ps) (m.withInstance c) := by
  rw [← c.members_eq]
  rfl

theorem laid_withInstance
    (ran : layMembers (.bounded n) m.scopes.size strict span c.members ⟨[], none⟩ (m.withInstance c) = .ok a laid) :
    Laid m.scopes.size c.members a laid := by
  have there : m.scopes.size < (m.withInstance c).scopes.size := by simp [Machine.withInstance, Machine.mapScopes]
  exact ((Laid.empty m.scopes.size (m.withInstance c)).members there ran).1

/-- The constructor takes no member away. -/
theorem Laid.construct {scope : ScopeId} {ms : List Member} (h : Laid scope ms a laid)
    (ran : Eval.construct (.bounded n) a.constructor args strict span laid = .ok () built) :
    Laid scope ms a built := by
  have stays : (Eval.construct (.bounded n) a.constructor args strict span).Stays laid.scopes.size
      laid.frame.scope [] :=
    construct_stays (Evaluator.bounded_stays _ n) a.constructor args strict span
  exact h.mono fun _ own => stays.keeps_own ran own

/-- To run the constructor of what has been laid is to call the last constructor in the scope of the instance. -/
theorem Laid.construct_iff {scope : ScopeId} {ms : List Member} (h : Laid scope ms a laid) :
    Eval.construct (.bounded n) a.constructor args strict span laid = .ok () built ↔
      match lastConstructor ms with
      | none => built = laid
      | some d => ∃ stamp v, callFunction (.bounded n) ⟨stamp, d, scope⟩ args strict span laid = .ok v built := by
  rw [← h.constructor]
  cases last : a.constructor with
  | none =>
    show EStateM.Result.ok () laid = .ok () built ↔ built = laid
    simp [eq_comm]
  | some f =>
    obtain ⟨stamp, d, closure⟩ := f
    obtain rfl : closure = scope := h.closure _ last
    constructor
    · intro ran
      obtain ⟨v, k, called, ended⟩ := Run.bind_eq_ok.1 ran
      cases ended
      exact ⟨stamp, v, called⟩
    · rintro ⟨other, v, called⟩
      -- which stamp the function has plays no part in the call
      have called : callFunction (.bounded n) ⟨stamp, d, closure⟩ args strict span laid = .ok v built := called
      exact Run.bind_of_ok called

/-- An instantiation that succeeds has built something. -/
theorem builds_of_instantiate {out : Value} {after : Machine}
    (h : Eval.instantiate (.bounded n) c args strict span m = .ok out after) :
    ∃ laid built, Builds n c args strict span m laid built := by
  rw [instantiate_run] at h
  obtain ⟨a, laid, laying, h⟩ := Run.bind_eq_ok.1 h
  obtain ⟨_, built, constructing, -⟩ := Run.bind_eq_ok.1 h
  exact ⟨laid, built, (layMembers_iff span _).1 ⟨a, laying⟩, (laid_withInstance laying).construct_iff.1 constructing⟩

/-- What is built is read, and that does not fail. -/
theorem Builds.instantiate (h : Builds n c args strict span m laid built) :
    ∃ a ps, Laid m.scopes.size c.members a built ∧
      Eval.instantiate (.bounded n) c args strict span m =
        .ok (.object built.stamps ps) { built with stamps := built.stamps + 1 } ∧ Properties.Ordered ps ∧
      ∀ key, Properties.get? key ps =
        if lastVisibility key c.members = some .visible then built.scopes.ownValue? m.scopes.size key
        else none := by
  obtain ⟨a, laying⟩ := (layMembers_iff span ⟨[], none⟩).2 h.laying
  have before := laid_withInstance laying
  have constructing := before.construct_iff.2 h.constructing
  have laid := before.construct constructing
  obtain ⟨ps, read, ordered, shows⟩ := readNames_bound span laid.bound [] List.Pairwise.nil
  refine ⟨a, ps, laid, ?_, ordered, fun key => ?_⟩
  · rw [instantiate_run, Run.bind_of_ok laying, Run.bind_of_ok constructing, Run.bind_of_ok read]
    rfl
  · rw [shows]
    simp only [laid.visible]
    rfl

end Eval

/-- What an instance shows, for every class, from every machine and in either mode.

The members of a class are those of the class that it extends, as its declaration finds it, and then its own.  An
instantiation succeeds just if these members can be laid into a new scope and the call of the last constructor among
them succeeds, if there is one: reading the visible names back never fails.  Then the keys of the object are the
names whose last member is visible, each once, and the value of a key is the one that its name has in the scope of
the instance when the constructor has ended. -/
theorem instance_shows_visible_members (n : Nat) (c : Class) (args : List Value) (strict : Bool) (span : Span)
    (m : Machine) :
    (∀ out after, Eval.instantiate (.bounded n) c args strict span m = .ok out after →
      ∃ laid built, Eval.Builds n c args strict span m laid built) ∧
    (∀ laid built, Eval.Builds n c args strict span m laid built →
      ∃ ps, Eval.instantiate (.bounded n) c args strict span m =
          .ok (.object built.stamps ps) { built with stamps := built.stamps + 1 } ∧
        Properties.Ordered ps ∧
        (∀ name, Properties.has name ps ↔ lastVisibility name c.members = some .visible) ∧
        ∀ name v, Properties.get? name ps = some v →
          built.scopes.ownValue? m.scopes.size name = some v ∧ built.scopes.value m.scopes.size name = .ok v) ∧
    ∀ d strict span m v k, Eval.declareClass d strict span m = .ok v k →
      ∃ c : Class, v = .classValue c ∧ c.closure = m.frame.scope ∧
        match d.superclass with
        | none => c.members = d.members
        | some name => ∃ above : Class, m.scopes.value m.frame.scope name = .ok (.classValue above) ∧
          c.members = above.members ++ d.members := by
  refine ⟨fun out after h => Eval.builds_of_instantiate h, fun laid built h => ?_,
    fun d strict span m v k h => Eval.declareClass_members h⟩
  obtain ⟨a, ps, there, ran, ordered, shows⟩ := h.instantiate
  refine ⟨ps, ran, ordered, fun name => ?_, fun name v found => ?_⟩
  · rw [Properties.has, shows]
    split
    · next visible =>
      have own := there.bound name ((there.visible name).2 visible)
      rw [Scopes.hasOwn_eq_isSome] at own
      simp [own, visible]
    · next hidden => simp [hidden]
  · rw [shows] at found
    split at found
    · exact ⟨found, Scopes.value_of_own found⟩
    · cases found

/-- The class `class Base { public let kept = "kept"; public let a; private let b; public function constructor() {
b = "set" } }`, extended by `class Derived extends Base { private let a; public let b }`. -/
def derivedClass : Class :=
  let at_ : Span := ⟨1, 1, 1⟩
  let sets : Stmt := .expression at_ (.assign at_ (.identifier at_ "b") (.string at_ "set"))
  let base : ClassDeclaration := ⟨"Base", none,
    [.property .visible ⟨"kept", false, some (.string at_ "kept"), none⟩,
      .property .visible ⟨"a", false, none, none⟩, .property .hidden ⟨"b", false, none, none⟩,
      .method .visible ⟨some constructorName, [], [sets], false, none⟩]⟩
  let derived : ClassDeclaration := ⟨"Derived", some "Base",
    [.property .hidden ⟨"a", false, none, none⟩, .property .visible ⟨"b", false, none, none⟩]⟩
  ⟨⟨1, derived, 0⟩, [⟨0, base, 0⟩]⟩

/-- What the ancestor shows is seen unless it is hidden later, what it hides is seen if it is shown later, and what
is seen has the value that the inherited constructor gives it. -/
theorem derivedClass_shows_visible_members :
    ∃ laid built ps, Eval.Builds 3 derivedClass [] false ⟨2, 1, 3⟩ (.blank .live) laid built ∧
      Eval.instantiate (.bounded 3) derivedClass [] false ⟨2, 1, 3⟩ (.blank .live) =
        .ok (.object built.stamps ps) { built with stamps := built.stamps + 1 } ∧
      (Value.object built.stamps ps).text = "\x7b b: \"set\", kept: \"kept\" \x7d" ∧ ¬ Properties.has "a" ps := by
  have shown : (Run.value? (Eval.instantiate (.bounded 3) derivedClass [] false ⟨2, 1, 3⟩) (.blank .live)).map
      Value.text = some "\x7b b: \"set\", kept: \"kept\" \x7d" := by
    decide +kernel
  obtain ⟨out, given, text⟩ := Option.map_eq_some_iff.1 shown
  obtain ⟨after, ran⟩ := Run.value?_eq_some.1 given
  obtain ⟨builds, shows, -⟩ := instance_shows_visible_members 3 derivedClass [] false ⟨2, 1, 3⟩ (.blank .live)
  obtain ⟨laid, built, h⟩ := builds out after ran
  obtain ⟨ps, again, -, keys, -⟩ := shows laid built h
  cases ran.symm.trans again
  have hidden : lastVisibility "a" derivedClass.members ≠ some .visible := by decide
  exact ⟨laid, built, ps, h, again, text, fun there => hidden ((keys "a").1 there)⟩

end ScriptLang
