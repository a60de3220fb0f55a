/-
# ScriptLang.Proofs.Resolution — where the names in the members of a class are looked up.

The scope of an instance has the scope of its class as parent, and the members of the whole lineage are laid into
it.  So a name that neither the instance nor a member binds means in this member what it means where the class
stands that was instantiated.  The scopes in which the other classes of the lineage stand are not asked.

The proof follows the text of a member, an initial value or the body of a function.  Its evaluation comes to one
point of the text after another, each with a machine, and every step leads to a scope that sees the name as the
scope of the class does: it is the same scope, changed by a part of the text that does not bind the name, or a new
one inside it.  These points are all at which names are asked for: a fault of a name comes up at one of them.
-/
import ScriptLang.Proofs.Instance
import ScriptLang.Proofs.Move
import ScriptLang.Proofs.NameFault
import ScriptLang.Proofs.Scope.Sees

namespace ScriptLang

/-! ## Points from which a name is seen as from an outer scope -/

/-- A move that does not declare the name leaves it seen as before: from the same scope, or from a new one in it. -/
theorem Machine.Move.sees {names : List String} {m k : Machine} {outer : ScopeId} {x : String}
    (move : Move names m k) (free : x ∉ names) (h : m.Sees outer x) : k.Sees outer x := by
  cases move with
  | run stays ran => exact h.after (stays _) ran free
  | enter => exact ⟨h.sees.enter h.there, by simp [Machine.entered]⟩
  | @declare _ name mem v constant =>
    have other : x ≠ name := fun same => free (same ▸ mem)
    exact ⟨h.sees.bind other _ v constant, by simpa [Machine.mapScopes] using h.there⟩
  | beginPass => exact ⟨h.sees.beginPass _, by simpa [Machine.mapScopes] using h.there⟩

/-- At a point the name is seen as from the scope `outer`, and the code that is left there does not bind it. -/
structure Point.Clear (p : Point) (outer : ScopeId) (x : String) : Prop where
  sees : p.machine.Sees outer x
  free : x ∉ p.code.bound

/-- All points that the evaluation of a text comes to that does not bind the name, by induction on the moves between
them. -/
theorem Point.Comes.clear {outer : ScopeId} {x : String} {p q : Point} (h : p.Comes q) (clear : p.Clear outer x) :
    q.Clear outer x := by
  obtain ⟨moves, sub⟩ := h.moves
  refine ⟨?_, fun bound => clear.free (sub bound)⟩
  generalize q.machine = k at moves
  induction moves with
  | refl => exact clear.sees
  | tail _ move ih => exact move.sees clear.free ih

/-! ## Calls -/

namespace Eval

/-- Parameters are bound in the scope of the call, and nothing else changes. -/
theorem bindParameters_eq_ok {scope : ScopeId} {strict : Bool} {span : Span} {ps : List (String × Value)}
    {m k : Machine} (h : bindParameters scope strict span ps m = .ok () k) :
    k.scopes.size = m.scopes.size ∧ (∀ id, k.scopes.parent? id = m.scopes.parent? id) ∧
      ∀ id y, (id = scope → y ∉ ps.map Prod.fst) → k.scopes.own? id y = m.scopes.own? id y := by
  induction ps generalizing m with
  | nil =>
    cases h
    exact ⟨rfl, fun _ => rfl, fun _ _ _ => rfl⟩
  | cons p rest ih =>
    obtain ⟨name, v⟩ := p
    obtain ⟨w, l, declared, rest⟩ := Run.bind_eq_ok.1 h
    obtain rfl := Run.declareIn_eq_ok declared
    obtain ⟨size, parents, own⟩ := ih rest
    refine ⟨by simpa [Machine.mapScopes] using size, fun id => (parents id).trans (Scopes.parent?_update _ _ _ _),
      fun id y free => ?_⟩
    simp only [List.map_cons, List.mem_cons, not_or] at free
    refine (own id y fun same => (free same).2).trans ?_
    by_cases same : id = scope
    · exact Scopes.own?_bind_of_name_ne _ _ _ (free same).1 _ _
    · exact Scopes.own?_bind_of_ne _ same _ _ _ _

variable {f : Function} {args : List Value} {strict : Bool} {span : Span} {m k : Machine} {outer : ScopeId}
  {x : String}

/-- The call of a function begins in a scope inside the one that the function has. -/
theorem EntersCall.sees (h : EntersCall f args strict span m k) (sees : m.scopes.Sees outer x f.closure)
    (there : f.closure < m.scopes.size) (free : x ∉ f.declaration.parameters) : k.Sees outer x := by
  obtain ⟨-, l, bound, rfl⟩ := h
  obtain ⟨size, parents, own⟩ := bindParameters_eq_ok bound
  have other : x ∉ (f.declaration.parameters.zip args).map Prod.fst := by
    intro hx
    obtain ⟨⟨name, v⟩, hp, rfl⟩ := List.mem_map.1 hx
    exact free (List.of_mem_zip hp).1
  have entered : (m.scopes.push (some f.closure)).Sees outer x m.scopes.size := sees.enter there
  refine ⟨entered.keeps fun id _ _ => ⟨parents id, ?_⟩, ?_⟩
  · rw [Scopes.hasOwn, own id x fun _ => other]
    rfl
  · show m.scopes.size < l.scopes.size
    rw [size]
    simp [Machine.mapScopes]

/-- A call takes no name of an old scope away and brings none. -/
theorem EntersCall.hasOwn_eq (h : EntersCall f args strict span m k) {id : ScopeId} (there : id < m.scopes.size) :
    k.scopes.hasOwn id x = m.scopes.hasOwn id x := by
  obtain ⟨-, l, bound, rfl⟩ := h
  obtain ⟨-, -, own⟩ := bindParameters_eq_ok bound
  show l.scopes.hasOwn id x = _
  rw [Scopes.hasOwn, own id x fun same => absurd same (Nat.ne_of_lt there)]
  exact congrArg Option.isSome (Scopes.own?_push _ _ _ _)

theorem bindParameters_failsAs (as : RuntimeFault → Prop) (scope : ScopeId) (ps : List (String × Value)) :
    (bindParameters scope strict span ps).FailsAs x as m := by
  induction ps generalizing m with
  | nil => exact .pure ()
  | cons p rest ih => exact (Run.FailsAs.declareIn _ _ _ _ _ _).bind fun _ _ _ => ih

/-- A call that fails with a fault of a name does so in the body of its function. -/
theorem callFunction_failsAs {n : Nat} :
    (callFunction (.bounded n) f args strict span).FailsAs x (fun fault => ∃ inside,
      EntersCall f args strict span m inside ∧ Point.Explains ⟨.body f.declaration, strict, inside⟩ x fault) m := by
  unfold callFunction
  dsimp only
  split
  · exact .raise _ rfl
  · next enough =>
    refine .step rfl ((bindParameters_failsAs _ _ _).bind fun _ l bound => ?_)
    have binds : (bindParameters m.scopes.size strict span (f.declaration.parameters.zip args)).Orderly
        (m.mapScopes (·.push (some f.closure))).frame.depth (fun _ => True) True := bindParameters_orderly _ _ _ _
    have frame : l.frame = m.frame := binds.frame_of_value bound
    refine Run.FailsAs.bind (.inCall fun error k ran about => ?_) fun flow _ _ => by cases flow <;> exact .pure _
    exact ⟨_, ⟨Nat.not_lt.1 enough, l, bound, by rw [frame]⟩, Point.Fails.explained (n := n) ⟨k, ran⟩ about⟩

end Eval

/-! ## Instances -/

/-- The machine has the scope of an instance of a class. -/
structure Machine.HasInstance (m : Machine) (c : Class) (i : ScopeId) : Prop where
  there : i < m.scopes.size
  parent : m.scopes.parent? i = some c.closure

namespace Machine.HasInstance

variable {m : Machine} {c : Class} {i : ScopeId}

theorem new (stands : c.closure < m.scopes.size) : (m.withInstance c).HasInstance c m.scopes.size := by
  refine ⟨?_, ?_⟩
  · simp [withInstance, mapScopes]
  · simp [withInstance, mapScopes, Scopes.parent?_push, stands]

/-- An instance lasts. -/
theorem after {α : Type} {base : Nat} {names : List String} {y : Run α} (h : m.HasInstance c i)
    (stays : y.Stays base m.frame.scope names) (size : base ≤ m.scopes.size) : (y.after m).HasInstance c i := by
  obtain ⟨-, path⟩ := stays m rfl size
  exact ⟨Nat.lt_of_lt_of_le h.there path.size_le, (path.parent?_eq h.there).trans h.parent⟩

/-- What the instance does not bind it sees as its class does. -/
theorem sees (h : m.HasInstance c i) {x : String} (unbound : m.scopes.hasOwn i x = false) :
    m.scopes.Sees c.closure x i :=
  .outward h.parent unbound .here

end Machine.HasInstance

/-- An instantiation begins to evaluate a text of the class or of one that it extends: the initial value of a
property, in the scope of the instance, or the body of the constructor. -/
inductive MemberBegins (n : Nat) (c : Class) (args : List Value) (strict : Bool) (span : Span) (m : Machine) :
    Point → Prop
  | initial {before rest : List Member} {visibility : Visibility} {d : VariableDeclaration} {e : Expr}
    {a : Eval.Assembly} {k : Machine} :
    c.members = before ++ .property visibility d :: rest → d.value = some e →
    Eval.layMembers (.bounded n) m.scopes.size strict span before ⟨[], none⟩ (m.withInstance c) = .ok a k →
    MemberBegins n c args strict span m
      ⟨.expression e, strict, { k with frame := ⟨m.scopes.size, k.frame.depth⟩ }⟩
  | constructor {f : Function} {a : Eval.Assembly} {k inside : Machine} :
    Eval.layMembers (.bounded n) m.scopes.size strict span c.members ⟨[], none⟩ (m.withInstance c) = .ok a k →
    a.constructor = some f → Eval.EntersCall f args strict span k inside →
    MemberBegins n c args strict span m ⟨.body f.declaration, strict, inside⟩

theorem Eval.layMembers_hasInstance {n : Nat} {c : Class} {strict : Bool} {span : Span} {m k : Machine}
    {members : List Member} {a a' : Assembly} (stands : c.closure < m.scopes.size)
    (laid : layMembers (.bounded n) m.scopes.size strict span members a (m.withInstance c) = .ok a' k) :
    k.HasInstance c m.scopes.size := by
  have stays : (layMembers (.bounded n) m.scopes.size strict span members a).Stays m.scopes.size
      (m.withInstance c).frame.scope [] :=
    layMembers_stays (Evaluator.bounded_stays _ n) (Nat.le_refl _) strict span members a
  have size : m.scopes.size ≤ (m.withInstance c).scopes.size := by simp [Machine.withInstance, Machine.mapScopes]
  have after := (Machine.HasInstance.new stands).after stays size
  rwa [Run.after, laid] at after

/-- Where a text of the instance begins that does not bind the name, the name is seen as from the scope of the
class, if the instance does not bind it. -/
theorem MemberBegins.clear {n : Nat} {c : Class} {args : List Value} {strict : Bool} {span : Span} {m : Machine}
    {p : Point} {x : String} (h : MemberBegins n c args strict span m p) (stands : c.closure < m.scopes.size)
    (unbound : p.machine.scopes.hasOwn m.scopes.size x = false) (free : x ∉ p.code.bound) :
    p.Clear c.closure x := by
  cases h with
  | initial members value laid =>
    have has := Eval.layMembers_hasInstance stands laid
    exact ⟨⟨has.sees unbound, has.there⟩, free⟩
  | constructor laid last enters =>
    have has := Eval.layMembers_hasInstance stands laid
    have there : m.scopes.size < (m.withInstance c).scopes.size := (Machine.HasInstance.new stands).there
    have closure := (Eval.laid_withInstance laid).closure _ last
    have parameters : x ∉ (Code.bound (.body _)) := free
    rw [Code.bound, List.mem_append, not_or] at parameters
    have sees := has.sees ((enters.hasOwn_eq has.there).symm.trans unbound)
    rw [← closure] at sees
    exact ⟨enters.sees sees (closure ▸ has.there) parameters.1, free⟩

namespace Eval

variable {n : Nat} {c : Class} {args : List Value} {strict : Bool} {span : Span} {m : Machine} {x : String}

/-- Members of which some are laid already: a fault of a name comes up in an initial value of the others. -/
theorem layMembers_failsAs {as : RuntimeFault → Prop} {scope : ScopeId} {members : List Member} (a : Assembly)
    (initial : ∀ before visibility d rest e a' k, members = before ++ .property visibility d :: rest →
      d.value = some e → layMembers (.bounded n) scope strict span before a m = .ok a' k → ∀ fault,
        Point.Explains ⟨.expression e, strict, { k with frame := ⟨scope, k.frame.depth⟩ }⟩ x fault → as fault) :
    (layMembers (.bounded n) scope strict span members a).FailsAs x as m := by
  induction members generalizing a m with
  | nil => exact .pure a
  | cons member rest ih =>
    refine Run.FailsAs.bind ?_ fun a' k ran => ih a' fun before visibility d rest' e b l split value laid => ?_
    · cases member with
      | property visibility d =>
        refine .congr (.bind (.within ?_) fun v _ _ => ?_) (layMember_property _ scope strict span a visibility d m)
        · cases value : d.value with
          | none => exact .pure _
          | some e =>
            intro error k ran about
            exact initial [] visibility d rest e a m rfl value rfl _ (Point.Fails.explained (n := n) ⟨k, ran⟩ about)
        · exact (Run.FailsAs.declareIn _ _ _ _ _ _).bind fun _ _ _ => .pure _
      | method visibility d =>
        have laid := layMember_method (.bounded n) scope strict span a visibility d m
        split at laid <;> exact .ok laid
    · exact initial (member :: before) visibility d rest' e b l (by rw [split]; rfl) value
        ((Run.bind_of_ok ran).trans laid)

/-- An instantiation that fails with a fault of a name does so in an initial value or in the constructor. -/
theorem instantiate_failsAs :
    (instantiate (.bounded n) c args strict span).FailsAs x
      (fun fault => ∃ p, MemberBegins n c args strict span m p ∧ p.Explains x fault) m := by
  refine .congr (l := m.withInstance c)
    (.bind (layMembers_failsAs ⟨[], none⟩ ?_) fun a laid laying => .bind ?_ fun _ built constructing => ?_)
    (instantiate_run ..)
  · intro before visibility d rest e a k split value laid fault explained
    exact ⟨_, .initial split value laid, explained⟩
  · cases last : a.constructor with
    | none => exact .pure ()
    | some f =>
      refine (callFunction_failsAs.mono ?_).bind fun _ _ _ => .pure ()
      rintro fault ⟨inside, enters, explained⟩
      exact ⟨_, .constructor laying last enters, explained⟩
  · -- the names that are read at the end are bound
    have there := (laid_withInstance laying).construct constructing
    obtain ⟨ps, read, -, -⟩ := readNames_bound span there.bound [] List.Pairwise.nil
    exact .step read (.step rfl (.pure _))

end Eval

/-! ## Where names mean what they mean -/

/-- At a point a name means the binding that it means from the scope `outer`: it has the same owner, the same value
or none, and can be given a new value or not alike.  So it does for what is made there. -/
structure Point.Resolves (p : Point) (outer : ScopeId) (x : String) : Prop where
  sees : p.machine.scopes.Sees outer x p.machine.frame.scope
  owner : p.machine.scopes.owner? p.machine.frame.scope x = p.machine.scopes.owner? outer x
  value : p.machine.scopes.value p.machine.frame.scope x = p.machine.scopes.value outer x
  writable : p.machine.scopes.writable p.machine.frame.scope x = p.machine.scopes.writable outer x

theorem Point.Clear.resolves {p : Point} {outer : ScopeId} {x : String} (h : p.Clear outer x) :
    p.Resolves outer x :=
  have sees := h.sees.sees
  ⟨sees, sees.owner?_eq, sees.value_eq, sees.writable_eq⟩

section

variable {p : Point} {outer : ScopeId} {x : String} (h : p.Resolves outer x) (self : Evaluator) (strict : Bool)
  (span : Span)

include h

/-- At such a point the name has the value that it has from the outer scope, or fails as it does from there. -/
theorem Point.Resolves.reads :
    Eval.expression self (.identifier span x) strict p.machine =
      match p.machine.scopes.value outer x with
      | .ok v => .ok v p.machine
      | .error fault => .error (.raised ⟨span, fault⟩) p.machine := by
  show Run.settle span (p.machine.scopes.value p.machine.frame.scope x) p.machine = _
  rw [h.value]
  cases p.machine.scopes.value outer x <;> rfl

/-- An assignment whose value has been evaluated at such a point gives it to the binding that the name means from
the outer scope, or fails as an assignment does from there. -/
theorem Point.Resolves.writes {s : Span} {value : Expr} {v : Value} {k : Machine}
    (evaluated : self.expression value strict k = .ok v p.machine) :
    Eval.expression self (.assign span (.identifier s x) value) strict k =
      match p.machine.scopes.writable outer x with
      | .ok owner => .ok v (p.machine.mapScopes (·.setValue owner x v))
      | .error fault => .error (.raised ⟨span, fault⟩) p.machine := by
  refine (Run.bind_of_ok evaluated).trans ?_
  show Run.reassign x v span p.machine = _
  cases found : p.machine.scopes.writable outer x <;> simp only [Run.reassign, h.writable.trans found]

end

/-- What a name means in the members of an instance, those of the class and those that it inherits.

The scopes where the ancestors of a class stand play no part: classes that stand in one scope and have the same
members in the same order are instantiated alike.  The members stand in the scope of the instance, whose parent is
and remains the scope where the class stands that is instantiated.  So at every point to which the evaluation of
an initial value or of the body of a constructor comes, whether it succeeds or fails in the end, a name that this
text does not bind, and that the instance does not bind, means what it means from the scope of that class.  The
same holds at every point of a later call of a method, and of all functions that are made at such points, which
see the name as the class does as long as no code binds it between.  There the name comes to the value that it has
from the scope of the class, and an assignment to it changes the binding that it means from there; either fails just
if it does from there.

No name is looked up anywhere else: an instantiation or a call that fails over a name has come to such a point at
which this name fails, or to one at which another text is run that fails so. -/
theorem memberNames_resolve_where_class_stands (n : Nat) (c : Class) (x : String) :
    (∀ (self : Evaluator) (c' : Class), c'.closure = c.closure → c'.members = c.members →
      ∀ args strict span,
        Eval.instantiate self c' args strict span = Eval.instantiate self c args strict span) ∧
    (∀ args strict span m, c.closure < m.scopes.size → (m.withInstance c).HasInstance c m.scopes.size ∧
      ∀ p q, MemberBegins n c args strict span m p → p.machine.scopes.hasOwn m.scopes.size x = false →
        x ∉ p.code.bound → p.Comes q → q.Resolves c.closure x) ∧
    (∀ m i, m.HasInstance c i →
      (∀ {α : Type} (y : Run α) base names, base ≤ m.scopes.size → y.Stays base m.frame.scope names →
        (y.after m).HasInstance c i) ∧
      (∀ self strict span a visibility d, d.shownName ≠ constructorName →
        ∃ a' k, Eval.layMember self i strict span a (.method visibility d) m = .ok a' k ∧
          k.scopes.value i d.shownName = .ok (.function ⟨m.stamps, d, i⟩)) ∧
      (m.scopes.hasOwn i x = false → m.scopes.Sees c.closure x i)) ∧
    (∀ f args strict span m inside q, m.scopes.Sees c.closure x f.closure → f.closure < m.scopes.size →
      Eval.EntersCall f args strict span m inside → x ∉ (Code.body f.declaration).bound →
      Point.Comes ⟨.body f.declaration, strict, inside⟩ q → q.Resolves c.closure x) ∧
    (∀ {α : Type} (y : Run α) names m t, m.scopes.Sees c.closure x t → t < m.scopes.size →
      y.Stays m.scopes.size m.frame.scope names →
      (c.closure < m.frame.scope → m.scopes.Sees m.frame.scope x t → x ∉ names) →
      (y.after m).scopes.Sees c.closure x t) ∧
    (∀ p : Point, p.Resolves c.closure x → ∀ self strict span,
      (Eval.expression self (.identifier span x) strict p.machine =
        match p.machine.scopes.value c.closure x with
        | .ok v => .ok v p.machine
        | .error fault => .error (.raised ⟨span, fault⟩) p.machine) ∧
      ∀ s value v k, self.expression value strict k = .ok v p.machine →
        Eval.expression self (.assign span (.identifier s x) value) strict k =
          match p.machine.scopes.writable c.closure x with
          | .ok owner => .ok v (p.machine.mapScopes (·.setValue owner x v))
          | .error fault => .error (.raised ⟨span, fault⟩) p.machine) ∧
    (∀ args strict span m error k,
      Eval.instantiate (.bounded n) c args strict span m = .error (.raised error) k →
      error.fault.ofName? = some x →
      ∃ p q, MemberBegins n c args strict span m p ∧ p.Comes q ∧ q.Raises x error.fault) ∧
    ∀ f args strict span m error k,
      Eval.callFunction (.bounded n) f args strict span m = .error (.raised error) k →
      error.fault.ofName? = some x →
      ∃ inside q, Eval.EntersCall f args strict span m inside ∧
        Point.Comes ⟨.body f.declaration, strict, inside⟩ q ∧ q.Raises x error.fault := by
  refine ⟨?_, ?_, ?_, ?_, ?_, ?_, ?_, ?_⟩
  · intro self c' closure members args strict span
    rw [← Class.members_eq, ← Class.members_eq] at members
    rw [Eval.instantiate, Eval.instantiate, closure, members]
  · intro args strict span m stands
    exact ⟨.new stands, fun p q begins unbound free comes =>
      (comes.clear (begins.clear stands unbound free)).resolves⟩
  · intro m i has
    refine ⟨fun y base names size stays => has.after stays size, ?_, has.sees⟩
    intro self strict span a visibility d plain
    rw [Eval.layMember_method, if_neg plain]
    exact ⟨_, _, rfl, Scopes.value_of_own (Scopes.ownValue?_bind_self has.there _ _ _)⟩
  · intro f args strict span m inside q sees there enters free comes
    have parameters := free
    rw [Code.bound, List.mem_append, not_or] at parameters
    exact (comes.clear ⟨enters.sees sees there parameters.1, free⟩).resolves
  · intro α y names m t sees there stays free
    exact stays.sees sees there free
  · intro p resolves self strict span
    exact ⟨resolves.reads self strict span, fun s value v k => resolves.writes self strict span⟩
  · intro args strict span m error k failed about
    obtain ⟨p, begins, q, comes, raises⟩ := Eval.instantiate_failsAs error k failed about
    exact ⟨p, q, begins, comes, raises⟩
  · intro f args strict span m error k failed about
    obtain ⟨inside, enters, q, comes, raises⟩ := Eval.callFunction_failsAs error k failed about
    exact ⟨inside, q, enters, comes, raises⟩

/-- The function `get() { return secret }`. -/
def secretGetter : FunctionDeclaration :=
  ⟨some "get", [], [.returnValue ⟨3, 35, 6⟩ (.identifier ⟨3, 42, 6⟩ "secret")], false, none⟩

/-- A class without members of its own, which stands in the global scope, and which extends one with the method
`get` that stands in another scope. -/
def splitClass : Class :=
  let base : ClassDeclaration := ⟨"Base", none, [.method .visible secretGetter]⟩
  ⟨⟨1, ⟨"Derived", some "Base", []⟩, 0⟩, [⟨0, base, 1⟩]⟩

/-- A machine on which `secret` is bound in the global scope and in the one where the ancestor stands. -/
def splitScopes : Machine :=
  ⟨(((Scopes.empty.push none).push (some 0)).bind 0 "secret" (.string "sub") false).bind 1 "secret"
    (.string "base") false, ⟨0, 0⟩, 5, .live⟩

/-- The machine inside a call of the method `get` of an instance of that class. -/
def insideGet : Machine :=
  ⟨(splitScopes.withInstance splitClass).scopes.push (some 2), ⟨3, 1⟩, 5, .live⟩

/-- There the name `secret` means what it means where the class stands that was instantiated, and comes to that
value. -/
theorem insideGet_resolves_where_class_stands :
    Eval.EntersCall ⟨5, secretGetter, 2⟩ [] false ⟨1, 1, 1⟩ (splitScopes.withInstance splitClass) insideGet ∧
      Point.Comes ⟨.body secretGetter, false, insideGet⟩ ⟨.name "secret", false, insideGet⟩ ∧
      insideGet.scopes.value 3 "secret" = .ok (.string "sub") ∧
      Eval.expression (.bounded 0) (.identifier ⟨3, 42, 6⟩ "secret") false insideGet =
        .ok (.string "sub") insideGet := by
  obtain ⟨-, instances, scopes, calls, -, means, -⟩ := memberNames_resolve_where_class_stands 1 splitClass "secret"
  have has := (instances [] false ⟨1, 1, 1⟩ splitScopes (by decide)).1
  have sees := (scopes _ _ has).2.2 (by decide)
  have enters : Eval.EntersCall ⟨5, secretGetter, 2⟩ [] false ⟨1, 1, 1⟩ (splitScopes.withInstance splitClass)
      insideGet := ⟨Nat.le_refl _, _, rfl, rfl⟩
  have comes : Point.Comes ⟨.body secretGetter, false, insideGet⟩ ⟨.name "secret", false, insideGet⟩ :=
    .head .body (.head (.first rfl) (.head (.begin (List.mem_singleton_self _)) (.single .identifier)))
  have resolves := calls _ [] false ⟨1, 1, 1⟩ _ _ _ sees has.there enters (by decide) comes
  have outside : insideGet.scopes.value splitClass.closure "secret" = .ok (.string "sub") := Scopes.value_of_own rfl
  have read : Eval.expression (.bounded 0) (.identifier ⟨3, 42, 6⟩ "secret") false insideGet = _ :=
    (means _ resolves (.bounded 0) false ⟨3, 42, 6⟩).1
  simp only [outside] at read
  exact ⟨enters, comes, resolves.value.trans outside, read⟩

/-- A program in which a class stands in another scope than the one it extends, and a name is bound in both. -/
def splitLineage : Machine :=
  ((Machine.initial (.closed [] [] 0.0)).run 20
    "function mk() \x7b let secret = \"base\"; class Base \x7b public function get() \x7b return secret \x7d \x7d; return Base \x7d
     let secret = \"sub\"
     const B = mk()
     class Derived extends B \x7b \x7d
     let d = new Derived()").2

/-- The ancestor stands where `secret` is one text, and the method that is inherited from it gives the other. -/
theorem splitLineage_resolves_elsewhere :
    (match splitLineage.scopes.value 0 "Derived" with
      | .ok (.classValue c) => c.ancestors.map fun layer : ClassLayer =>
        (splitLineage.scopes.value layer.closure "secret").toOption.map Value.text
      | _ => []) = [some "\"base\""] ∧
      (match (splitLineage.run 20 "d.get()").1 with
        | .value v => some v.text
        | _ => none) = some "\"sub\"" := by
  decide +kernel

end ScriptLang
