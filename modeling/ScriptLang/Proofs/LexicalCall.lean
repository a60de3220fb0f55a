/-
# ScriptLang.Proofs.LexicalCall — a call knows the scope of its function, not that of its caller.

A call binds its arguments in a new scope inside the one that the function has, and runs the body there.  Where the
caller stands plays no part in this.  The number of calls around the caller is passed on to the body, one greater; a
run asks only whether any call encloses it, and inside the body one always does.  So a call comes to the same from
everywhere, and the frame of the caller is given back to it.

The scopes that the body stands in are new ones, up to that of the call, whose parent is the scope of the function.
So of the scopes that were there before the call, the body finds a name only in one that is seen from the function's.
-/
import ScriptLang.Proofs.Invariant.Rules
import ScriptLang.Proofs.Resolution
import ScriptLang.Proofs.Scope.Owner

namespace ScriptLang

/-! ## Runs that ignore the frame -/

/-- The invariant under which every value is good. -/
def Invariant.any : Invariant Unit where
  later _ _ := True
  value _ _ := True
  fresh _ _ := True
  shape _ := True
  refl _ := trivial
  trans _ _ := trivial
  mono _ _ := trivial
  plain _ := trivial
  elements _ _ _ := trivial
  properties _ := ⟨trivial, fun _ _ => trivial⟩
  empty := trivial
  insert _ _ _ := trivial
  make _ _ := ⟨(), trivial, trivial, trivial⟩

theorem Invariant.any_holds (m : Machine) : Invariant.any.Holds () m := ⟨fun _ _ _ _ => trivial, trivial⟩

namespace Run

variable {α β : Type}

/-- In another frame a run does the same, and gives that frame back. -/
def IgnoresFrame (x : Run α) : Prop := ∀ m frame, x { m with frame := frame } = giveBack frame (x m)

namespace IgnoresFrame

theorem pure (a : α) : IgnoresFrame (Pure.pure a) := fun _ _ => rfl

theorem raise (span : Span) (fault : RuntimeFault) : IgnoresFrame (Run.raise span fault : Run α) := fun _ _ => rfl

theorem newScope (parent : ScopeId) : IgnoresFrame (Run.newScope parent) := fun _ _ => rfl

theorem declareIn (scope : ScopeId) (name : String) (v : Value) (constant strict : Bool) (span : Span) :
    IgnoresFrame (Run.declareIn scope name v constant strict span) := by
  intro m frame
  unfold Run.declareIn
  dsimp only
  split <;> rfl

theorem bind {x : Run α} {f : α → Run β} (h : x.IgnoresFrame) (k : ∀ a, (f a).IgnoresFrame) :
    (x >>= f).IgnoresFrame := by
  intro m frame
  rw [bind_run, bind_run, h m frame]
  cases x m with
  | ok a n => exact k a n frame
  | error halt n => rfl

/-- The body of a call has a frame of its own.  All that is left of the caller's is how many calls enclose it, and the
body is inside one in any case. -/
theorem inCall {R : Unit → α → Prop} {x : Run α} (scope : ScopeId) (h : x.Upholds .any () R) :
    (Run.inCall scope x).IgnoresFrame := by
  intro m frame
  let inside : Machine := { m with frame := ⟨scope, m.frame.depth + 1⟩ }
  have both := h inside (frame.depth + 1) (Invariant.any_holds inside) (by simp [inside])
  rw [inCall_run, inCall_run]
  show giveBack frame (x (inside.atDepth (frame.depth + 1))) = giveBack frame (giveBack m.frame (x inside))
  generalize x inside = end₁, x (inside.atDepth (frame.depth + 1)) = end₂ at both
  cases both <;> rfl

end IgnoresFrame

end Run

namespace Eval

open Run

theorem bindParameters_ignoresFrame (scope : ScopeId) (strict : Bool) (span : Span) (ps : List (String × Value)) :
    (bindParameters scope strict span ps).IgnoresFrame := by
  induction ps with
  | nil => exact .pure ()
  | cons p rest ih => exact (IgnoresFrame.declareIn _ _ _ _ _ _).bind fun _ => ih

theorem callFunction_ignoresFrame (n : Nat) (f : Function) (args : List Value) (strict : Bool) (span : Span) :
    (callFunction (.bounded n) f args strict span).IgnoresFrame := by
  unfold callFunction
  dsimp only
  split
  · exact .raise _ _
  · refine (IgnoresFrame.newScope f.closure).bind fun scope => ?_
    refine (bindParameters_ignoresFrame scope strict span _).bind fun _ => ?_
    have body := (Evaluator.bounded_upholds Invariant.any n).block (w := ()) f.declaration.body strict
    refine (IgnoresFrame.inCall scope body).bind fun flow => ?_
    cases flow <;> exact .pure _

end Eval

/-! ## Scopes that a body stands in -/

namespace Scopes

variable {s s' s'' : Scopes} {base : Nat} {outer t owner : ScopeId} {x : String}

/-- Going outward from a scope one comes to the scope `outer`, and none of those before it is older than `base`. -/
inductive Reaches (s : Scopes) (base : Nat) (outer : ScopeId) : ScopeId → Prop
  | here : Reaches s base outer outer
  | outward {t p : ScopeId} (young : base ≤ t) (parent : s.parent? t = some p) (rest : Reaches s base outer p) :
    Reaches s base outer t

theorem Reaches.keeps (h : s.Reaches base outer t) (same : ∀ id ≤ t, s'.parent? id = s.parent? id) :
    s'.Reaches base outer t := by
  induction h with
  | here => exact .here
  | @outward t p young parent _ ih =>
    have older : p < t := parent?_lt parent
    exact .outward young ((same t (Nat.le_refl _)).trans parent)
      (ih fun id le => same id (Nat.le_trans le (Nat.le_of_lt older)))

/-- From a scope that is none of the older ones, or whose parent finds the same, a name belongs where it belongs from
its parent. -/
theorem Belongs.outward (h : s.Belongs t x owner) (other : owner ≠ t) :
    ∃ p, s.parent? t = some p ∧ s.Belongs p x owner := by
  obtain ⟨sees, binds⟩ := h
  cases sees with
  | here => exact absurd rfl other
  | outward parent _ rest => exact ⟨_, parent, rest, binds⟩

/-- What belongs to an older scope is found from the scope that one comes to. -/
theorem Reaches.belongs (h : s.Reaches base outer t) (found : s.Belongs t x owner) (old : owner < base) :
    s.Belongs outer x owner := by
  induction h with
  | here => exact found
  | outward young parent _ ih =>
    obtain ⟨p, parent', found⟩ := found.outward (Nat.ne_of_lt (Nat.lt_of_lt_of_le old young))
    obtain rfl := Option.some.inj (parent.symm.trans parent')
    exact ih found

/-- Scopes after changes: those that were there have kept their parents, and the older ones their names. -/
structure Extends (base : Nat) (s s' : Scopes) : Prop where
  size : s.size ≤ s'.size
  parents : ∀ id < s.size, s'.parent? id = s.parent? id
  names : ∀ id < base, ∀ x, s'.hasOwn id x = s.hasOwn id x

theorem Extends.trans (h : Extends base s s') (k : Extends base s' s'') : Extends base s s'' where
  size := Nat.le_trans h.size k.size
  parents id hid := (k.parents id (Nat.lt_of_lt_of_le hid h.size)).trans (h.parents id hid)
  names id hid x := (k.names id hid x).trans (h.names id hid x)

theorem Path.extends {here : ScopeId} {names : List String} (h : Path base here names s s') (young : base ≤ here)
    (size : base ≤ s.size) : Extends base s s' where
  size := h.size_le
  parents _ := h.parent?_eq
  names _ hid x := ((h.keeps size hid).2 (Nat.ne_of_lt (Nat.lt_of_lt_of_le hid young))).own x List.not_mem_nil

end Scopes

/-- A machine stands in a scope that is not older than `base`, inside the scope `outer`, and since the scopes were `s`
it has only extended them. -/
structure Machine.Inside (k : Machine) (base : Nat) (outer : ScopeId) (s : Scopes) : Prop where
  extended : s.Extends base k.scopes
  reaches : k.scopes.Reaches base outer k.frame.scope
  young : base ≤ k.frame.scope
  there : k.frame.scope < k.scopes.size

/-- Every move of such a machine leads to one. -/
theorem Machine.Move.inside {names : List String} {m k : Machine} {base : Nat} {outer : ScopeId} {s : Scopes}
    (move : Move names m k) (h : m.Inside base outer s) : k.Inside base outer s := by
  have size : base ≤ m.scopes.size := Nat.le_trans h.young (Nat.le_of_lt h.there)
  -- the present scope is the old one, or a new scope in it
  have after {names : List String} {l : Machine} (path : Scopes.Path base m.frame.scope names m.scopes l.scopes) :
      s.Extends base l.scopes ∧ l.scopes.Reaches base outer m.frame.scope := by
    have extended := path.extends h.young size
    refine ⟨h.extended.trans extended, h.reaches.keeps fun id le => ?_⟩
    exact extended.parents id (Nat.lt_of_le_of_lt le h.there)
  have stays {names : List String} {l : Machine} (path : Scopes.Path base m.frame.scope names m.scopes l.scopes)
      (frame : l.frame = m.frame) : l.Inside base outer s := by
    obtain ⟨extended, reaches⟩ := after path
    refine ⟨extended, ?_, ?_, ?_⟩ <;> rw [frame]
    · exact reaches
    · exact h.young
    · exact Nat.lt_of_lt_of_le h.there path.size_le
  cases move with
  | run ran_stays ran =>
    obtain ⟨frame, path⟩ := (ran_stays base).of_ok ran rfl size
    exact stays path frame
  | enter =>
    have path : Scopes.Path base m.frame.scope [] m.scopes m.entered.scopes := .single (.enter _ _)
    obtain ⟨extended, reaches⟩ := after path
    refine ⟨extended, .outward size ?_ reaches, size, by simp [entered]⟩
    simp [entered, Scopes.parent?_push, h.there]
  | declare _ mem v constant => exact stays (.single (.declareHere _ mem v constant)) rfl
  | beginPass =>
    have path : Scopes.Path base m.frame.scope [] m.scopes _ := .single (.beginPass m.scopes h.young)
    exact stays path rfl

theorem Machine.Moves.inside {names : List String} {m k : Machine} {base : Nat} {outer : ScopeId} {s : Scopes}
    (moves : Moves names m k) (h : m.Inside base outer s) : k.Inside base outer s := by
  induction moves with
  | refl => exact h
  | tail _ move ih => exact move.inside ih

/-- Of the scopes that were there before a call, the body finds a name at most in the one that the name belongs to
from the scope of the function. -/
theorem Eval.EntersCall.belongs {f : Function} {args : List Value} {strict : Bool} {span : Span}
    {m inside : Machine} {q : Point} {x : String} {owner : ScopeId} (enters : EntersCall f args strict span m inside)
    (comes : Point.Comes ⟨.body f.declaration, strict, inside⟩ q)
    (found : q.machine.scopes.Belongs q.machine.frame.scope x owner) (old : owner < m.scopes.size) :
    m.scopes.Belongs f.closure x owner := by
  obtain ⟨-, l, bound, rfl⟩ := enters
  obtain ⟨size, parents, own⟩ := bindParameters_eq_ok bound
  have new : m.scopes.size < l.scopes.size := by simp [size, Machine.mapScopes]
  have begins : Machine.Inside { l with frame := ⟨m.scopes.size, m.frame.depth + 1⟩ } m.scopes.size m.scopes.size
      l.scopes := ⟨⟨Nat.le_refl _, fun _ _ => rfl, fun _ _ _ => rfl⟩, .here, Nat.le_refl _, new⟩
  obtain ⟨extended, reaches, -, -⟩ := comes.moves.1.inside begins
  -- from the scope of the call on, the way leads to the scope of the function, if that is there
  obtain ⟨p, parent, found⟩ := (reaches.belongs found old).outward (Nat.ne_of_lt old)
  rw [extended.parents _ new, parents, Machine.mapScopes, Scopes.parent?_push, if_pos rfl,
    Option.filter_eq_some_iff] at parent
  obtain ⟨closure, there⟩ := parent
  obtain rfl := Option.some.inj closure
  rw [← Scopes.owner?_eq_some_iff] at found ⊢
  rw [← found]
  symm
  refine Scopes.owner?_congr (fun id hid => ?_) (fun id hid => ?_) _ (of_decide_eq_true there)
  · rw [extended.parents id (Nat.lt_trans hid new), parents, Machine.mapScopes, Scopes.parent?_push,
      if_neg (Nat.ne_of_lt hid)]
  · rw [extended.names id hid, Scopes.hasOwn, own id x fun same => absurd same (Nat.ne_of_lt hid)]
    exact congrArg Option.isSome (Scopes.own?_push _ _ _ _)

/-! ## Calls are lexically scoped -/

/-- For every function of a program, all arguments, in either mode, from every machine and for any bound on steps:

A call from another scope, or from inside another number of calls, comes to the same value, error or halt, with the
same scopes, stamps and host after it, and the frame of the caller is given back.

Wherever the evaluation of the body comes, a name that belongs there to a scope that was there before the call, such
as one of the caller's, belongs to this scope as seen from the scope of the function, when the call was made. -/
theorem call_is_lexical (n : Nat) (f : Function) (args : List Value) (strict : Bool) (span : Span) (m : Machine) :
    (∀ frame, Eval.callFunction (.bounded n) f args strict span { m with frame := frame } =
      Run.giveBack frame (Eval.callFunction (.bounded n) f args strict span m)) ∧
    ∀ inside q x owner, Eval.EntersCall f args strict span m inside →
      Point.Comes ⟨.body f.declaration, strict, inside⟩ q →
      q.machine.scopes.Belongs q.machine.frame.scope x owner → owner < m.scopes.size →
      m.scopes.Belongs f.closure x owner :=
  ⟨Eval.callFunction_ignoresFrame n f args strict span m, fun _ _ _ _ enters comes found old =>
    enters.belongs comes found old⟩

/-- A caller that stands in the inner one of two scopes that bind `secret`, inside two calls. -/
def innerCaller : Machine := { splitScopes with frame := ⟨1, 2⟩ }

/-- The machine inside its call of a function that has the outer scope. -/
def insideCall : Machine := ⟨splitScopes.scopes.push (some 0), ⟨2, 3⟩, 5, .live⟩

/-- The function `get` of the outer scope, called from the inner one, finds the outer `secret`. -/
theorem secretGetter_finds_outer_secret :
    (match Eval.callFunction (.bounded 4) ⟨4, secretGetter, 0⟩ [] false ⟨1, 1, 1⟩ innerCaller with
      | .ok v _ => some v.text
      | .error _ _ => none) = some "\"sub\"" ∧
    innerCaller.scopes.Belongs 1 "secret" 1 ∧
    Eval.EntersCall ⟨4, secretGetter, 0⟩ [] false ⟨1, 1, 1⟩ innerCaller insideCall ∧
    Point.Comes ⟨.body secretGetter, false, insideCall⟩ ⟨.name "secret", false, insideCall⟩ ∧
    insideCall.scopes.Belongs 2 "secret" 0 ∧ innerCaller.scopes.Belongs 0 "secret" 0 := by
  have enters : Eval.EntersCall ⟨4, secretGetter, 0⟩ [] false ⟨1, 1, 1⟩ innerCaller insideCall :=
    ⟨Nat.le_refl _, _, rfl, rfl⟩
  have comes : Point.Comes ⟨.body secretGetter, false, insideCall⟩ ⟨.name "secret", false, insideCall⟩ :=
    .head .body (.head (.first rfl) (.head (.begin (List.mem_singleton_self _)) (.single .identifier)))
  have found : insideCall.scopes.Belongs 2 "secret" 0 := ⟨.outward rfl rfl .here, rfl⟩
  have lexical := call_is_lexical 4 ⟨4, secretGetter, 0⟩ [] false ⟨1, 1, 1⟩
  refine ⟨?_, ⟨.here, rfl⟩, enters, comes, found, ?_⟩
  · -- as from the outer scope, outside all calls
    rw [innerCaller, (lexical splitScopes).1]
    decide +kernel
  · exact (lexical innerCaller).2 _ _ _ _ enters comes found (by decide)

end ScriptLang
