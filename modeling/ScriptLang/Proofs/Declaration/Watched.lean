/-
# ScriptLang.Proofs.Declaration.Watched — a scope that is watched for refusals.

To say that a scope never refuses a declaration, a program is run twice.  The second evaluator watches the
scope: it does all that the first one does, but where code that stands in the scope is about to declare a name
that the scope refuses, it stops, as a run does that has used up its steps.  The first run fails there, and
nothing catches an error; so as long as both come to the same, the scope has refused nothing.

Code declares names in the scope in which it stands, by the declarations of variables, functions and classes
and by function expressions with a name, and these are watched.  All other declarations, of parameters, of
counters and of the members of an instance, are made in a scope that has just been made for them.
-/
import ScriptLang.Proofs.Isolation

namespace ScriptLang

/-! ## Evaluators that watch -/

/-- A run that declares a name where it stands.  It is stopped if that is the watched scope and this scope
refuses the name. -/
def Run.unlessRefused {α : Type} (watched : ScopeId) (name : String) (strict : Bool) (x : Run α) : Run α :=
  fun m => if m.frame.scope = watched ∧ m.scopes.refuses watched name strict then outOfFuel m else x m

namespace Eval

open Run

variable (watched : ScopeId)

/-- Makes a function. -/
def watchedFunction (d : FunctionDeclaration) (strict : Bool) (span : Span) : Run Value :=
  match d.name with
  | some name => unlessRefused watched name strict (declareFunction d strict span)
  | none => declareFunction d strict span

/-- Makes a class. -/
def watchedClass (d : ClassDeclaration) (strict : Bool) (span : Span) : Run Value :=
  unlessRefused watched d.name strict (declareClass d strict span)

variable (self : Evaluator)

/-- Declares a variable.  Its initial value is evaluated first, and may declare names too. -/
def watchedVariable (d : VariableDeclaration) (strict : Bool) (span : Span) : Run Value := do
  let v ← initialValue self d.value strict
  let scope ← here
  unlessRefused watched d.name strict (declareIn scope d.name v d.constant strict span)

/-- A statement. -/
def watchedStatement (s : Stmt) (strict : Bool) : Run Flow :=
  match s with
  | .variableDeclaration span d => .value <$> watchedVariable watched self d strict span
  | .functionDeclaration span d => .value <$> watchedFunction watched d strict span
  | .classDeclaration span d => .value <$> watchedClass watched d strict span
  | s => statement self s strict

/-- The statements of a block, up to the first that does not end with a value. -/
def watchedBlock : List Stmt → Bool → Run Flow
  | [], _ => return .value .null
  | s :: rest, strict =>
    match strictDirective? s with
    | some mode => watchedBlock rest mode
    | none => do
      match ← watchedStatement watched self s strict with
      | .value _ => watchedBlock rest strict
      | other => return other

/-- An expression. -/
def watchedExpression (e : Expr) (strict : Bool) : Run Value :=
  match e with
  | .function span d => watchedFunction watched d strict span
  | e => expression self e strict

end Eval

mutual

/-- The value of an expression, in steps bounded by `n`, while a scope is watched. -/
def watchExpression (watched : ScopeId) : Nat → Expr → Bool → Machine → EStateM.Result Halt Machine Value
  | 0, _, _, m => Run.outOfFuel m
  | n + 1, e, strict, m =>
    Eval.watchedExpression watched ⟨n, watchExpression watched n, watchBlock watched n⟩ e strict m

/-- How a block ends, in steps bounded by `n`, while a scope is watched. -/
def watchBlock (watched : ScopeId) : Nat → List Stmt → Bool → Machine → EStateM.Result Halt Machine Flow
  | 0, _, _, m => Run.outOfFuel m
  | n + 1, body, strict, m =>
    Eval.watchedBlock watched ⟨n, watchExpression watched n, watchBlock watched n⟩ body strict m

end

/-- The evaluator with a bound that watches a scope. -/
def Evaluator.watching (watched : ScopeId) (n : Nat) : Evaluator :=
  ⟨n, watchExpression watched n, watchBlock watched n⟩

/-! ## Runs that no refusal stops -/

/-- The scopes have the watched one, and if this is where the code stands, each of the names can be declared
there once. -/
def Scopes.Admits (watched here : ScopeId) (names : List String) (s : Scopes) : Prop :=
  watched < s.size ∧ (here = watched → names.Nodup ∧ ∀ name ∈ names, s.refuses watched name true = false)

/-- In the scope `here`, the run `x` watches a scope, `y` does not, and both do the same from every machine
that admits the names that they declare where they stand. -/
structure Run.Unhindered {α : Type} (watched here : ScopeId) (names : List String) (x y : Run α) : Prop where
  stays : y.Stays (watched + 1) here names
  same : ∀ m : Machine, m.frame.scope = here → m.scopes.Admits watched here names → x m = y m

theorem Scopes.refuses_of_strict {s : Scopes} {id : ScopeId} {name : String}
    (h : s.refuses id name true = false) (strict : Bool) : s.refuses id name strict = false := by
  cases strict with
  | true => exact h
  | false => exact s.refuses_lenient id name

/-- When another pass of its loop begins, a scope refuses nothing. -/
theorem Scopes.refuses_beginPass (s : Scopes) {id : ScopeId} (h : id < s.size) (name : String) (strict : Bool) :
    (s.beginPass id).refuses id name strict = false := by
  unfold refuses own? beginPass
  rw [bindings_update s id id _ h, if_pos rfl, Bindings.get?_carry]
  cases (s.bindings id).get? name <;> simp

namespace Scopes.Admits

variable {watched here : ScopeId} {names first rest : List String} {s t : Scopes}

theorem left (h : s.Admits watched here (first ++ rest)) : s.Admits watched here first := by
  refine ⟨h.1, fun stands => ?_⟩
  obtain ⟨once, free⟩ := h.2 stands
  exact ⟨(List.nodup_append.1 once).1, fun name hm => free name (List.mem_append_left _ hm)⟩

/-- After the first names were declared, the scopes still admit the others. -/
theorem next (h : s.Admits watched here (first ++ rest)) (path : Path (watched + 1) here first s t) :
    t.Admits watched here rest := by
  refine ⟨Nat.lt_of_lt_of_le h.1 path.size_le, fun stands => ?_⟩
  obtain ⟨once, free⟩ := h.2 stands
  obtain ⟨-, restOnce, apart⟩ := List.nodup_append.1 once
  refine ⟨restOnce, fun name hm => ?_⟩
  have other : name ∉ first := fun declared => apart name declared name hm rfl
  rw [path.refuses_eq (Nat.lt_succ_self watched) other]
  exact free name (List.mem_append_right _ hm)

theorem perm {names' : List String} (h : s.Admits watched here names') (p : names.Perm names') :
    s.Admits watched here names := by
  refine ⟨h.1, fun stands => ?_⟩
  obtain ⟨once, free⟩ := h.2 stands
  exact ⟨p.nodup_iff.2 once, fun name hm => free name (p.subset hm)⟩

/-- Where the code stands elsewhere, all names are admitted. -/
theorem of_ne (there : watched < s.size) (h : here ≠ watched) : s.Admits watched here names :=
  ⟨there, fun stands => absurd stands h⟩

theorem push (h : s.Admits watched here names) (parent : Option ScopeId) :
    (s.push parent).Admits watched here names := by
  refine ⟨?_, fun stands => ?_⟩
  · rw [size_push]
    exact Nat.lt_succ_of_lt h.1
  · obtain ⟨once, free⟩ := h.2 stands
    refine ⟨once, fun name hm => ?_⟩
    rw [refuses, own?_push]
    exact free name hm

theorem new (s : Scopes) (parent : Option ScopeId) (once : names.Nodup) :
    (s.push parent).Admits s.size here names := by
  refine ⟨?_, fun _ => ⟨once, fun name _ => ?_⟩⟩
  · rw [size_push]
    exact Nat.lt_succ_self _
  · rw [refuses, own?_push_size]

theorem beginPass (there : watched < s.size) (once : names.Nodup) :
    (s.beginPass watched).Admits watched here names := by
  refine ⟨?_, fun _ => ⟨once, fun name _ => s.refuses_beginPass there name true⟩⟩
  rwa [size_beginPass]

end Scopes.Admits

namespace Run.Unhindered

variable {α β : Type} {watched here : ScopeId} {names first rest : List String}

/-- A run that is not watched. -/
theorem refl {x : Run α} (h : x.Stays (watched + 1) here names) : Unhindered watched here names x x :=
  ⟨h, fun _ _ _ => rfl⟩

theorem pure (a : α) : Unhindered watched here names (Pure.pure a : Run α) (Pure.pure a) := refl (.pure a)

theorem raise (span : Span) (fault : RuntimeFault) :
    Unhindered watched here names (Run.raise span fault : Run α) (Run.raise span fault) :=
  refl (.raise span fault)

theorem perm {names' : List String} {x y : Run α} (h : Unhindered watched here names x y)
    (p : names.Perm names') : Unhindered watched here names' x y :=
  ⟨h.stays.mono p.subset, fun m stands admits => h.same m stands (admits.perm p)⟩

/-- Where the code stands elsewhere, it does not matter how often a name is declared. -/
theorem elsewhere {names' : List String} {x y : Run α} (h : Unhindered watched here names x y)
    (ne : here ≠ watched) (hn : names ⊆ names') : Unhindered watched here names' x y :=
  ⟨h.stays.mono hn, fun m stands admits => h.same m stands (.of_ne admits.1 ne)⟩

/-- One run after another: what the first one declares the second one does not declare again. -/
theorem bind {x y : Run α} {f g : α → Run β} (h : Unhindered watched here first x y)
    (k : ∀ a, Unhindered watched here rest (f a) (g a)) :
    Unhindered watched here (first ++ rest) (x >>= f) (y >>= g) := by
  refine ⟨?_, fun m stands admits => ?_⟩
  · have declaresFirst := h.stays.mono (List.subset_append_left first rest)
    exact declaresFirst.bind fun a => (k a).stays.mono (List.subset_append_right first rest)
  · refine bind_congr_at (h.same m stands admits.left) fun a n ran => ?_
    obtain ⟨frame, path⟩ := h.stays.of_ok ran stands admits.1
    exact (k a).same n (by rw [frame, stands]) (admits.next path)

/-- One run after another, where the second one declares nothing. -/
theorem bind_quiet {x y : Run α} {f g : α → Run β} (h : Unhindered watched here names x y)
    (k : ∀ a, Unhindered watched here [] (f a) (g a)) : Unhindered watched here names (x >>= f) (y >>= g) := by
  simpa using h.bind k

/-- One run after another, where the first one is not watched and declares nothing. -/
theorem after_quiet {x : Run α} {f g : α → Run β} (h : x.Stays (watched + 1) here [])
    (k : ∀ a, Unhindered watched here names (f a) (g a)) :
    Unhindered watched here names (x >>= f) (x >>= g) :=
  (refl h).bind k

theorem map (f : α → β) {x y : Run α} (h : Unhindered watched here names x y) :
    Unhindered watched here names (f <$> x) (f <$> y) := by
  rw [map_eq_pure_bind, map_eq_pure_bind]
  exact h.bind_quiet fun a => .pure _

theorem bind_here {f g : ScopeId → Run β} (k : Unhindered watched here names (f here) (g here)) :
    Unhindered watched here names (Run.here >>= f) (Run.here >>= g) := by
  refine ⟨.bind_here k.stays, fun m stands admits => ?_⟩
  subst stands
  exact k.same m rfl admits

/-- A new scope is younger than the watched one. -/
theorem bind_newScope (parent : ScopeId) {f g : ScopeId → Run β}
    (k : ∀ scope, watched < scope → Unhindered watched here names (f scope) (g scope)) :
    Unhindered watched here names (Run.newScope parent >>= f) (Run.newScope parent >>= g) := by
  refine ⟨.bind_newScope parent fun id hid => (k id hid).stays, fun m stands admits => ?_⟩
  exact (k m.scopes.size admits.1).same (m.mapScopes (·.push (some parent))) stands (admits.push _)

/-- What runs in a scope younger than the watched one is not hindered, whatever it declares there. -/
theorem withFrame {f : Frame} {inner : List String} {x y : Run α} (h : Unhindered watched f.scope inner x y)
    (younger : watched < f.scope) : Unhindered watched here names (Run.withFrame f x) (Run.withFrame f y) := by
  refine ⟨.withFrame h.stays younger, fun m _ admits => ?_⟩
  unfold Run.withFrame
  rw [h.same { m with frame := f } rfl (.of_ne admits.1 (Nat.ne_of_gt younger))]

theorem within {scope : ScopeId} {inner : List String} {x y : Run α} (h : Unhindered watched scope inner x y)
    (younger : watched < scope) : Unhindered watched here names (Run.within scope x) (Run.within scope y) :=
  after_quiet (.of_eq fun _ => ⟨rfl, rfl⟩) fun f => withFrame (f := { f with scope := scope }) h younger

theorem inCall {scope : ScopeId} {inner : List String} {x y : Run α} (h : Unhindered watched scope inner x y)
    (younger : watched < scope) : Unhindered watched here names (Run.inCall scope x) (Run.inCall scope y) :=
  after_quiet (.of_eq fun _ => ⟨rfl, rfl⟩) fun f => withFrame (f := ⟨scope, f.depth + 1⟩) h younger

theorem fromSource (span : Span) {x y : Run α} (h : Unhindered watched here names x y) :
    Unhindered watched here names (Run.fromSource span x) (Run.fromSource span y) := by
  refine ⟨h.stays.fromSource span, fun m stands admits => ?_⟩
  unfold Run.fromSource
  rw [h.same m stands admits]

/-- A declaration that the scopes admit is made. -/
theorem unlessRefused {name : String} (strict : Bool) {x : Run α} (h : x.Stays (watched + 1) here [name]) :
    Unhindered watched here [name] (Run.unlessRefused watched name strict x) x := by
  refine ⟨h, fun m stands admits => if_neg fun refused => ?_⟩
  have free := (admits.2 (stands.symm.trans refused.1)).2 name (List.mem_singleton_self name)
  rw [Scopes.refuses_of_strict free] at refused
  exact absurd refused.2 Bool.false_ne_true

end Run.Unhindered

/-- A watching evaluator and one that does not watch, whose runs are unhindered wherever they stand. -/
structure Evaluator.Unhindered (watched : ScopeId) (watching plain : Evaluator) : Prop where
  bound : watching.bound = plain.bound
  expression : ∀ {here : ScopeId} (e : Expr) (strict : Bool),
    Run.Unhindered watched here e.declared (watching.expression e strict) (plain.expression e strict)
  block : ∀ {here : ScopeId} (body : List Stmt) (strict : Bool),
    Run.Unhindered watched here (declaredInBlock body) (watching.block body strict) (plain.block body strict)

theorem Evaluator.Unhindered.plain_stays {watched : ScopeId} {watching plain : Evaluator}
    (h : watching.Unhindered watched plain) : plain.Stays (watched + 1) :=
  ⟨fun strict hn => (h.expression _ strict).stays.mono hn, fun strict hn => (h.block _ strict).stays.mono hn⟩

end ScriptLang
