/-
# ScriptLang.Proofs.ProgramResult — what a program comes to that does not set its result.

The result of a program is looked up when the program has ended, in the variable `DUM` that its scope
sees.  This variable is shared: earlier programs, the program that runs this one, and programs that this
one runs may all have set it.  A program that mentions no `DUM` and calls nothing leaves the variable as it
was, so it comes to the result that stood there when it began, and to the value of its last statement only
if none stood there.

The proof follows the rules of the evaluator.  Code that calls nothing and does not mention a name leaves
every binding of that name, whatever else it declares and assigns to.
-/
import ScriptLang.Console
import ScriptLang.Proofs.Program
import ScriptLang.Proofs.Run
import ScriptLang.Proofs.Scope.Lookup
import ScriptLang.Proofs.Syntax.Names

namespace ScriptLang

/-! ## Scopes in which a name stays bound as it was -/

/-- The scopes that were there keep their parents, and every scope keeps the value it gives a name. -/
structure Scopes.Spares (name : String) (before after : Scopes) : Prop where
  size_le : before.size ≤ after.size
  parent : ∀ id < before.size, after.parent? id = before.parent? id
  own : ∀ id, after.ownValue? id name = before.ownValue? id name

namespace Scopes

variable {name : String} {s s' s'' : Scopes}

theorem Spares.refl (name : String) (s : Scopes) : Spares name s s :=
  ⟨Nat.le_refl _, fun _ _ => rfl, fun _ => rfl⟩

theorem Spares.trans (h : Spares name s s') (k : Spares name s' s'') : Spares name s s'' where
  size_le := Nat.le_trans h.size_le k.size_le
  parent id hid := (k.parent id (Nat.lt_of_lt_of_le hid h.size_le)).trans (h.parent id hid)
  own id := (k.own id).trans (h.own id)

/-- What the name means is the same in each scope that was there. -/
theorem Spares.value (h : Spares name s s') {id : ScopeId} (there : id < s.size) :
    s'.value id name = s.value id name :=
  value_congr h.parent (fun id _ => h.own id) there

theorem spares_push (s : Scopes) (parent : Option ScopeId) : Spares name s (s.push parent) where
  size_le := by simp
  parent id hid := by rw [parent?_push, if_neg (Nat.ne_of_lt hid)]
  own id := by simp [ownValue?]

theorem spares_bind (s : Scopes) (id : ScopeId) {x : String} (h : x ≠ name) (v : Value)
    (constant : Bool) : Spares name s (s.bind id x v constant) where
  size_le := by simp
  parent _ _ := parent?_update _ _ _ _
  own other := by rw [ownValue?, own?_bind_of_name_ne s id other h.symm, ownValue?]

theorem spares_setValue (s : Scopes) (id : ScopeId) {x : String} (h : x ≠ name) (v : Value) :
    Spares name s (s.setValue id x v) where
  size_le := by simp
  parent _ _ := parent?_update _ _ _ _
  own other := by
    rcases own?_setValue s id other x name v with he | ⟨-, rfl, -⟩
    · rw [ownValue?, he, ownValue?]
    · exact absurd rfl h

theorem spares_beginPass (s : Scopes) (id : ScopeId) : Spares name s (s.beginPass id) where
  size_le := by simp
  parent _ _ := parent?_update _ _ _ _
  own other := by
    by_cases he : other = id
    · subst he
      by_cases hlt : other < s.size
      · -- a binding that is carried on has the value it had
        unfold ownValue? own? beginPass
        rw [bindings_update s other other _ hlt, if_pos rfl, Bindings.get?_carry, Option.map_map]
        rfl
      · unfold ownValue? own? beginPass
        rw [bindings_update_of_le s (Nat.not_lt.1 hlt)]
    · rw [ownValue?, own?_beginPass_of_ne s he, ownValue?]

end Scopes

/-! ## Runs that leave a name as it was -/

namespace Run

variable {α β : Type}

/-- A run that gives the frame back and leaves every binding of a name. -/
def Spares (name : String) (x : Run α) : Prop :=
  ∀ m, (x.after m).frame = m.frame ∧ m.scopes.Spares name (x.after m).scopes

namespace Spares

variable {name : String}

/-- A run that changes neither the frame nor the scopes. -/
theorem of_eq {x : Run α} (h : ∀ m, (x.after m).frame = m.frame ∧ (x.after m).scopes = m.scopes) :
    Spares name x := by
  intro m
  rw [(h m).2]
  exact ⟨(h m).1, .refl _ _⟩

theorem pure (a : α) : Spares name (Pure.pure a : Run α) := of_eq fun _ => ⟨rfl, rfl⟩

theorem raise (span : Span) (fault : RuntimeFault) : Spares name (Run.raise span fault : Run α) :=
  of_eq fun _ => ⟨rfl, rfl⟩

theorem outOfFuel : Spares name (Run.outOfFuel : Run α) := of_eq fun _ => ⟨rfl, rfl⟩

theorem bind {x : Run α} {f : α → Run β} (h : Spares name x) (k : ∀ a, Spares name (f a)) :
    Spares name (x >>= f) := by
  intro m
  have hx := h m
  unfold Run.after at hx ⊢
  rw [bind_run]
  cases hr : x m with
  | error e n => simpa only [hr] using hx
  | ok a n =>
    simp only [hr] at hx ⊢
    have hf := k a n
    exact ⟨hf.1.trans hx.1, hx.2.trans hf.2⟩

theorem map (c : α → β) {x : Run α} (h : Spares name x) : Spares name (c <$> x) := by
  rw [map_eq_pure_bind]
  exact h.bind fun a => pure (c a)

theorem withFrame (f : Frame) {x : Run α} (h : Spares name x) : Spares name (Run.withFrame f x) := by
  intro m
  have hx := h { m with frame := f }
  unfold Run.after at hx ⊢
  unfold Run.withFrame
  cases hr : x { m with frame := f } <;> simp only [hr] at hx ⊢ <;> exact ⟨trivial, hx.2⟩

theorem within (scope : ScopeId) {x : Run α} (h : Spares name x) : Spares name (Run.within scope x) :=
  (of_eq (x := Run.frame) fun _ => ⟨rfl, rfl⟩).bind fun f => h.withFrame { f with scope := scope }

theorem here : Spares name Run.here := of_eq fun _ => ⟨rfl, rfl⟩

theorem frame : Spares name Run.frame := of_eq fun _ => ⟨rfl, rfl⟩

theorem newStamp : Spares name Run.newStamp := of_eq fun _ => ⟨rfl, rfl⟩

theorem newScope (parent : ScopeId) : Spares name (Run.newScope parent) :=
  fun m => ⟨rfl, Scopes.spares_push m.scopes (some parent)⟩

theorem settle (span : Span) (x : Except RuntimeFault α) : Spares name (Run.settle span x) := by
  cases x <;> exact of_eq fun _ => ⟨rfl, rfl⟩

theorem lookup (x : String) (span : Span) : Spares name (Run.lookup x span) :=
  fun m => settle span (m.scopes.value m.frame.scope x) m

theorem declareIn (scope : ScopeId) {x : String} (h : x ≠ name) (v : Value) (constant strict : Bool)
    (span : Span) : Spares name (Run.declareIn scope x v constant strict span) := by
  intro m
  unfold Run.after Run.declareIn
  cases m.scopes.refuses scope x strict with
  | true => exact ⟨rfl, .refl _ _⟩
  | false => exact ⟨rfl, Scopes.spares_bind m.scopes scope h v constant⟩

theorem reassign {x : String} (h : x ≠ name) (v : Value) (span : Span) :
    Spares name (Run.reassign x v span) := by
  intro m
  unfold Run.after Run.reassign
  cases m.scopes.writable m.frame.scope x with
  | error fault => exact ⟨rfl, .refl _ _⟩
  | ok owner => exact ⟨rfl, Scopes.spares_setValue m.scopes owner h v⟩

theorem beginPass (scope : ScopeId) : Spares name (Run.beginPass scope) :=
  fun m => ⟨rfl, Scopes.spares_beginPass m.scopes scope⟩

theorem newArray (vs : List Value) : Spares name (Run.newArray vs) := newStamp.bind fun _ => pure _

theorem newObject (ps : Properties) : Spares name (Run.newObject ps) := newStamp.bind fun _ => pure _

end Spares

end Run

/-! ## The rules of the evaluator -/

/-- Evaluators that leave a name as it was where code does not mention it and calls nothing. -/
structure Evaluator.Spares (name : String) (parts : Evaluator) : Prop where
  expression : ∀ e strict, name ∉ e.names → e.calls = false → (parts.expression e strict).Spares name
  block : ∀ body strict, name ∉ namesOfStmts body → stmtsCall body = false →
    (parts.block body strict).Spares name

namespace Eval

open Run

variable {name : String}

theorem declareFunction_spares {d : FunctionDeclaration} (hn : name ∉ d.names) (strict : Bool)
    (span : Span) : (declareFunction d strict span).Spares name := by
  obtain ⟨shown, parameters, body, isAsync, visibility⟩ := d
  refine Spares.here.bind fun scope => Spares.newStamp.bind fun stamp => ?_
  cases shown with
  | none => exact .pure _
  | some x =>
    have hx : x ≠ name := by
      rintro rfl
      simp [FunctionDeclaration.names] at hn
    exact .declareIn _ hx _ _ _ _

theorem ancestors_spares (d : ClassDeclaration) (span : Span) : (ancestors d span).Spares name := by
  unfold ancestors
  cases d.superclass with
  | none => exact .pure _
  | some parent =>
    refine (Spares.lookup parent span).bind fun v => ?_
    cases v with
    | classValue c => exact .pure _
    | _ => exact .raise _ _

theorem declareClass_spares {d : ClassDeclaration} (hn : name ∉ d.names) (strict : Bool) (span : Span) :
    (declareClass d strict span).Spares name := by
  obtain ⟨x, superclass, members⟩ := d
  have hx : x ≠ name := by
    rintro rfl
    simp [ClassDeclaration.names] at hn
  refine (ancestors_spares _ span).bind fun above => ?_
  exact Spares.here.bind fun scope => Spares.newStamp.bind fun stamp => .declareIn _ hx _ _ _ _

theorem leaveLoop_spares (v : Value) (span : Span) : (leaveLoop v span).Spares name := by
  refine Spares.frame.bind fun f => ?_
  split
  · exact .pure _
  · exact .raise _ _

variable {self : Evaluator} (h : self.Spares name)

include h

theorem initialValue_spares {value : Option Expr} (hn : name ∉ namesOfValue value)
    (hc : valueCalls value = false) (strict : Bool) : (initialValue self value strict).Spares name := by
  cases value with
  | none => exact .pure _
  | some e => exact h.expression e strict hn hc

theorem declareVariable_spares {d : VariableDeclaration} (hn : name ∉ d.names)
    (hc : valueCalls d.value = false) (strict : Bool) (span : Span) :
    (declareVariable self d strict span).Spares name := by
  obtain ⟨x, constant, value, visibility⟩ := d
  simp only [VariableDeclaration.names, List.mem_cons, not_or] at hn
  refine (initialValue_spares h hn.2 hc strict).bind fun v => Spares.here.bind fun scope => ?_
  exact .declareIn _ (Ne.symm hn.1) _ _ _ _

theorem holds_spares {condition : Expr} (hn : name ∉ condition.names) (hc : condition.calls = false)
    (strict : Bool) : (holds self condition strict).Spares name :=
  (h.expression condition strict hn hc).bind fun _ => .pure _

theorem ifBlock_spares {condition : Expr} {body : List Stmt} (hn : name ∉ condition.names)
    (hc : condition.calls = false) (hb : name ∉ namesOfStmts body) (hd : stmtsCall body = false)
    (strict : Bool) : (ifBlock self condition body strict).Spares name := by
  refine (holds_spares h hn hc strict).bind fun b => ?_
  cases b with
  | false => exact .pure _
  | true =>
    refine Spares.here.bind fun here => (Spares.newScope here).bind fun scope => ?_
    refine ((h.block body strict hb hd).within scope).bind fun flow => ?_
    cases flow <;> exact .pure _

theorem whilePasses_spares (scope : ScopeId) {condition : Expr} {body : List Stmt}
    (hn : name ∉ condition.names) (hc : condition.calls = false) (hb : name ∉ namesOfStmts body)
    (hd : stmtsCall body = false) (strict : Bool) (n : Nat) :
    (whilePasses self scope condition body strict n).Spares name := by
  induction n with
  | zero => exact .outOfFuel
  | succ n ih =>
    refine (h.block body strict hb hd).bind fun flow => ?_
    cases flow with
    | leave | give v => exact .pure _
    | value v =>
      refine (Spares.beginPass scope).bind fun _ => (holds_spares h hn hc strict).bind fun b => ?_
      cases b with
      | false => exact .pure _
      | true => exact ih

theorem whileLoop_spares {condition : Expr} {body : List Stmt} (hn : name ∉ condition.names)
    (hc : condition.calls = false) (hb : name ∉ namesOfStmts body) (hd : stmtsCall body = false)
    (strict : Bool) (span : Span) : (whileLoop self condition body strict span).Spares name := by
  refine (holds_spares h hn hc strict).bind fun b => ?_
  cases b with
  | false => exact .pure _
  | true =>
    refine Spares.here.bind fun here => (Spares.newScope here).bind fun scope => ?_
    refine ((whilePasses_spares h scope hn hc hb hd strict self.bound).within scope).bind fun flow => ?_
    cases flow with
    | give v => exact leaveLoop_spares v span
    | value v | leave => exact .pure _

theorem startNumber_spares {value : Option Expr} (hn : name ∉ namesOfValue value)
    (hc : valueCalls value = false) (strict : Bool) : (startNumber self value strict).Spares name := by
  cases value with
  | none => exact .pure _
  | some e =>
    refine (h.expression e strict hn hc).bind fun v => ?_
    cases v with
    | number x => exact .pure _
    | _ => exact .raise _ _

omit h in
/-- What the iterator of a loop computes is part of the iterator. -/
theorem stepExpression_spares {e : Expr} (hn : name ∉ e.names) (hc : e.calls = false) :
    name ∉ (stepExpression e).names ∧ (stepExpression e).calls = false := by
  cases e with
  | assign span target value =>
    simp only [Expr.names, List.mem_append, not_or] at hn
    simp only [Expr.calls, Bool.or_eq_false_iff] at hc
    exact ⟨hn.2, hc.2⟩
  | _ => exact ⟨hn, hc⟩

theorem stepCounter_spares {loop : ForLoop} (hx : loop.counter.name ≠ name)
    (hn : name ∉ loop.iterator.names) (hc : loop.iterator.calls = false) (scope : ScopeId)
    (counter : Float) (strict : Bool) : (stepCounter self loop scope counter strict).Spares name := by
  have step := stepExpression_spares hn hc
  refine (Spares.declareIn scope hx _ _ _ _).bind fun _ => ?_
  refine ((h.expression _ strict step.1 step.2).within scope).bind fun v => ?_
  cases v with
  | number x => exact .pure _
  | _ => exact .raise _ _

theorem forPass_spares {loop : ForLoop} (hn : name ∉ loop.condition.names)
    (hc : loop.condition.calls = false) (hb : name ∉ namesOfStmts loop.body)
    (hd : stmtsCall loop.body = false) (strict : Bool) : (forPass self loop strict).Spares name := by
  refine (holds_spares h hn hc strict).bind fun b => ?_
  cases b with
  | false => exact .pure _
  | true => exact h.block loop.body strict hb hd

theorem forLoop_spares {loop : ForLoop} (hn : name ∉ loop.names) (hc : loop.calls = false)
    (strict : Bool) (span : Span) : (forLoop self loop strict span).Spares name := by
  obtain ⟨⟨x, constant, value, visibility⟩, condition, iterator, body⟩ := loop
  simp only [ForLoop.names, VariableDeclaration.names, List.mem_append, List.mem_cons, not_or] at hn
  simp only [ForLoop.calls, Bool.or_eq_false_iff] at hc
  obtain ⟨⟨⟨⟨hx, hv⟩, hcond⟩, hi⟩, hb⟩ := hn
  refine (startNumber_spares h hv hc.1.1.1 strict).bind fun start => ?_
  -- the passes, for every number the counter may have come to
  generalize self.bound = n
  induction n generalizing start with
  | zero => exact .outOfFuel
  | succ n ih =>
    refine Spares.here.bind fun here => (Spares.newScope here).bind fun scope => ?_
    refine (Spares.declareIn scope (Ne.symm hx) _ _ _ _).bind fun _ => ?_
    refine ((forPass_spares h hcond hc.1.1.2 hb hc.2 strict).within scope).bind fun flow => ?_
    cases flow with
    | leave => exact .pure _
    | give v => exact leaveLoop_spares v span
    | value v =>
      exact (stepCounter_spares h (Ne.symm hx) hi hc.1.2 scope start strict).bind fun next => ih next

theorem statement_spares {s : Stmt} (hn : name ∉ s.names) (hc : s.calls = false) (strict : Bool) :
    (statement self s strict).Spares name := by
  cases s with
  | variableDeclaration span d => exact (declareVariable_spares h hn hc strict span).map _
  | functionDeclaration span d => exact (declareFunction_spares hn strict span).map _
  | classDeclaration span d => exact (declareClass_spares hn strict span).map _
  | ifBlock span condition body =>
    simp only [Stmt.names, List.mem_append, not_or] at hn
    simp only [Stmt.calls, Bool.or_eq_false_iff] at hc
    exact ifBlock_spares h hn.1 hc.1 hn.2 hc.2 strict
  | whileLoop span condition body =>
    simp only [Stmt.names, List.mem_append, not_or] at hn
    simp only [Stmt.calls, Bool.or_eq_false_iff] at hc
    exact whileLoop_spares h hn.1 hc.1 hn.2 hc.2 strict span
  | forLoop span loop => exact forLoop_spares h hn hc strict span
  | breakLoop span => exact .pure _
  | returnValue span e => exact (h.expression e strict hn hc).map _
  | expression span e => exact (h.expression e strict hn hc).map _

theorem block_spares {body : List Stmt} (hn : name ∉ namesOfStmts body) (hc : stmtsCall body = false)
    (strict : Bool) : (block self body strict).Spares name := by
  induction body generalizing strict with
  | nil => exact .pure _
  | cons s rest ih =>
    simp only [namesOfStmts, List.mem_append, not_or] at hn
    simp only [stmtsCall, Bool.or_eq_false_iff] at hc
    unfold block
    cases strictDirective? s with
    | some mode => exact ih hn.2 hc.2 mode
    | none =>
      refine (statement_spares h hn.1 hc.1 strict).bind fun flow => ?_
      cases flow with
      | value v => exact ih hn.2 hc.2 strict
      | leave | give v => exact .pure _

/-! ### Expressions -/

theorem expressions_spares {es : List Expr} (hn : name ∉ namesOfExprs es) (hc : exprsCall es = false)
    (strict : Bool) : (expressions self es strict).Spares name := by
  induction es with
  | nil => exact .pure _
  | cons e rest ih =>
    simp only [namesOfExprs, List.mem_append, not_or] at hn
    simp only [exprsCall, Bool.or_eq_false_iff] at hc
    exact (h.expression e strict hn.1 hc.1).bind fun v => (ih hn.2 hc.2).bind fun vs => .pure _

theorem properties_spares {ps : List Property} (hn : name ∉ namesOfProperties ps)
    (hc : propertiesCall ps = false) (strict : Bool) (done : Properties) :
    (properties self ps strict done).Spares name := by
  induction ps generalizing done with
  | nil => exact .pure _
  | cons p rest ih =>
    obtain ⟨key, value, span⟩ := p
    simp only [namesOfProperties, List.mem_append, not_or] at hn
    simp only [propertiesCall, Bool.or_eq_false_iff] at hc
    cases value with
    | none => exact (Spares.lookup key span).bind fun v => ih hn.2 hc.2 _
    | some e => exact (h.expression e strict hn.1 hc.1).bind fun v => ih hn.2 hc.2 _

theorem propertyKey_spares {property : Expr} (hn : name ∉ property.names)
    (hc : property.calls = false) (computed strict : Bool) :
    (propertyKey self property computed strict).Spares name := by
  unfold propertyKey
  dsimp only
  split
  · exact .pure _
  · refine (h.expression property strict hn hc).bind fun v => ?_
    cases v with
    | string key => exact .pure _
    | _ => exact .raise _ _

theorem elementPlace_spares {index : Expr} (hn : name ∉ index.names) (hc : index.calls = false)
    (length : Nat) (strict : Bool) (span : Span) :
    (elementPlace self index length strict span).Spares name :=
  (h.expression index strict hn hc).bind fun _ => .settle _ _

theorem memberValue_spares (container : Value) {property : Expr} (hn : name ∉ property.names)
    (hc : property.calls = false) (computed strict : Bool) (span : Span) :
    (memberValue self container property computed strict span).Spares name := by
  cases container with
  | object stamp ps =>
    refine (propertyKey_spares h hn hc computed strict).bind fun key => ?_
    split
    · exact .pure _
    · exact .raise _ _
  | array stamp elements =>
    cases computed with
    | false => exact .raise _ _
    | true => exact (elementPlace_spares h hn hc _ strict span).bind fun place => .pure _
  | _ => exact .raise _ _

theorem withMember_spares (container : Value) {property : Expr} (hn : name ∉ property.names)
    (hc : property.calls = false) (computed : Bool) (value : Value) (strict : Bool) (span : Span) :
    (withMember self container property computed value strict span).Spares name := by
  cases container with
  | object stamp ps =>
    refine (propertyKey_spares h hn hc computed strict).bind fun key => ?_
    split
    · exact .raise _ _
    · exact .newObject _
  | array stamp elements =>
    cases computed with
    | false => exact .raise _ _
    | true =>
      refine (elementPlace_spares h hn hc _ strict span).bind fun place => ?_
      cases place with
      | some place => exact .newArray _
      | none => exact .raise _ _
  | _ => exact .raise _ _

theorem assign_spares {target value : Expr} (ht : name ∉ target.names) (hv : name ∉ value.names)
    (hc : target.calls = false) (hd : value.calls = false) (strict : Bool) (span : Span) :
    (assign self target value strict span).Spares name := by
  unfold assign
  split
  · next s x =>
    have hx : x ≠ name := by
      rintro rfl
      simp [Expr.names] at ht
    exact (h.expression value strict hv hd).bind fun v => .reassign hx v span
  · next s t x property computed =>
    simp only [Expr.names, List.mem_append, List.mem_singleton, not_or] at ht
    simp only [Expr.calls, Bool.or_eq_false_iff] at hc
    refine (Spares.lookup x t).bind fun container => (h.expression value strict hv hd).bind fun v => ?_
    refine (withMember_spares h container ht.2 hc.2 computed v strict span).bind fun updated => ?_
    exact (Spares.reassign (Ne.symm ht.1) updated span).bind fun _ => .pure _
  · exact .raise _ _
  · exact .raise _ _

theorem expression_spares {e : Expr} (hn : name ∉ e.names) (hc : e.calls = false) (strict : Bool) :
    (expression self e strict).Spares name := by
  cases e with
  | identifier span x => exact .lookup x span
  | number | string | null => exact .pure _
  | object span ps => exact (properties_spares h hn hc strict []).bind fun _ => .newObject _
  | array span es => exact (expressions_spares h hn hc strict).bind fun _ => .newArray _
  | binary span left operator right =>
    simp only [Expr.names, List.mem_append, not_or] at hn
    simp only [Expr.calls, Bool.or_eq_false_iff] at hc
    refine (h.expression left strict hn.1 hc.1).bind fun v => ?_
    exact (h.expression right strict hn.2 hc.2).bind fun w => .settle _ _
  | assign span target value =>
    simp only [Expr.names, List.mem_append, not_or] at hn
    simp only [Expr.calls, Bool.or_eq_false_iff] at hc
    exact assign_spares h hn.1 hn.2 hc.1 hc.2 strict span
  | member span object property computed =>
    simp only [Expr.names, List.mem_append, not_or] at hn
    simp only [Expr.calls, Bool.or_eq_false_iff] at hc
    refine (h.expression object strict hn.1 hc.1).bind fun container => ?_
    exact memberValue_spares h container hn.2 hc.2 computed strict span
  | function span d => exact declareFunction_spares hn strict span
  | call | instantiate => cases hc

theorem topStatement_spares {s : Stmt} (hn : name ∉ s.names) (hc : s.calls = false) (strict : Bool) :
    (topStatement self s strict).Spares name := by
  unfold topStatement
  split
  · exact .raise _ _
  · exact .raise _ _
  · refine (statement_spares h hn hc strict).bind fun flow => ?_
    cases flow with
    | value v => exact .pure _
    | leave | give v => exact .raise _ _

theorem programFrom_spares {p : Program} (hn : name ∉ p.names) (hc : p.calls = false) (strict : Bool)
    (last : Value) : (programFrom self p strict last).Spares name := by
  induction p generalizing strict last with
  | nil => exact .pure _
  | cons s rest ih =>
    simp only [Program.names, namesOfStmts, List.mem_append, not_or] at hn
    simp only [Program.calls, stmtsCall, Bool.or_eq_false_iff] at hc
    cases directive : strictDirective? s with
    | some mode =>
      rw [programFrom_directive self rest strict last directive]
      exact ih hn.2 hc.2 mode last
    | none =>
      rw [programFrom_statement self rest strict last directive]
      exact (topStatement_spares h hn.1 hc.1 strict).bind fun v => ih hn.2 hc.2 strict v

end Eval

/-- Evaluators with a bound leave a name as it was, by induction on the bound. -/
theorem Evaluator.bounded_spares (name : String) (n : Nat) : (Evaluator.bounded n).Spares name := by
  induction n with
  | zero => exact ⟨fun _ _ _ _ => .outOfFuel, fun _ _ _ _ => .outOfFuel⟩
  | succ n ih =>
    exact ⟨fun e strict hn hc => Eval.expression_spares ih hn hc strict,
      fun body strict hn hc => Eval.block_spares ih hn hc strict⟩

/-! ## Whole programs -/

/-- A program that mentions no `DUM`, calls nothing, and ends with an expression, but for directives after
it.  It comes to the result that its scope sees when it begins, whoever set it, and to the value of the
expression only if its scope sees none; all else is what its statements do. -/
theorem program_yields_standing_result (n : Nat) (m : Machine) {scope : ScopeId}
    (there : scope < m.scopes.size) {p : Program} (init directives : Program) {span : Span} {e : Expr}
    (ends : p = init ++ .expression span e :: directives)
    (valued : (Stmt.expression span e).isDirective = false) (tail : ∀ s ∈ directives, s.isDirective)
    (unmentioned : Builtin.resultObject ∉ p.names) (quiet : p.calls = false) :
    Run.inProgram scope (Eval.program (.bounded n) p) m =
      ((m.scopes.result? scope).getD <$> Run.inProgram scope (do
        let _ ← Eval.programFrom (.bounded n) init false .null
        evalExpression n e (init.modeAfter false) : Run Value)) m := by
  have statements := Eval.programFrom_endsWith (.bounded n) false .null init valued tail
  rw [← ends] at statements
  have spared := Eval.programFrom_spares (Evaluator.bounded_spares Builtin.resultObject n) unmentioned
    quiet false .null { m with frame := ⟨scope, 0⟩ }
  change _ = (_ <$> Run.inProgram scope (Eval.programFrom (.bounded n) init false .null >>= fun _ =>
    (Evaluator.bounded n).expression e (init.modeAfter false))) m
  rw [← statements, Run.map_run]
  unfold Run.inProgram Run.withFrame
  unfold Run.after at spared
  rw [Eval.program_run]
  cases ran : Eval.programFrom (.bounded n) p false .null { m with frame := ⟨scope, 0⟩ } with
  | error halt after => rfl
  | ok last after =>
    simp only [ran] at spared
    -- the result is looked up in scopes that bind `DUM` as before, from the scope of the program
    have same : after.scopes.result? after.frame.scope = m.scopes.result? scope := by
      rw [spared.1]
      unfold Scopes.result?
      rw [spared.2.value there]
    simp only [same]

/-- The machine after a program that set a result. -/
def machineWithResult : Machine :=
  ((Machine.initial (.closed [] [] 0.0)).run 20 "DUM.exports = 5").2

/-- The program `1 + 1`. -/
def sumProgram : Program :=
  [.expression ⟨1, 1, 1⟩ (.binary ⟨1, 1, 1⟩ (.number ⟨1, 1, 1⟩ 1.0) .add (.number ⟨1, 5, 1⟩ 1.0))]

theorem sumProgram_yields_standing_result :
    Run.inProgram 0 (Eval.program (.bounded 20) sumProgram) machineWithResult =
      ((machineWithResult.scopes.result? 0).getD <$> Run.inProgram 0 (do
        let _ ← Eval.programFrom (.bounded 20) [] false .null
        evalExpression 20 (.binary ⟨1, 1, 1⟩ (.number ⟨1, 1, 1⟩ 1.0) .add (.number ⟨1, 5, 1⟩ 1.0))
          false : Run Value)) machineWithResult :=
  program_yields_standing_result 20 machineWithResult (by decide +kernel) [] [] rfl rfl (by simp)
    (by simp [sumProgram, Program.names, namesOfStmts, Stmt.names, Expr.names]) rfl

/-- At the console the second program shows what the first one set. -/
theorem sum_shows_earlier_result :
    (Console.execText 20 ⟨.result, false⟩ (.start machineWithResult) "1 + 1").out = "5\n" := by
  decide +kernel

end ScriptLang
