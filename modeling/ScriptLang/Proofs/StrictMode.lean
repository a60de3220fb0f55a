/-
# ScriptLang.Proofs.StrictMode — strict mode only turns successes into errors.

A piece of code is run twice from one machine, in strict mode and outside it.  The two runs go in step:
at each moment both have done the same to the machine, until the strict run refuses something.  From
there on it is over, since nothing catches an error, while the other run may go on.  A refusal is a fault
of one of four kinds: a name declared twice, a division by zero, an index, a missing property.

The proof follows the rules of the evaluator.  Each rule keeps the step, given that the evaluators of its
parts do, and the bound on steps carries this to whole runs.
-/
import ScriptLang.Eval

namespace ScriptLang

/-- The kinds of fault by which strict mode refuses. -/
def RuntimeFault.IsRefusal : RuntimeFault → Prop
  | .duplicateName _ | .divisionByZero _ | .range _ | .missingProperty _ => True
  | _ => False

/-- A run that ended with a refusal. -/
def Refused {α : Type} (r : EStateM.Result Halt Machine α) : Prop :=
  ∃ span fault m, r = .error (.raised ⟨span, fault⟩) m ∧ fault.IsRefusal

/-- The outcome `x` of an operation is the outcome `y`, or it is a refusal. -/
def Tightened {α : Type} (x y : Except RuntimeFault α) : Prop :=
  x = y ∨ ∃ fault, x = .error fault ∧ fault.IsRefusal

namespace Run

variable {α β : Type}

/-- From every machine the run `x` does what `y` does, or it refuses. -/
def Tightens (x y : Run α) : Prop := ∀ m, x m = y m ∨ Refused (x m)

namespace Tightens

theorem refl (x : Run α) : Tightens x x := fun _ => .inl rfl

theorem raise (span : Span) {fault : RuntimeFault} (h : fault.IsRefusal) (y : Run α) :
    Tightens (Run.raise span fault) y :=
  fun m => .inr ⟨span, fault, m, rfl, h⟩

theorem bind {x y : Run α} {f g : α → Run β} (h : Tightens x y) (k : ∀ a, Tightens (f a) (g a)) :
    Tightens (x >>= f) (y >>= g) := by
  intro m
  show EStateM.bind x f m = EStateM.bind y g m ∨ Refused (EStateM.bind x f m)
  unfold EStateM.bind
  rcases h m with he | ⟨span, fault, n, he, hr⟩
  · rw [he]
    cases y m with
    | ok a n => exact k a n
    | error e n => exact .inl rfl
  · -- refused already, so what follows is not run
    rw [he]
    exact .inr ⟨span, fault, n, rfl, hr⟩

/-- Two runs that differ only in what follows a common first part. -/
theorem bind_right (x : Run α) {f g : α → Run β} (k : ∀ a, Tightens (f a) (g a)) :
    Tightens (x >>= f) (x >>= g) :=
  (refl x).bind k

theorem map (f : α → β) {x y : Run α} (h : Tightens x y) : Tightens (f <$> x) (f <$> y) := by
  intro m
  show EStateM.map f x m = EStateM.map f y m ∨ Refused (EStateM.map f x m)
  unfold EStateM.map
  rcases h m with he | ⟨span, fault, n, he, hr⟩
  · exact .inl (by rw [he])
  · rw [he]
    exact .inr ⟨span, fault, n, rfl, hr⟩

theorem withFrame (f : Frame) {x y : Run α} (h : Tightens x y) :
    Tightens (Run.withFrame f x) (Run.withFrame f y) := by
  intro m
  unfold Run.withFrame
  rcases h { m with frame := f } with he | ⟨span, fault, n, he, hr⟩
  · exact .inl (by rw [he])
  · rw [he]
    exact .inr ⟨span, fault, { n with frame := m.frame }, rfl, hr⟩

theorem within (scope : ScopeId) {x y : Run α} (h : Tightens x y) :
    Tightens (Run.within scope x) (Run.within scope y) :=
  bind_right _ fun f => h.withFrame { f with scope := scope }

theorem inCall (scope : ScopeId) {x y : Run α} (h : Tightens x y) :
    Tightens (Run.inCall scope x) (Run.inCall scope y) :=
  bind_right _ fun f => h.withFrame ⟨scope, f.depth + 1⟩

/-! ## The places where strict mode is asked for -/

theorem settle (span : Span) {x y : Except RuntimeFault α} (h : Tightened x y) :
    Tightens (Run.settle span x) (Run.settle span y) := by
  rcases h with rfl | ⟨fault, rfl, hr⟩
  · exact refl _
  · exact raise span hr _

theorem declareIn (scope : ScopeId) (name : String) (v : Value) (constant : Bool) (span : Span) :
    Tightens (Run.declareIn scope name v constant true span)
      (Run.declareIn scope name v constant false span) := by
  intro m
  unfold Run.declareIn
  cases h : m.scopes.refuses scope name true with
  | true => exact .inr ⟨span, .duplicateName name, m, rfl, trivial⟩
  | false =>
    -- outside strict mode nothing is refused
    exact .inl (by rw [m.scopes.refuses_lenient])

end Tightens

end Run

/-! ## Operators and indices -/

theorem divide_tightened (x y : Float) : Tightened (divide true x y) (divide false x y) := by
  unfold divide
  split
  · exact .inl rfl
  · split
    · exact .inr ⟨_, rfl, trivial⟩
    · exact .inl rfl

namespace Operator

/-- Of two numbers, the mode is asked for only where they are divided. -/
theorem applyNumbers_tightened (operator : Operator) (x y : Float) :
    Tightened (operator.applyNumbers true x y) (operator.applyNumbers false x y) := by
  cases operator with
  | divide =>
    rcases divide_tightened x y with h | ⟨fault, h, hr⟩
    · exact .inl (by simp only [applyNumbers, h])
    · exact .inr ⟨fault, by simp only [applyNumbers, h]; rfl, hr⟩
  | _ => exact .inl rfl

theorem applyOrdinary_tightened (operator : Operator) (v w : Value) :
    Tightened (operator.applyOrdinary true v w) (operator.applyOrdinary false v w) := by
  unfold applyOrdinary
  split
  · exact applyNumbers_tightened operator _ _
  all_goals exact .inl rfl

theorem apply_tightened (operator : Operator) (v w : Value) :
    Tightened (operator.apply true v w) (operator.apply false v w) := by
  cases operator with
  | equal | notEqual | nullish => exact .inl rfl
  | _ => exact applyOrdinary_tightened _ v w

end Operator

theorem elementPosition_tightened (index : Value) (length : Nat) :
    Tightened (elementPosition index length true) (elementPosition index length false) := by
  unfold elementPosition placeOf
  split
  · split
    · split
      · exact .inl rfl
      · exact .inr ⟨_, rfl, trivial⟩
    · exact .inl rfl
  · exact .inl rfl

/-! ## The rules of the evaluator -/

/-- Evaluators that keep the step of the two runs. -/
structure Evaluator.Tightens (parts : Evaluator) : Prop where
  expression : ∀ e, (parts.expression e true).Tightens (parts.expression e false)
  block : ∀ body, (parts.block body true).Tightens (parts.block body false)

namespace Eval

open Run

theorem declareFunction_tightens (d : FunctionDeclaration) (span : Span) :
    (declareFunction d true span).Tightens (declareFunction d false span) := by
  unfold declareFunction
  refine .bind_right _ fun scope => .bind_right _ fun stamp => ?_
  cases d.name with
  | some name => exact .declareIn _ _ _ _ _
  | none => exact .refl _

theorem declareClass_tightens (d : ClassDeclaration) (span : Span) :
    (declareClass d true span).Tightens (declareClass d false span) := by
  unfold declareClass
  refine .bind_right _ fun above => .bind_right _ fun scope => .bind_right _ fun stamp => ?_
  exact .declareIn _ _ _ _ _

variable {self : Evaluator} (h : self.Tightens)

include h

theorem initialValue_tightens (value : Option Expr) :
    (initialValue self value true).Tightens (initialValue self value false) := by
  cases value with
  | some e => exact h.expression e
  | none => exact .refl _

theorem declareVariable_tightens (d : VariableDeclaration) (span : Span) :
    (declareVariable self d true span).Tightens (declareVariable self d false span) :=
  (initialValue_tightens h d.value).bind fun _ => .bind_right _ fun _ => .declareIn _ _ _ _ _

theorem holds_tightens (condition : Expr) :
    (holds self condition true).Tightens (holds self condition false) :=
  (h.expression condition).bind fun _ => .refl _

theorem ifBlock_tightens (condition : Expr) (body : List Stmt) :
    (ifBlock self condition body true).Tightens (ifBlock self condition body false) := by
  unfold ifBlock
  refine (holds_tightens h condition).bind fun b => ?_
  cases b with
  | false => exact .refl _
  | true =>
    refine .bind_right _ fun here => .bind_right _ fun scope => ?_
    exact ((h.block body).within scope).bind fun _ => .refl _

theorem whilePasses_tightens (scope : ScopeId) (condition : Expr) (body : List Stmt) (n : Nat) :
    (whilePasses self scope condition body true n).Tightens
      (whilePasses self scope condition body false n) := by
  induction n with
  | zero => exact .refl _
  | succ n ih =>
    unfold whilePasses
    refine (h.block body).bind fun flow => ?_
    cases flow with
    | leave | give v => exact .refl _
    | value v =>
      refine .bind_right _ fun _ => (holds_tightens h condition).bind fun b => ?_
      cases b with
      | false => exact .refl _
      | true => exact ih

theorem whileLoop_tightens (condition : Expr) (body : List Stmt) (span : Span) :
    (whileLoop self condition body true span).Tightens (whileLoop self condition body false span) := by
  unfold whileLoop
  refine (holds_tightens h condition).bind fun b => ?_
  cases b with
  | false => exact .refl _
  | true =>
    refine .bind_right _ fun here => .bind_right _ fun scope => ?_
    exact ((whilePasses_tightens h scope condition body self.bound).within scope).bind fun _ => .refl _

theorem startNumber_tightens (value : Option Expr) :
    (startNumber self value true).Tightens (startNumber self value false) := by
  cases value with
  | none => exact .refl _
  | some e => exact (h.expression e).bind fun _ => .refl _

theorem stepCounter_tightens (loop : ForLoop) (scope : ScopeId) (counter : Float) :
    (stepCounter self loop scope counter true).Tightens (stepCounter self loop scope counter false) :=
  .bind_right _ fun _ => ((h.expression (stepExpression loop.iterator)).within scope).bind fun _ => .refl _

theorem forPass_tightens (loop : ForLoop) :
    (forPass self loop true).Tightens (forPass self loop false) := by
  unfold forPass
  refine (holds_tightens h loop.condition).bind fun b => ?_
  cases b with
  | false => exact .refl _
  | true => exact h.block loop.body

theorem forPasses_tightens (loop : ForLoop) (span : Span) (n : Nat) (counter : Float) :
    (forPasses self loop true span n counter).Tightens (forPasses self loop false span n counter) := by
  induction n generalizing counter with
  | zero => exact .refl _
  | succ n ih =>
    unfold forPasses
    -- both runs enter the same scope for the pass and give the counter the same value
    refine .bind_right _ fun here => .bind_right _ fun scope => .bind_right _ fun _ => ?_
    refine ((forPass_tightens h loop).within scope).bind fun flow => ?_
    cases flow with
    | leave | give v => exact .refl _
    | value v => exact (stepCounter_tightens h loop scope counter).bind fun next => ih next

theorem forLoop_tightens (loop : ForLoop) (span : Span) :
    (forLoop self loop true span).Tightens (forLoop self loop false span) :=
  (startNumber_tightens h loop.counter.value).bind fun start =>
    forPasses_tightens h loop span self.bound start

theorem statement_tightens (s : Stmt) :
    (statement self s true).Tightens (statement self s false) := by
  cases s with
  | variableDeclaration span d => exact (declareVariable_tightens h d span).map _
  | functionDeclaration span d => exact (declareFunction_tightens d span).map _
  | classDeclaration span d => exact (declareClass_tightens d span).map _
  | ifBlock span condition body => exact ifBlock_tightens h condition body
  | whileLoop span condition body => exact whileLoop_tightens h condition body span
  | forLoop span loop => exact forLoop_tightens h loop span
  | breakLoop span => exact .refl _
  | returnValue span e => exact (h.expression e).map _
  | expression span e => exact (h.expression e).map _

/-- A directive puts both runs into the same mode, and from there on they are one run. -/
theorem block_tightens (body : List Stmt) :
    (block self body true).Tightens (block self body false) := by
  induction body with
  | nil => exact .refl _
  | cons s rest ih =>
    unfold block
    cases strictDirective? s with
    | some mode => exact .refl _
    | none =>
      refine (statement_tightens h s).bind fun flow => ?_
      cases flow with
      | value v => exact ih
      | leave | give v => exact .refl _

/-! ### Expressions -/

theorem expressions_tightens (es : List Expr) :
    (expressions self es true).Tightens (expressions self es false) := by
  induction es with
  | nil => exact .refl _
  | cons e rest ih => exact (h.expression e).bind fun _ => ih.bind fun _ => .refl _

theorem properties_tightens (ps : List Property) (done : Properties) :
    (properties self ps true done).Tightens (properties self ps false done) := by
  induction ps generalizing done with
  | nil => exact .refl _
  | cons p rest ih =>
    unfold properties
    cases p.value with
    | some e => exact (h.expression e).bind fun v => ih _
    | none => exact .bind_right _ fun v => ih _

theorem propertyKey_tightens (property : Expr) (computed : Bool) :
    (propertyKey self property computed true).Tightens (propertyKey self property computed false) := by
  unfold propertyKey
  split
  · exact .refl _
  · exact (h.expression property).bind fun _ => .refl _

theorem elementPlace_tightens (index : Expr) (length : Nat) (span : Span) :
    (elementPlace self index length true span).Tightens (elementPlace self index length false span) :=
  (h.expression index).bind fun v => .settle span (elementPosition_tightened v length)

theorem memberValue_tightens (container : Value) (property : Expr) (computed : Bool) (span : Span) :
    (memberValue self container property computed true span).Tightens
      (memberValue self container property computed false span) := by
  unfold memberValue
  split
  · exact (propertyKey_tightens h property computed).bind fun _ => .refl _
  · split
    · exact (elementPlace_tightens h property _ span).bind fun _ => .refl _
    · exact .refl _
  · exact .refl _

theorem withMember_tightens (container : Value) (property : Expr) (computed : Bool) (value : Value)
    (span : Span) :
    (withMember self container property computed value true span).Tightens
      (withMember self container property computed value false span) := by
  unfold withMember
  split
  · next ps =>
    refine (propertyKey_tightens h property computed).bind fun key => ?_
    cases Properties.has key ps with
    | true => exact .refl _
    | false =>
      -- where strict mode refuses the new property, the other run adds it
      have hr : (RuntimeFault.missingProperty key).IsRefusal := trivial
      exact .raise span hr _
  · split
    · exact (elementPlace_tightens h property _ span).bind fun _ => .refl _
    · exact .refl _
  · exact .refl _

theorem assign_tightens (target value : Expr) (span : Span) :
    (assign self target value true span).Tightens (assign self target value false span) := by
  unfold assign
  split
  · exact (h.expression value).bind fun _ => .refl _
  · refine .bind_right _ fun container => (h.expression value).bind fun v => ?_
    exact (withMember_tightens h container _ _ v span).bind fun _ => .refl _
  · exact .refl _
  · exact .refl _

omit h in
theorem bindParameters_tightens (scope : ScopeId) (span : Span) (ps : List (String × Value)) :
    (bindParameters scope true span ps).Tightens (bindParameters scope false span ps) := by
  induction ps with
  | nil => exact .refl _
  | cons p rest ih => exact (Run.Tightens.declareIn _ _ _ _ _).bind fun _ => ih

theorem callFunction_tightens (f : Function) (args : List Value) (span : Span) :
    (callFunction self f args true span).Tightens (callFunction self f args false span) := by
  unfold callFunction
  dsimp only
  split
  · exact .refl _
  · refine .bind_right _ fun scope => (bindParameters_tightens scope span _).bind fun _ => ?_
    exact ((h.block f.declaration.body).inCall scope).bind fun _ => .refl _

theorem call_tightens (callee : Value) (args : List Value) (span : Span) :
    (call self callee args true span).Tightens (call self callee args false span) := by
  cases callee with
  | function f => exact callFunction_tightens h f args span
  -- a native function is not told the mode
  | _ => exact .refl _

theorem layMember_tightens (scope : ScopeId) (span : Span) (a : Assembly) (m : Member) :
    (layMember self scope true span a m).Tightens (layMember self scope false span a m) := by
  cases m with
  | property visibility d =>
    unfold layMember
    dsimp only
    cases d.value with
    | some e => exact ((h.expression e).within scope).bind fun _ => .refl _
    | none => exact .refl _
  | method visibility d => exact .refl _

theorem layMembers_tightens (scope : ScopeId) (span : Span) (ms : List Member) (a : Assembly) :
    (layMembers self scope true span ms a).Tightens (layMembers self scope false span ms a) := by
  induction ms generalizing a with
  | nil => exact .refl _
  | cons m rest ih => exact (layMember_tightens h scope span a m).bind fun a => ih a

theorem construct_tightens (constructor : Option Function) (args : List Value) (span : Span) :
    (construct self constructor args true span).Tightens
      (construct self constructor args false span) := by
  cases constructor with
  | none => exact .refl _
  | some f => exact (callFunction_tightens h f args span).bind fun _ => .refl _

theorem instantiate_tightens (c : Class) (args : List Value) (span : Span) :
    (instantiate self c args true span).Tightens (instantiate self c args false span) := by
  unfold instantiate
  refine .bind_right _ fun scope => (layMembers_tightens h scope span _ _).bind fun a => ?_
  exact (construct_tightens h a.constructor args span).bind fun _ => .refl _

theorem expression_tightens (e : Expr) :
    (expression self e true).Tightens (expression self e false) := by
  cases e with
  | identifier | number | string | null => exact .refl _
  | object span ps => exact (properties_tightens h ps []).bind fun _ => .refl _
  | array span es => exact (expressions_tightens h es).bind fun _ => .refl _
  | binary span left operator right =>
    refine (h.expression left).bind fun v => (h.expression right).bind fun w => ?_
    exact .settle span (operator.apply_tightened v w)
  | assign span target value => exact assign_tightens h target value span
  | member span object property computed =>
    exact (h.expression object).bind fun v => memberValue_tightens h v property computed span
  | call span callee arguments =>
    refine (expressions_tightens h arguments).bind fun args => (h.expression callee).bind fun f => ?_
    exact call_tightens h f args span
  | function span d => exact declareFunction_tightens d span
  | instantiate span target arguments =>
    refine (expressions_tightens h arguments).bind fun args => (h.expression target).bind fun v => ?_
    cases v with
    | classValue c => exact instantiate_tightens h c args span
    | _ => exact .refl _

end Eval

/-! ## Whole runs -/

/-- Evaluators with a bound keep the step, by induction on the bound: with the bound zero both runs stop
at once, and each further step is a rule over evaluators that keep it. -/
theorem Evaluator.bounded_tightens (n : Nat) : (Evaluator.bounded n).Tightens := by
  induction n with
  | zero => exact ⟨fun _ => .refl _, fun _ => .refl _⟩
  | succ n ih => exact ⟨fun e => Eval.expression_tightens ih e, fun b => Eval.block_tightens ih b⟩

theorem Run.Tightens.eq_of_ok {α : Type} {x y : Run α} (h : x.Tightens y) {m n : Machine} {a : α}
    (hx : x m = .ok a n) : y m = .ok a n := by
  rcases h m with he | ⟨span, fault, k, he, -⟩
  · rw [← he, hx]
  · rw [hx] at he
    cases he

/-- From one machine, and for any bound on steps, an expression, a statement and a block come to the same
in strict mode as outside it, with the same machine after them, or the strict run ends with a refusal.
In particular the other run does all that a strict run does that succeeds. -/
theorem strict_run_agrees_or_refuses (n : Nat) (m : Machine) :
    (∀ e, evalExpression n e true m = evalExpression n e false m ∨ Refused (evalExpression n e true m)) ∧
    (∀ s, Eval.statement (.bounded n) s true m = Eval.statement (.bounded n) s false m ∨
      Refused (Eval.statement (.bounded n) s true m)) ∧
    (∀ body, evalBlock n body true m = evalBlock n body false m ∨
      Refused (evalBlock n body true m)) ∧
    (∀ e v k, evalExpression n e true m = .ok v k → evalExpression n e false m = .ok v k) ∧
    (∀ s flow k, Eval.statement (.bounded n) s true m = .ok flow k →
      Eval.statement (.bounded n) s false m = .ok flow k) ∧
    (∀ body flow k, evalBlock n body true m = .ok flow k → evalBlock n body false m = .ok flow k) := by
  have h := Evaluator.bounded_tightens n
  refine ⟨fun e => h.expression e m, fun s => Eval.statement_tightens h s m, fun b => h.block b m,
    ?_, ?_, ?_⟩
  · exact fun e v k hx => (h.expression e).eq_of_ok hx
  · exact fun s flow k hx => (Eval.statement_tightens h s).eq_of_ok hx
  · exact fun b flow k hx => (h.block b).eq_of_ok hx

end ScriptLang
