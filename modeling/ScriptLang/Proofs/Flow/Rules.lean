/-
# ScriptLang.Proofs.Flow.Rules — the rules of the evaluator are orderly.

An expression ends with a value and stops at no misplaced `break` or `return`, at whatever depth: the block
that a call runs stands one deeper, and the call takes what it ends with.  A statement ends as its shape
allows.  At the top level no call is around the statements of a program, and what would leave them fails.
-/
import ScriptLang.Proofs.Flow.Orderly
import ScriptLang.Proofs.Program

namespace ScriptLang

/-- Evaluators whose runs are orderly at every depth. -/
structure Evaluator.Orderly (parts : Evaluator) : Prop where
  expression : ∀ {d : Nat} {slips : Prop} (e : Expr) (strict : Bool),
    (parts.expression e strict).Orderly d (fun _ => True) slips
  block : ∀ {d : Nat} (body : List Stmt) (strict : Bool),
    (parts.block body strict).Orderly d (Flow.May (returnsIn body) (breaksIn body)) (d = 0 ∧ returnsIn body)

theorem ForLoop.returns_eq (loop : ForLoop) : loop.returns = returnsIn loop.body := by
  cases loop
  rfl

namespace Eval

open Run

variable {d : Nat} {slips : Prop}

/-! ## Expressions -/

theorem declareFunction_orderly (f : FunctionDeclaration) (strict : Bool) (span : Span) :
    (declareFunction f strict span).Orderly d (fun _ => True) slips := by
  unfold declareFunction
  refine Orderly.here.bind fun scope _ => Orderly.newStamp.bind fun stamp _ => ?_
  cases f.name with
  | some name => exact .declareIn _ _ _ _ _ _
  | none => exact .pure trivial

theorem ancestors_orderly (c : ClassDeclaration) (span : Span) :
    (ancestors c span).Orderly d (fun _ => True) slips := by
  unfold ancestors
  cases c.superclass with
  | none => exact .pure trivial
  | some parent =>
    refine (Orderly.lookup parent span).bind fun v _ => ?_
    cases v with
    | classValue c => exact .pure trivial
    | _ => exact .raise _ False.elim

theorem declareClass_orderly (c : ClassDeclaration) (strict : Bool) (span : Span) :
    (declareClass c strict span).Orderly d (fun _ => True) slips :=
  (ancestors_orderly c span).bind fun _ _ => Orderly.here.bind fun _ _ => Orderly.newStamp.bind fun _ _ =>
    .declareIn _ _ _ _ _ _

theorem bindParameters_orderly (scope : ScopeId) (strict : Bool) (span : Span) (ps : List (String × Value)) :
    (bindParameters scope strict span ps).Orderly d (fun _ => True) slips := by
  induction ps with
  | nil => exact .pure trivial
  | cons p rest ih => exact (Orderly.declareIn _ _ _ _ _ _).bind fun _ _ => ih

theorem readNames_orderly (scope : ScopeId) (span : Span) (names : List String) (done : Properties) :
    (readNames scope span names done).Orderly d (fun _ => True) slips := by
  induction names generalizing done with
  | nil => exact .pure trivial
  | cons name rest ih => exact (Orderly.lookupFrom _ _ _).bind fun v _ => ih _

theorem exported_orderly : exported.Orderly d (fun _ => True) slips := by
  intro m _
  rw [exported_run]
  exact .ok rfl trivial

theorem print_orderly (args : List Value) : (Builtin.print args).Orderly d (fun _ => True) slips := by
  induction args with
  | nil => exact .pure trivial
  | cons v rest ih => exact (Orderly.emit _).bind fun _ _ => ih

theorem readFile_orderly (n : Native) (args : List Value) (span : Span) :
    (Builtin.readFile n args span).Orderly d (fun _ => True) slips := by
  refine (Orderly.settle span (Builtin.path_placed n args)).bind fun path _ => ?_
  refine (Orderly.file path).bind fun outcome _ => ?_
  cases outcome with
  | ok text => exact .pure trivial
  | error reason => exact .raise _ False.elim

theorem prompt_orderly (args : List Value) (span : Span) :
    (Builtin.prompt args span).Orderly d (fun _ => True) slips := by
  refine (Orderly.settle span (Builtin.joined_placed _ args)).bind fun message _ => ?_
  refine (Orderly.emit _).bind fun _ _ => Orderly.answer.bind fun line _ => ?_
  cases line with
  | some line => exact .pure trivial
  | none => exact .pure trivial

variable {self : Evaluator} (h : self.Orderly)

include h

theorem expressions_orderly (es : List Expr) (strict : Bool) :
    (expressions self es strict).Orderly d (fun _ => True) slips := by
  induction es with
  | nil => exact .pure trivial
  | cons e rest ih => exact (h.expression e strict).bind fun _ _ => ih.bind fun _ _ => .pure trivial

theorem properties_orderly (ps : List Property) (strict : Bool) (done : Properties) :
    (properties self ps strict done).Orderly d (fun _ => True) slips := by
  induction ps generalizing done with
  | nil => exact .pure trivial
  | cons p rest ih =>
    unfold properties
    cases p.value with
    | some e => exact (h.expression e strict).bind fun v _ => ih _
    | none => exact (Orderly.lookup _ _).bind fun v _ => ih _

theorem propertyKey_orderly (property : Expr) (computed strict : Bool) :
    (propertyKey self property computed strict).Orderly d (fun _ => True) slips := by
  unfold propertyKey
  split
  · exact .pure trivial
  · refine (h.expression property strict).bind fun v _ => ?_
    cases v with
    | string key => exact .pure trivial
    | _ => exact .raise _ False.elim

theorem elementPlace_orderly (index : Expr) (length : Nat) (strict : Bool) (span : Span) :
    (elementPlace self index length strict span).Orderly d (fun _ => True) slips :=
  (h.expression index strict).bind fun v _ => .settle span (elementPosition_placed v length strict)

theorem memberValue_orderly (container : Value) (property : Expr) (computed strict : Bool) (span : Span) :
    (memberValue self container property computed strict span).Orderly d (fun _ => True) slips := by
  unfold memberValue
  split
  · next ps =>
    refine (propertyKey_orderly h property computed strict).bind fun key _ => ?_
    cases Properties.get? key ps with
    | some v => exact .pure trivial
    | none => exact .raise _ False.elim
  · split
    · exact (elementPlace_orderly h property _ strict span).bind fun _ _ => .pure trivial
    · exact .raise _ False.elim
  · exact .raise _ False.elim

theorem withMember_orderly (container : Value) (property : Expr) (computed : Bool) (value : Value)
    (strict : Bool) (span : Span) :
    (withMember self container property computed value strict span).Orderly d (fun _ => True) slips := by
  unfold withMember
  split
  · next ps =>
    refine (propertyKey_orderly h property computed strict).bind fun key _ => ?_
    split
    · exact .raise _ False.elim
    · exact .newObject _
  · split
    · refine (elementPlace_orderly h property _ strict span).bind fun place _ => ?_
      cases place with
      | some place => exact .newArray _
      | none => exact .raise _ False.elim
    · exact .raise _ False.elim
  · exact .raise _ False.elim

theorem assign_orderly (target value : Expr) (strict : Bool) (span : Span) :
    (assign self target value strict span).Orderly d (fun _ => True) slips := by
  unfold assign
  split
  · exact (h.expression value strict).bind fun _ _ => .reassign _ _ _
  · refine (Orderly.lookup _ _).bind fun container _ => (h.expression value strict).bind fun v _ => ?_
    refine (withMember_orderly h container _ _ v strict span).bind fun updated _ => ?_
    exact (Orderly.reassign _ _ _).bind fun _ _ => .pure trivial
  · exact .raise _ False.elim
  · exact .raise _ False.elim

/-! ## Conditions and loops -/

theorem initialValue_orderly (value : Option Expr) (strict : Bool) :
    (initialValue self value strict).Orderly d (fun _ => True) slips := by
  cases value with
  | some e => exact h.expression e strict
  | none => exact .pure trivial

theorem declareVariable_orderly (v : VariableDeclaration) (strict : Bool) (span : Span) :
    (declareVariable self v strict span).Orderly d (fun _ => True) slips :=
  (initialValue_orderly h v.value strict).bind fun _ _ => Orderly.here.bind fun _ _ =>
    .declareIn _ _ _ _ _ _

theorem holds_orderly (condition : Expr) (strict : Bool) :
    (holds self condition strict).Orderly d (fun _ => True) slips :=
  (h.expression condition strict).bind fun _ _ => .pure trivial

theorem ifBlock_orderly (condition : Expr) (body : List Stmt) (strict : Bool) :
    (ifBlock self condition body strict).Orderly d (Flow.May (returnsIn body) (breaksIn body))
      (d = 0 ∧ returnsIn body) := by
  unfold ifBlock
  refine (holds_orderly h condition strict).bind fun b _ => ?_
  cases b with
  | false => exact .pure trivial
  | true =>
    refine Orderly.here.bind fun here _ => (Orderly.newScope here).bind fun scope _ => ?_
    refine ((h.block body strict).within).bind fun flow ended => ?_
    cases flow with
    | value v => exact .pure trivial
    | leave => exact .pure ended
    | give v => exact .pure ended

omit h in
/-- A `return` leaves a loop inside a call only; outside one the loop fails. -/
theorem leaveLoop_orderly {body : List Stmt} (returns : returnsIn body) (v : Value) (span : Span) :
    (leaveLoop v span).Orderly d (Flow.May (0 < d ∧ returnsIn body) False) (d = 0 ∧ returnsIn body) := by
  refine Orderly.bind_frame fun frame depth => ?_
  split
  · next inside => exact .pure ⟨by omega, returns⟩
  · next outside => exact .raise _ fun _ => ⟨by omega, returns⟩

theorem whilePasses_orderly (scope : ScopeId) (condition : Expr) (body : List Stmt) (strict : Bool) (n : Nat) :
    (whilePasses self scope condition body strict n).Orderly d (Flow.May (returnsIn body) False)
      (d = 0 ∧ returnsIn body) := by
  induction n with
  | zero => exact .outOfFuel
  | succ n ih =>
    unfold whilePasses
    refine (h.block body strict).bind fun flow ended => ?_
    cases flow with
    | leave => exact .pure trivial
    | give v => exact .pure ended
    | value v =>
      refine (Orderly.beginPass scope).bind fun _ _ => (holds_orderly h condition strict).bind fun b _ => ?_
      cases b with
      | false => exact .pure trivial
      | true => exact ih

theorem whileLoop_orderly (condition : Expr) (body : List Stmt) (strict : Bool) (span : Span) :
    (whileLoop self condition body strict span).Orderly d (Flow.May (0 < d ∧ returnsIn body) False)
      (d = 0 ∧ returnsIn body) := by
  unfold whileLoop
  refine (holds_orderly h condition strict).bind fun b _ => ?_
  cases b with
  | false => exact .pure trivial
  | true =>
    refine Orderly.here.bind fun here _ => (Orderly.newScope here).bind fun scope _ => ?_
    refine (whilePasses_orderly h scope condition body strict self.bound).within.bind fun flow ended => ?_
    cases flow with
    | value v => exact .pure trivial
    | leave => exact .pure ended
    | give v => exact leaveLoop_orderly ended v span

theorem startNumber_orderly (value : Option Expr) (strict : Bool) :
    (startNumber self value strict).Orderly d (fun _ => True) slips := by
  cases value with
  | none => exact .pure trivial
  | some e =>
    refine (h.expression e strict).bind fun v _ => ?_
    cases v with
    | number x => exact .pure trivial
    | _ => exact .raise _ False.elim

theorem stepCounter_orderly (loop : ForLoop) (scope : ScopeId) (counter : Float) (strict : Bool) :
    (stepCounter self loop scope counter strict).Orderly d (fun _ => True) slips := by
  refine (Orderly.declareIn _ _ _ _ _ _).bind fun _ _ => ?_
  refine (h.expression (stepExpression loop.iterator) strict).within.bind fun v _ => ?_
  cases v with
  | number x => exact .pure trivial
  | _ => exact .raise _ False.elim

/-- A pass whose condition does not hold ends as one that breaks. -/
theorem forPass_orderly (loop : ForLoop) (strict : Bool) :
    (forPass self loop strict).Orderly d (Flow.May (returnsIn loop.body) True)
      (d = 0 ∧ returnsIn loop.body) := by
  unfold forPass
  refine (holds_orderly h loop.condition strict).bind fun b _ => ?_
  cases b with
  | false => exact .pure trivial
  | true => exact (h.block loop.body strict).mono (fun flow ended => ended.mono id fun _ => trivial) id

theorem forPasses_orderly (loop : ForLoop) (strict : Bool) (span : Span) (n : Nat) (counter : Float) :
    (forPasses self loop strict span n counter).Orderly d (Flow.May (0 < d ∧ returnsIn loop.body) False)
      (d = 0 ∧ returnsIn loop.body) := by
  induction n generalizing counter with
  | zero => exact .outOfFuel
  | succ n ih =>
    unfold forPasses
    refine Orderly.here.bind fun here _ => (Orderly.newScope here).bind fun scope _ => ?_
    refine (Orderly.declareIn _ _ _ _ _ _).bind fun _ _ => ?_
    refine (forPass_orderly h loop strict).within.bind fun flow ended => ?_
    cases flow with
    | leave => exact .pure trivial
    | give v => exact leaveLoop_orderly ended v span
    | value v => exact (stepCounter_orderly h loop scope counter strict).bind fun next _ => ih next

theorem forLoop_orderly (loop : ForLoop) (strict : Bool) (span : Span) :
    (forLoop self loop strict span).Orderly d (Flow.May (0 < d ∧ returnsIn loop.body) False)
      (d = 0 ∧ returnsIn loop.body) :=
  (startNumber_orderly h loop.counter.value strict).bind fun start _ =>
    forPasses_orderly h loop strict span self.bound start

/-! ## Statements and their sequences -/

theorem statement_orderly (s : Stmt) (strict : Bool) :
    (statement self s strict).Orderly d (Flow.May s.returns s.breaks) (d = 0 ∧ s.returns) := by
  cases s with
  | variableDeclaration span v => exact (declareVariable_orderly h v strict span).map _ fun _ _ => trivial
  | functionDeclaration span f => exact (declareFunction_orderly f strict span).map _ fun _ _ => trivial
  | classDeclaration span c => exact (declareClass_orderly c strict span).map _ fun _ _ => trivial
  | ifBlock span condition body =>
    simp only [Stmt.returns, Stmt.breaks]
    exact ifBlock_orderly h condition body strict
  | whileLoop span condition body =>
    simp only [Stmt.returns]
    exact (whileLoop_orderly h condition body strict span).mono
      (fun flow ended => ended.mono (fun inside => inside.2) False.elim) id
  | forLoop span loop =>
    simp only [Stmt.returns, loop.returns_eq]
    exact (forLoop_orderly h loop strict span).mono
      (fun flow ended => ended.mono (fun inside => inside.2) False.elim) id
  | breakLoop span =>
    simp only [Stmt.breaks]
    exact .pure trivial
  | returnValue span e =>
    simp only [Stmt.returns]
    exact (h.expression e strict).map _ fun _ _ => trivial
  | expression span e => exact (h.expression e strict).map _ fun _ _ => trivial

/-- A loop takes each `break` of its body, and outside calls it lets no `return` pass. -/
theorem statement_of_isLoop {s : Stmt} (isLoop : s.isLoop) (strict : Bool) :
    (statement self s strict).Orderly d (Flow.May (0 < d) False) True := by
  have out {body : List Stmt} {x : Run Flow}
      (ran : x.Orderly d (Flow.May (0 < d ∧ returnsIn body) False) (d = 0 ∧ returnsIn body)) :
      x.Orderly d (Flow.May (0 < d) False) True :=
    ran.mono (fun flow ended => ended.mono And.left id) fun _ => trivial
  cases s with
  | whileLoop span condition body => exact out (whileLoop_orderly h condition body strict span)
  | forLoop span loop => exact out (forLoop_orderly h loop strict span)
  | _ => cases isLoop

theorem block_orderly (body : List Stmt) (strict : Bool) :
    (block self body strict).Orderly d (Flow.May (returnsIn body) (breaksIn body)) (d = 0 ∧ returnsIn body) := by
  induction body generalizing strict with
  | nil => exact .pure trivial
  | cons s rest ih =>
    have rest_may (strict : Bool) :
        (block self rest strict).Orderly d (Flow.May (returnsIn (s :: rest)) (breaksIn (s :: rest)))
          (d = 0 ∧ returnsIn (s :: rest)) := by
      refine (ih strict).mono (fun flow ended => ended.mono ?_ ?_) ?_
      all_goals simp +contextual [returnsIn, breaksIn]
    unfold block
    cases strictDirective? s with
    | some mode => exact rest_may mode
    | none =>
      have first : (statement self s strict).Orderly d (Flow.May (returnsIn (s :: rest)) (breaksIn (s :: rest)))
          (d = 0 ∧ returnsIn (s :: rest)) := by
        refine (statement_orderly h s strict).mono (fun flow ended => ended.mono ?_ ?_) ?_
        all_goals simp +contextual [returnsIn, breaksIn]
      refine first.bind fun flow ended => ?_
      cases flow with
      | value v => exact rest_may strict
      | leave => exact .pure ended
      | give v => exact .pure ended

/-! ## Programs -/

theorem topStatement_orderly (s : Stmt) (strict : Bool) :
    (topStatement self s strict).Orderly 0 (fun _ => True) (s.returns ∨ s.breaks) := by
  unfold topStatement
  split
  · exact .raise _ fun _ => by simp [Stmt.returns]
  · exact .raise _ fun _ => by simp [Stmt.breaks]
  · have ran : (statement self s strict).Orderly 0 (Flow.May s.returns s.breaks) (s.returns ∨ s.breaks) :=
      (statement_orderly h s strict).mono (fun _ => id) fun slipped => .inl slipped.2
    refine ran.bind fun flow ended => ?_
    cases flow with
    | value v => exact .pure trivial
    | leave => exact .raise _ fun _ => .inr ended
    | give v => exact .raise _ fun _ => .inl ended

theorem programFrom_orderly (p : Program) (strict : Bool) (last : Value) :
    (programFrom self p strict last).Orderly 0 (fun _ => True) (returnsIn p ∨ breaksIn p) := by
  induction p generalizing strict last with
  | nil => exact .pure trivial
  | cons s rest ih =>
    have later (strict : Bool) (last : Value) : (programFrom self rest strict last).Orderly 0 (fun _ => True)
        (returnsIn (s :: rest) ∨ breaksIn (s :: rest)) := by
      refine (ih strict last).mono (fun _ => id) ?_
      rintro (returns | breaks)
      · simp [returnsIn, returns]
      · simp [breaksIn, breaks]
    cases directive : strictDirective? s with
    | some mode =>
      rw [programFrom_directive self rest strict last directive]
      exact later mode last
    | none =>
      rw [programFrom_statement self rest strict last directive]
      have first : (topStatement self s strict).Orderly 0 (fun _ => True)
          (returnsIn (s :: rest) ∨ breaksIn (s :: rest)) := by
        refine (topStatement_orderly h s strict).mono (fun _ => id) ?_
        rintro (returns | breaks)
        · simp [returnsIn, returns]
        · simp [breaksIn, breaks]
      exact first.bind fun v _ => later strict v

theorem program_orderly (p : Program) :
    (program self p).Orderly 0 (fun _ => True) (returnsIn p ∨ breaksIn p) := by
  unfold program
  refine (programFrom_orderly h p false .null).bind fun last _ => exported_orderly.bind fun set _ => ?_
  cases set with
  | some v => exact .pure trivial
  | none => exact .pure trivial

/-! ## Calls and instances -/

/-- A call takes what its body ends with. -/
theorem callFunction_orderly (f : Function) (args : List Value) (strict : Bool) (span : Span) :
    (callFunction self f args strict span).Orderly d (fun _ => True) slips := by
  unfold callFunction
  dsimp only
  split
  · exact .raise _ False.elim
  · refine (Orderly.newScope f.closure).bind fun scope _ => ?_
    refine (bindParameters_orderly scope strict span _).bind fun _ _ => ?_
    have body : (inCall scope (self.block f.declaration.body strict)).Orderly d (fun _ => True) slips :=
      .inCall ((h.block f.declaration.body strict).mono (fun _ _ => trivial) fun slipped => by omega)
    refine body.bind fun flow _ => ?_
    cases flow <;> exact .pure trivial

theorem runSource_orderly (source : String) (span : Span) :
    (runSource self source span).Orderly d (fun _ => True) slips := by
  unfold runSource
  cases Program.ofSource? source with
  | error e => exact .raise _ False.elim
  | ok p =>
    refine Orderly.here.bind fun here _ => (Orderly.newScope here).bind fun scope _ => ?_
    exact .fromSource span (.withFrame (program_orderly h p))

theorem callNative_orderly (n : Native) (args : List Value) (span : Span) :
    (callNative self n args span).Orderly d (fun _ => True) slips := by
  cases n with
  | print => exact (print_orderly args).bind fun _ _ => .pure trivial
  | time => exact Orderly.clock.map _ fun _ _ => trivial
  | readFile => exact (readFile_orderly _ args span).map _ fun _ _ => trivial
  | evalFile => exact (readFile_orderly _ args span).bind fun source _ => runSource_orderly h source span
  | evaluate =>
    exact (Orderly.settle span (Builtin.joined_placed _ args)).bind fun source _ =>
      runSource_orderly h source span
  | prompt => exact prompt_orderly args span
  | objectHas => exact (Orderly.settle span (Builtin.objectHas_placed args)).map _ fun _ _ => trivial
  | objectAllHas => exact (Orderly.settle span (Builtin.objectAllHas_placed args)).map _ fun _ _ => trivial
  | objectKeys | objectValues =>
    exact (Orderly.settle span (Builtin.oneObject_placed _ args)).bind fun ps _ => .newArray _
  | hosted name => exact .pure trivial

theorem call_orderly (callee : Value) (args : List Value) (strict : Bool) (span : Span) :
    (call self callee args strict span).Orderly d (fun _ => True) slips := by
  cases callee with
  | native stamp n => exact callNative_orderly h n args span
  | function f => exact callFunction_orderly h f args strict span
  | _ => exact .raise _ False.elim

theorem layMember_orderly (scope : ScopeId) (strict : Bool) (span : Span) (a : Assembly) (m : Member) :
    (layMember self scope strict span a m).Orderly d (fun _ => True) slips := by
  cases m with
  | property visibility v =>
    unfold layMember
    dsimp only
    cases v.value with
    | some e =>
      exact (h.expression e strict).within.bind fun _ _ => (Orderly.declareIn _ _ _ _ _ _).bind fun _ _ =>
        .pure trivial
    | none => exact (Orderly.declareIn _ _ _ _ _ _).bind fun _ _ => .pure trivial
  | method visibility f =>
    unfold layMember
    refine Orderly.newStamp.bind fun stamp _ => ?_
    dsimp only
    split
    · exact .pure trivial
    · exact (Orderly.declareIn _ _ _ _ _ _).bind fun _ _ => .pure trivial

theorem layMembers_orderly (scope : ScopeId) (strict : Bool) (span : Span) (ms : List Member) (a : Assembly) :
    (layMembers self scope strict span ms a).Orderly d (fun _ => True) slips := by
  induction ms generalizing a with
  | nil => exact .pure trivial
  | cons m rest ih => exact (layMember_orderly h scope strict span a m).bind fun a _ => ih a

theorem construct_orderly (constructor : Option Function) (args : List Value) (strict : Bool) (span : Span) :
    (construct self constructor args strict span).Orderly d (fun _ => True) slips := by
  cases constructor with
  | none => exact .pure trivial
  | some f => exact (callFunction_orderly h f args strict span).bind fun _ _ => .pure trivial

theorem instantiate_orderly (c : Class) (args : List Value) (strict : Bool) (span : Span) :
    (instantiate self c args strict span).Orderly d (fun _ => True) slips := by
  unfold instantiate
  refine (Orderly.newScope c.closure).bind fun scope _ => ?_
  refine (layMembers_orderly h scope strict span _ _).bind fun a _ => ?_
  refine (construct_orderly h a.constructor args strict span).bind fun _ _ => ?_
  exact (readNames_orderly scope span a.visible []).bind fun ps _ => .newObject ps

theorem expression_orderly (e : Expr) (strict : Bool) :
    (expression self e strict).Orderly d (fun _ => True) slips := by
  cases e with
  | identifier span name => exact .lookup name span
  | number | string | null => exact .pure trivial
  | object span ps => exact (properties_orderly h ps strict []).bind fun ps _ => .newObject ps
  | array span es => exact (expressions_orderly h es strict).bind fun vs _ => .newArray vs
  | binary span left operator right =>
    refine (h.expression left strict).bind fun v _ => (h.expression right strict).bind fun w _ => ?_
    exact .settle span (operator.apply_placed strict v w)
  | assign span target value => exact assign_orderly h target value strict span
  | member span object property computed =>
    exact (h.expression object strict).bind fun v _ => memberValue_orderly h v property computed strict span
  | call span callee arguments =>
    refine (expressions_orderly h arguments strict).bind fun args _ => ?_
    exact (h.expression callee strict).bind fun f _ => call_orderly h f args strict span
  | function span f => exact declareFunction_orderly f strict span
  | instantiate span target arguments =>
    refine (expressions_orderly h arguments strict).bind fun args _ => ?_
    refine (h.expression target strict).bind fun v _ => ?_
    cases v with
    | classValue c => exact instantiate_orderly h c args strict span
    | _ => exact .raise _ False.elim

end Eval

/-- Evaluators with a bound are orderly, by induction on the bound. -/
theorem Evaluator.bounded_orderly (n : Nat) : (Evaluator.bounded n).Orderly := by
  induction n with
  | zero => exact ⟨fun _ _ => .outOfFuel, fun _ _ => .outOfFuel⟩
  | succ n ih =>
    exact ⟨fun e strict => Eval.expression_orderly ih e strict, fun b strict => Eval.block_orderly ih b strict⟩

end ScriptLang
