/-
# ScriptLang.Proofs.Alike.Statement — statements that differ only in places run alike.

One lemma for each rule of statements: given evaluators under which expressions and blocks that are alike
run alike, the rule has runs that are alike for trees that are alike.
-/
import ScriptLang.Proofs.Alike.Machine
import ScriptLang.Proofs.Program

namespace ScriptLang

variable {L : Likeness}

/-- Ends of statements that differ only in places. -/
inductive Flow.Alike (L : Likeness) : Flow → Flow → Prop
  | value {v v' : Value} (h : v.Alike L v') : Flow.Alike L (.value v) (.value v')
  | leave : Flow.Alike L .leave .leave
  | give {v v' : Value} (h : v.Alike L v') : Flow.Alike L (.give v) (.give v')

/-- Evaluators under which trees that are alike run alike. -/
structure Evaluator.Alike (L : Likeness) (parts : Evaluator) : Prop where
  expression : ∀ {e e' : Expr}, e.Alike L e' → ∀ strict,
    Run.Alike L (Value.Alike L) (parts.expression e strict) (parts.expression e' strict)
  block : ∀ {body body' : List Stmt}, List.Forall₂ (Stmt.Alike L) body body' → ∀ strict,
    Run.Alike L (Flow.Alike L) (parts.block body strict) (parts.block body' strict)

namespace Eval

open Run

/-! ## Declarations -/

theorem declareFunction_alike {d d' : FunctionDeclaration} (h : d.Alike L d') (strict : Bool)
    {s s' : Span} (hs : L.spans s s') :
    Run.Alike L (Value.Alike L) (declareFunction d strict s) (declareFunction d' strict s') := by
  refine Alike.here.bind_eq fun scope => Alike.newStamp.bind_eq fun stamp => ?_
  have made : (Value.function ⟨stamp, d, scope⟩).Alike L (.function ⟨stamp, d', scope⟩) :=
    .function ⟨rfl, h, rfl⟩
  cases h with
  | @mk name parameters body body' isAsync visibility hn hp hb =>
    cases name with
    | none => exact .pure made
    | some name => exact .declareIn scope (hn name rfl) made true strict hs

theorem ancestors_alike {d d' : ClassDeclaration} (h : d.Alike L d') {s s' : Span}
    (hs : L.spans s s') :
    Run.Alike L (List.Forall₂ (ClassLayer.Alike L)) (ancestors d s) (ancestors d' s') := by
  cases h with
  | @mk name superclass members members' hn hp hm =>
    cases superclass with
    | none => exact .pure .nil
    | some parent =>
      refine (Alike.lookup (hp parent rfl) hs).bind fun v v' hv => ?_
      cases hv with
      | classValue hc => exact .pure (.cons hc.layer hc.ancestors)
      | _ => exact .raise hs _

theorem declareClass_alike {d d' : ClassDeclaration} (h : d.Alike L d') (strict : Bool) {s s' : Span}
    (hs : L.spans s s') :
    Run.Alike L (Value.Alike L) (declareClass d strict s) (declareClass d' strict s') := by
  refine (ancestors_alike h hs).bind fun above above' ha => ?_
  refine Alike.here.bind_eq fun scope => Alike.newStamp.bind_eq fun stamp => ?_
  have made : (Value.classValue ⟨⟨stamp, d, scope⟩, above⟩).Alike L
      (.classValue ⟨⟨stamp, d', scope⟩, above'⟩) :=
    .classValue ⟨⟨rfl, h, rfl⟩, ha⟩
  cases h with
  | mk hn hp hm => exact .declareIn scope hn made true strict hs

theorem leaveLoop_alike {v v' : Value} (hv : v.Alike L v') {s s' : Span} (hs : L.spans s s') :
    Run.Alike L (Flow.Alike L) (leaveLoop v s) (leaveLoop v' s') := by
  refine Alike.frame.bind_eq fun f => ?_
  split
  · exact .pure (.give hv)
  · exact .raise hs _

variable {self : Evaluator} (h : self.Alike L)

include h

theorem initialValue_alike {value value' : Option Expr} (hv : Option.Rel (Expr.Alike L) value value')
    (strict : Bool) :
    Run.Alike L (Value.Alike L) (initialValue self value strict) (initialValue self value' strict) := by
  cases hv with
  | none => exact .pure .null
  | some he => exact h.expression he strict

theorem declareVariable_alike {d d' : VariableDeclaration} (hd : d.Alike L d') (strict : Bool)
    {s s' : Span} (hs : L.spans s s') :
    Run.Alike L (Value.Alike L) (declareVariable self d strict s)
      (declareVariable self d' strict s') := by
  cases hd with
  | mk hn he =>
    refine (initialValue_alike h he strict).bind fun v v' hv => Alike.here.bind_eq fun scope => ?_
    exact .declareIn scope hn hv _ strict hs

/-! ## Conditions and loops -/

theorem holds_alike {condition condition' : Expr} (hc : condition.Alike L condition') (strict : Bool) :
    Run.Alike L Eq (holds self condition strict) (holds self condition' strict) := by
  refine (h.expression hc strict).bind fun v v' hv => ?_
  rw [hv.isTruthy]
  exact .pure rfl

theorem ifBlock_alike {condition condition' : Expr} {body body' : List Stmt}
    (hc : condition.Alike L condition') (hb : List.Forall₂ (Stmt.Alike L) body body') (strict : Bool) :
    Run.Alike L (Flow.Alike L) (ifBlock self condition body strict)
      (ifBlock self condition' body' strict) := by
  refine (holds_alike h hc strict).bind_eq fun b => ?_
  cases b with
  | false => exact .pure (.value .null)
  | true =>
    refine Alike.here.bind_eq fun here => (Alike.newScope here).bind_eq fun scope => ?_
    refine ((h.block hb strict).within scope).bind fun flow flow' hf => ?_
    cases hf with
    | value hv => exact .pure (.value .null)
    | leave => exact .pure .leave
    | give hv => exact .pure (.give hv)

theorem whilePasses_alike (scope : ScopeId) {condition condition' : Expr} {body body' : List Stmt}
    (hc : condition.Alike L condition') (hb : List.Forall₂ (Stmt.Alike L) body body') (strict : Bool)
    (n : Nat) :
    Run.Alike L (Flow.Alike L) (whilePasses self scope condition body strict n)
      (whilePasses self scope condition' body' strict n) := by
  induction n with
  | zero => exact .outOfFuel
  | succ n ih =>
    refine (h.block hb strict).bind fun flow flow' hf => ?_
    cases hf with
    | leave => exact .pure (.value .null)
    | give hv => exact .pure (.give hv)
    | value hv =>
      refine (Alike.beginPass scope).bind_eq fun _ => (holds_alike h hc strict).bind_eq fun b => ?_
      cases b with
      | false => exact .pure (.value .null)
      | true => exact ih

theorem whileLoop_alike {condition condition' : Expr} {body body' : List Stmt}
    (hc : condition.Alike L condition') (hb : List.Forall₂ (Stmt.Alike L) body body') (strict : Bool)
    {s s' : Span} (hs : L.spans s s') :
    Run.Alike L (Flow.Alike L) (whileLoop self condition body strict s)
      (whileLoop self condition' body' strict s') := by
  refine (holds_alike h hc strict).bind_eq fun b => ?_
  cases b with
  | false => exact .pure (.value .null)
  | true =>
    refine Alike.here.bind_eq fun here => (Alike.newScope here).bind_eq fun scope => ?_
    have passes := (whilePasses_alike h scope hc hb strict self.bound).within scope
    refine passes.bind fun flow flow' hf => ?_
    cases hf with
    | give hv => exact leaveLoop_alike hv hs
    | leave => exact .pure .leave
    | value hv => exact .pure (.value hv)

theorem startNumber_alike {value value' : Option Expr} (hv : Option.Rel (Expr.Alike L) value value')
    (strict : Bool) :
    Run.Alike L Eq (startNumber self value strict) (startNumber self value' strict) := by
  cases hv with
  | none => exact .pure rfl
  | some he =>
    refine (h.expression he strict).bind fun v v' hv => ?_
    cases hv with
    | number x => exact .pure rfl
    | _ => exact .raise he.span _

theorem stepCounter_alike {loop loop' : ForLoop} (hl : loop.Alike L loop') (scope : ScopeId)
    (counter : Float) (strict : Bool) :
    Run.Alike L Eq (stepCounter self loop scope counter strict)
      (stepCounter self loop' scope counter strict) := by
  cases hl with
  | mk hv hc hi hb =>
    cases hv with
    | mk hn he =>
      refine (Alike.declareIn scope hn (.number counter) false false hi.span).bind fun _ _ _ => ?_
      refine ((h.expression (stepExpression_alike hi) strict).within scope).bind fun v v' hv => ?_
      cases hv with
      | number x => exact .pure rfl
      | _ => exact .raise hi.span _

theorem forPass_alike {loop loop' : ForLoop} (hl : loop.Alike L loop') (strict : Bool) :
    Run.Alike L (Flow.Alike L) (forPass self loop strict) (forPass self loop' strict) := by
  cases hl with
  | mk hv hc hi hb =>
    refine (holds_alike h hc strict).bind_eq fun b => ?_
    cases b with
    | false => exact .pure .leave
    | true => exact h.block hb strict

theorem forPasses_alike {loop loop' : ForLoop} (hl : loop.Alike L loop') (strict : Bool) {s s' : Span}
    (hs : L.spans s s') (n : Nat) (counter : Float) :
    Run.Alike L (Flow.Alike L) (forPasses self loop strict s n counter)
      (forPasses self loop' strict s' n counter) := by
  induction n generalizing counter with
  | zero => exact .outOfFuel
  | succ n ih =>
    have declared (scope : ScopeId) : Run.Alike L (Value.Alike L)
        (declareIn scope loop.counter.name (.number counter) loop.counter.constant false s)
        (declareIn scope loop'.counter.name (.number counter) loop'.counter.constant false s') := by
      cases hl with
      | mk hv hc hi hb =>
        cases hv with
        | mk hn he => exact .declareIn scope hn (.number counter) _ false hs
    refine Alike.here.bind_eq fun here => (Alike.newScope here).bind_eq fun scope => ?_
    refine (declared scope).bind fun _ _ _ => ?_
    refine ((forPass_alike h hl strict).within scope).bind fun flow flow' hf => ?_
    cases hf with
    | leave => exact .pure (.value .null)
    | give hv => exact leaveLoop_alike hv hs
    | value hv => exact (stepCounter_alike h hl scope counter strict).bind_eq fun next => ih next

theorem forLoop_alike {loop loop' : ForLoop} (hl : loop.Alike L loop') (strict : Bool) {s s' : Span}
    (hs : L.spans s s') :
    Run.Alike L (Flow.Alike L) (forLoop self loop strict s) (forLoop self loop' strict s') := by
  have start : Run.Alike L Eq (startNumber self loop.counter.value strict)
      (startNumber self loop'.counter.value strict) := by
    cases hl with
    | mk hv hc hi hb =>
      cases hv with
      | mk hn he => exact startNumber_alike h he strict
  exact start.bind_eq fun first => forPasses_alike h hl strict hs self.bound first

/-! ## Statements and their sequences -/

theorem statement_alike {s s' : Stmt} (ha : s.Alike L s') (strict : Bool) :
    Run.Alike L (Flow.Alike L) (statement self s strict) (statement self s' strict) := by
  cases ha with
  | variableDeclaration hs hd => exact (declareVariable_alike h hd strict hs).map fun _ _ => .value
  | functionDeclaration hs hd => exact (declareFunction_alike hd strict hs).map fun _ _ => .value
  | classDeclaration hs hd => exact (declareClass_alike hd strict hs).map fun _ _ => .value
  | ifBlock hs hc hb => exact ifBlock_alike h hc hb strict
  | whileLoop hs hc hb => exact whileLoop_alike h hc hb strict hs
  | forLoop hs hl => exact forLoop_alike h hl strict hs
  | breakLoop hs => exact .pure .leave
  | returnValue hs he => exact (h.expression he strict).map fun _ _ => .give
  | expression hs he => exact (h.expression he strict).map fun _ _ => .value

theorem block_alike {body body' : List Stmt} (hb : List.Forall₂ (Stmt.Alike L) body body')
    (strict : Bool) : Run.Alike L (Flow.Alike L) (block self body strict) (block self body' strict) := by
  induction hb generalizing strict with
  | nil => exact .pure (.value .null)
  | @cons s s' rest rest' hs _ ih =>
    unfold block
    rw [strictDirective?_alike hs]
    cases strictDirective? s with
    | some mode => exact ih mode
    | none =>
      refine (statement_alike h hs strict).bind fun flow flow' hf => ?_
      cases hf with
      | value hv => exact ih strict
      | leave => exact .pure .leave
      | give hv => exact .pure (.give hv)

/-! ## Programs -/

theorem topStatement_alike {s s' : Stmt} (hs : s.Alike L s') (strict : Bool) :
    Run.Alike L (Value.Alike L) (topStatement self s strict) (topStatement self s' strict) := by
  have ran {f f' : Flow → Run Value}
      (k : ∀ flow flow', flow.Alike L flow' → Run.Alike L (Value.Alike L) (f flow) (f' flow')) :
      Run.Alike L (Value.Alike L) (statement self s strict >>= f) (statement self s' strict >>= f') :=
    (statement_alike h hs strict).bind k
  have here := hs.span
  cases hs with
  | returnValue hs he => exact .raise hs _
  | breakLoop hs => exact .raise hs _
  | _ =>
    refine ran fun flow flow' hf => ?_
    cases hf with
    | value hv => exact .pure hv
    | leave | give => exact .raise here _

theorem programFrom_alike {p p' : Program} (hp : p.Alike L p') (strict : Bool) {last last' : Value}
    (hl : last.Alike L last') :
    Run.Alike L (Value.Alike L) (programFrom self p strict last) (programFrom self p' strict last') := by
  induction hp generalizing strict last last' with
  | nil => exact .pure hl
  | @cons s s' rest rest' hs _ ih =>
    have same := strictDirective?_alike hs
    cases directive : strictDirective? s with
    | some mode =>
      rw [programFrom_directive self rest strict last directive,
        programFrom_directive self rest' strict last' (same.trans directive)]
      exact ih mode hl
    | none =>
      rw [programFrom_statement self rest strict last directive,
        programFrom_statement self rest' strict last' (same.trans directive)]
      exact (topStatement_alike h hs strict).bind fun v v' hv => ih strict hv

omit h in
theorem exported_alike (hn : L.names Builtin.resultObject) :
    Run.Alike L (Option.Rel (Value.Alike L)) exported exported := by
  intro m m' hm
  unfold exported
  rw [hm.frame]
  have found := hm.scopes.value hn m.frame.scope
  generalize m.scopes.value m.frame.scope Builtin.resultObject = before,
    m'.scopes.value m.frame.scope Builtin.resultObject = after at found ⊢
  cases found with
  | error fault => exact .ok .none hm
  | ok hv =>
    cases hv with
    | object hp => exact .ok (Properties.Alike.get? hp Builtin.resultKey) hm
    | _ => exact .ok .none hm

theorem program_alike (hn : L.names Builtin.resultObject) {p p' : Program} (hp : p.Alike L p') :
    Run.Alike L (Value.Alike L) (program self p) (program self p') := by
  refine (programFrom_alike h hp false .null).bind fun last last' hl => ?_
  refine (exported_alike hn).bind fun result result' hr => ?_
  cases hr with
  | none => exact .pure hl
  | some hv => exact .pure hv

end Eval

end ScriptLang
