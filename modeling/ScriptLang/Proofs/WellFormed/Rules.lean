/-
# ScriptLang.Proofs.WellFormed.Rules — well-formed code never makes a rule fall back.

A few rules of the evaluator have a branch for trees that break the rules of the reader: a loop whose
counter is given no number, a loop whose iterator is no assignment, an assignment to what is no target, a dot
before what is no name.  The guarded evaluator asks a second evaluator at exactly these trees, before it
looks at anything else.  On sound machines and for well-formed code it does what the evaluator does, whatever
that second evaluator is: so the branches are not reached.
-/
import ScriptLang.Proofs.Program
import ScriptLang.Proofs.Syntax.WellFormed
import ScriptLang.Proofs.WellFormed.Sound

namespace ScriptLang

/-! ## Falling back -/

/-- Is an expression an assignment? -/
def Expr.isAssignment : Expr → Bool
  | .assign _ _ _ => true
  | _ => false

/-- Does an expression name a member by a dot before what is no name? -/
def Expr.misnamesMember : Expr → Bool
  | .member _ _ property computed => !computed && !property.isName
  | _ => false

/-- Does the rule of an expression fall back?  What is assigned to is no target, or a dot is before what is no
name. -/
def Expr.fallsBack : Expr → Bool
  | .assign _ target _ => !Grammar.isTarget target || target.misnamesMember
  | e => e.misnamesMember

/-- Does the rule of a statement fall back?  A loop gives its counter no number, or its iterator is no
assignment. -/
def Stmt.fallsBack : Stmt → Bool
  | .forLoop _ loop => !Grammar.startsAtNumber loop.counter || !loop.iterator.isAssignment
  | _ => false

/-- The evaluator with a bound that leaves each expression whose rule falls back, and each block with such a
statement, to another evaluator. -/
def Evaluator.guarded (other : Evaluator) : Nat → Evaluator
  | 0 => .bounded 0
  | n + 1 => ⟨n + 1,
    fun e strict =>
      if e.fallsBack then other.expression e strict else Eval.expression (guarded other n) e strict,
    fun body strict =>
      if body.any Stmt.fallsBack then other.block body strict else Eval.block (guarded other n) body strict⟩

theorem Expr.not_fallsBack {e : Expr} (h : e.isWellFormed) : e.fallsBack = false := by
  have named {e : Expr} (h : e.isWellFormed) : e.misnamesMember = false := by
    cases e with
    | member span object property computed =>
      simp only [Expr.isWellFormed, Bool.and_eq_true] at h
      cases computed with
      | true => rfl
      | false =>
        have name : property.isName := h.2
        simp [misnamesMember, name]
    | _ => rfl
  cases e with
  | assign span target value =>
    simp only [isWellFormed, Bool.and_eq_true] at h
    simp [fallsBack, h.1.1, named h.1.2]
  | _ => exact named h

theorem Expr.not_fallsBack_of_isNull {e : Expr} (h : e.isNull) : e.fallsBack = false := by
  cases e with
  | null => rfl
  | _ => cases h

theorem Stmt.not_fallsBack {s : Stmt} (h : s.isWellFormed) : s.fallsBack = false := by
  cases s with
  | forLoop span loop =>
    obtain ⟨counter, condition, iterator, body⟩ := loop
    simp only [isWellFormed, ForLoop.isWellFormed, Bool.and_eq_true] at h
    obtain ⟨⟨⟨⟨⟨⟨-, -⟩, starts⟩, -⟩, -⟩, steps⟩, -⟩ := h
    have assigns : iterator.isAssignment := by
      cases iterator with
      | assign => rfl
      | _ => cases steps
    simp [fallsBack, starts, assigns]
  | _ => rfl

/-! ## Rules -/

/-- Two evaluators that are secure together on well-formed code. -/
structure Evaluator.Secure (parts parts' : Evaluator) : Prop where
  bound : parts'.bound = parts.bound
  expression : ∀ {e : Expr} (strict : Bool), e.isNull ∨ e.isWellFormed →
    Run.Secure Value.Sound (parts.expression e strict) (parts'.expression e strict)
  block : ∀ {body : List Stmt} (strict : Bool), stmtsAreWellFormed body →
    Run.Secure Flow.Sound (parts.block body strict) (parts'.block body strict)

theorem Operator.sound_of_apply {operator : Operator} {strict : Bool} {v w u : Value} (hv : v.Sound)
    (hw : w.Sound) (h : operator.apply strict v w = .ok u) : u.Sound := by
  have numbers {operator : Operator} {x y : Float} {u : Value} (h : operator.applyNumbers strict x y = .ok u) :
      u.Sound := by
    cases operator with
    | divide =>
      unfold applyNumbers at h
      dsimp only at h
      cases quotient : ScriptLang.divide strict x y with
      | ok z =>
        rw [quotient] at h
        cases h
        exact .number z
      | error fault =>
        rw [quotient] at h
        cases h
    | add | subtract | multiply | modulo =>
      cases h
      exact .number _
    | less | lessEqual | greater | greaterEqual =>
      cases h
      exact .bool _
    | equal | notEqual | nullish => cases h
  have ordinary {operator : Operator} (h : operator.applyOrdinary strict v w = .ok u) : u.Sound := by
    unfold applyOrdinary at h
    split at h
    · exact numbers h
    · split at h <;> cases h
      exact .string _
    · split at h <;> cases h
      exact .string _
    · cases h
  cases operator with
  | equal =>
    change (v.equal w).map Value.bool = .ok u at h
    cases same : v.equal w <;> rw [same] at h <;> cases h
    exact .bool _
  | notEqual =>
    change (v.equal w).map (fun b => Value.bool (!b)) = .ok u at h
    cases same : v.equal w <;> rw [same] at h <;> cases h
    exact .bool _
  | nullish => cases v <;> cases h <;> first | exact hw | exact hv
  | _ => exact ordinary h

namespace Eval

open Run

theorem declareFunction_secure {f : FunctionDeclaration} (hf : f.isWellFormed) (strict : Bool) (span : Span) :
    Secure Value.Sound (declareFunction f strict span) (declareFunction f strict span) := by
  unfold declareFunction
  refine Secure.here.bind fun scope _ => Secure.newStamp.bind fun stamp _ => ?_
  have made : (Value.function ⟨stamp, f, scope⟩).Sound := .function hf
  cases f.name with
  | some name => exact .declareIn scope name made true strict span
  | none => exact .pure made

theorem ancestors_secure (c : ClassDeclaration) (span : Span) :
    Secure (fun layers => ∀ layer ∈ layers, layer.declaration.isWellFormed) (ancestors c span)
      (ancestors c span) := by
  unfold ancestors
  cases c.superclass with
  | none => exact .pure nofun
  | some parent =>
    refine (Secure.lookup parent span).bind fun v hv => ?_
    cases hv with
    | classValue layers => exact .pure layers
    | _ => exact .raise _ _

theorem declareClass_secure {c : ClassDeclaration} (hc : c.isWellFormed) (strict : Bool) (span : Span) :
    Secure Value.Sound (declareClass c strict span) (declareClass c strict span) := by
  refine (ancestors_secure c span).bind fun above ha => Secure.here.bind fun scope _ => ?_
  refine Secure.newStamp.bind fun stamp _ => .declareIn scope c.name (.classValue ?_) true strict span
  exact List.forall_mem_cons.2 ⟨hc, ha⟩

theorem bindParameters_secure (scope : ScopeId) (strict : Bool) (span : Span) {ps : List (String × Value)}
    (h : ∀ p ∈ ps, p.2.Sound) :
    Secure (fun _ => True) (bindParameters scope strict span ps) (bindParameters scope strict span ps) := by
  induction ps with
  | nil => exact .pure trivial
  | cons p rest ih =>
    obtain ⟨first, others⟩ := List.forall_mem_cons.1 h
    exact (Secure.declareIn scope p.1 first false strict span).bind fun _ _ => ih others

theorem readNames_secure (scope : ScopeId) (span : Span) (names : List String) {done : Properties}
    (h : done.Sound) :
    Secure Properties.Sound (readNames scope span names done) (readNames scope span names done) := by
  induction names generalizing done with
  | nil => exact .pure h
  | cons name rest ih => exact (Secure.lookupFrom scope name span).bind fun v hv => ih (h.insert name hv)

theorem exported_secure : Secure (fun set => ∀ v, set = some v → v.Sound) exported exported := by
  refine .of_self fun m hm => ?_
  rw [exported_run]
  refine .ok (fun v set => ?_) hm
  unfold Scopes.result? at set
  split at set
  · next stamp ps found =>
    have object : (Value.object stamp ps).Sound := Scopes.Sound.value hm found
    cases object with
    | object _ hps => exact Properties.sound_of_get? hps set
  · cases set

theorem print_secure (args : List Value) :
    Secure (fun _ => True) (Builtin.print args) (Builtin.print args) := by
  induction args with
  | nil => exact .pure trivial
  | cons v rest ih => exact (Secure.emit _).bind fun _ _ => ih

theorem readFile_secure (n : Native) (args : List Value) (span : Span) :
    Secure (fun _ => True) (Builtin.readFile n args span) (Builtin.readFile n args span) := by
  refine (Secure.settle (P := fun _ => True) span fun _ _ => trivial).bind fun path _ => ?_
  refine (Secure.file path).bind fun outcome _ => ?_
  cases outcome with
  | ok text => exact .pure trivial
  | error reason => exact .raise _ _

theorem prompt_secure (args : List Value) (span : Span) :
    Secure Value.Sound (Builtin.prompt args span) (Builtin.prompt args span) := by
  refine (Secure.settle (P := fun _ => True) span fun _ _ => trivial).bind fun message _ => ?_
  refine (Secure.emit _).bind fun _ _ => Secure.answer.bind fun line _ => ?_
  cases line with
  | some line => exact .pure (.string line)
  | none => exact .pure .null

variable {self self' : Evaluator} (h : self.Secure self')

include h

/-! ### Expressions -/

theorem value_secure {e : Expr} (he : e.isWellFormed) (strict : Bool) :
    Secure Value.Sound (self.expression e strict) (self'.expression e strict) :=
  h.expression strict (.inr he)

theorem expressions_secure {es : List Expr} (hes : ∀ e ∈ es, e.isWellFormed) (strict : Bool) :
    Secure (fun vs => ∀ v ∈ vs, v.Sound) (expressions self es strict) (expressions self' es strict) := by
  induction es with
  | nil => exact .pure nofun
  | cons e rest ih =>
    obtain ⟨first, others⟩ := List.forall_mem_cons.1 hes
    refine (value_secure h first strict).bind fun v hv => (ih others).bind fun vs hvs => ?_
    exact .pure (List.forall_mem_cons.2 ⟨hv, hvs⟩)

theorem properties_secure {ps : List Property} (hps : ∀ p ∈ ps, p.isWellFormed) (strict : Bool)
    {done : Properties} (hd : done.Sound) :
    Secure Properties.Sound (properties self ps strict done) (properties self' ps strict done) := by
  induction ps generalizing done with
  | nil => exact .pure hd
  | cons p rest ih =>
    obtain ⟨first, others⟩ := List.forall_mem_cons.1 hps
    obtain ⟨key, value, span⟩ := p
    unfold properties
    cases value with
    | some e => exact (value_secure h first strict).bind fun v hv => ih others (hd.insert key hv)
    | none => exact (Secure.lookup key span).bind fun v hv => ih others (hd.insert key hv)

theorem propertyKey_secure {property : Expr} (hp : property.isWellFormed) (computed strict : Bool) :
    Secure (fun _ => True) (propertyKey self property computed strict)
      (propertyKey self' property computed strict) := by
  unfold propertyKey
  split
  · exact .pure trivial
  · refine (value_secure h hp strict).bind fun v _ => ?_
    cases v with
    | string key => exact .pure trivial
    | _ => exact .raise _ _

theorem elementPlace_secure {index : Expr} (hi : index.isWellFormed) (length : Nat) (strict : Bool)
    (span : Span) :
    Secure (fun _ => True) (elementPlace self index length strict span)
      (elementPlace self' index length strict span) :=
  (value_secure h hi strict).bind fun _ _ => .settle span fun _ _ => trivial

theorem memberValue_secure {container : Value} (hc : container.Sound) {property : Expr}
    (hp : property.isWellFormed) (computed strict : Bool) (span : Span) :
    Secure Value.Sound (memberValue self container property computed strict span)
      (memberValue self' container property computed strict span) := by
  unfold memberValue
  cases hc with
  | @object stamp ps hps =>
    refine (propertyKey_secure h hp computed strict).bind fun key _ => ?_
    cases found : Properties.get? key ps with
    | some v => exact .pure (Properties.sound_of_get? hps found)
    | none => exact .raise _ _
  | @array stamp vs hvs =>
    cases computed with
    | false => exact .raise _ _
    | true =>
      refine (elementPlace_secure h hp _ strict span).bind fun place _ => .pure ?_
      cases element : place.bind (vs[·]?) with
      | none => exact .null
      | some v =>
        obtain ⟨i, -, there⟩ := Option.bind_eq_some_iff.1 element
        exact hvs v (List.mem_of_getElem? there)
  | _ => exact .raise _ _

theorem withMember_secure {container value : Value} (hc : container.Sound) (hv : value.Sound)
    {property : Expr} (hp : property.isWellFormed) (computed strict : Bool) (span : Span) :
    Secure Value.Sound (withMember self container property computed value strict span)
      (withMember self' container property computed value strict span) := by
  unfold withMember
  cases hc with
  | @object stamp ps hps =>
    refine (propertyKey_secure h hp computed strict).bind fun key _ => ?_
    split
    · exact .raise _ _
    · exact .newObject (Properties.Sound.insert hps key hv)
  | @array stamp vs hvs =>
    cases computed with
    | false => exact .raise _ _
    | true =>
      refine (elementPlace_secure h hp _ strict span).bind fun place _ => ?_
      cases place with
      | none => exact .raise _ _
      | some i =>
        refine .newArray fun v member => ?_
        rcases List.mem_or_eq_of_mem_set member with old | rfl
        · exact hvs v old
        · exact hv
  | _ => exact .raise _ _

theorem assign_secure {target value : Expr} (ht : target.isWellFormed) (hv : value.isWellFormed)
    (strict : Bool) (span : Span) :
    Secure Value.Sound (assign self target value strict span) (assign self' target value strict span) := by
  unfold assign
  split
  · exact (value_secure h hv strict).bind fun v sound => .reassign _ sound span
  · next property computed =>
    simp only [Expr.isWellFormed, Bool.and_eq_true] at ht
    refine (Secure.lookup _ _).bind fun container hc => (value_secure h hv strict).bind fun v sound => ?_
    refine (withMember_secure h hc sound ht.1.2 computed strict span).bind fun updated hu => ?_
    exact (Secure.reassign _ hu span).bind fun _ _ => .pure .null
  · exact .raise _ _
  · exact .raise _ _

/-! ### Conditions and loops -/

theorem initialValue_secure {value : Option Expr} (hv : valueIsWellFormed value) (strict : Bool) :
    Secure Value.Sound (initialValue self value strict) (initialValue self' value strict) := by
  cases value with
  | some e => exact value_secure h hv strict
  | none => exact .pure .null

theorem declareVariable_secure {d : VariableDeclaration} (hd : d.isWellFormed) (strict : Bool) (span : Span) :
    Secure Value.Sound (declareVariable self d strict span) (declareVariable self' d strict span) := by
  obtain ⟨name, constant, value, visibility⟩ := d
  simp only [VariableDeclaration.isWellFormed, Bool.and_eq_true] at hd
  refine (initialValue_secure h hd.2 strict).bind fun v hv => Secure.here.bind fun scope _ => ?_
  exact .declareIn scope name hv constant strict span

theorem holds_secure {condition : Expr} (hc : condition.isWellFormed) (strict : Bool) :
    Secure (fun _ => True) (holds self condition strict) (holds self' condition strict) :=
  (value_secure h hc strict).bind fun _ _ => .pure trivial

theorem ifBlock_secure {condition : Expr} {body : List Stmt} (hc : condition.isWellFormed)
    (hb : stmtsAreWellFormed body) (strict : Bool) :
    Secure Flow.Sound (ifBlock self condition body strict) (ifBlock self' condition body strict) := by
  unfold ifBlock
  refine (holds_secure h hc strict).bind fun b _ => ?_
  cases b with
  | false => exact .pure Value.Sound.null
  | true =>
    refine Secure.here.bind fun here _ => (Secure.newScope here).bind fun scope _ => ?_
    refine ((h.block strict hb).within scope).bind fun flow hf => ?_
    cases flow with
    | value v => exact .pure Value.Sound.null
    | leave => exact .pure hf
    | give v => exact .pure hf

omit h in
theorem leaveLoop_secure {v : Value} (hv : v.Sound) (span : Span) :
    Secure Flow.Sound (leaveLoop v span) (leaveLoop v span) := by
  refine Secure.frame.bind fun f _ => ?_
  split
  · exact .pure hv
  · exact .raise _ _

theorem whilePasses_secure (scope : ScopeId) {condition : Expr} {body : List Stmt}
    (hc : condition.isWellFormed) (hb : stmtsAreWellFormed body) (strict : Bool) (n : Nat) :
    Secure Flow.Sound (whilePasses self scope condition body strict n)
      (whilePasses self' scope condition body strict n) := by
  induction n with
  | zero => exact .outOfFuel
  | succ n ih =>
    unfold whilePasses
    refine (h.block strict hb).bind fun flow hf => ?_
    cases flow with
    | leave => exact .pure Value.Sound.null
    | give v => exact .pure hf
    | value v =>
      refine (Secure.beginPass scope).bind fun _ _ => (holds_secure h hc strict).bind fun b _ => ?_
      cases b with
      | false => exact .pure Value.Sound.null
      | true => exact ih

theorem whileLoop_secure {condition : Expr} {body : List Stmt} (hc : condition.isWellFormed)
    (hb : stmtsAreWellFormed body) (strict : Bool) (span : Span) :
    Secure Flow.Sound (whileLoop self condition body strict span)
      (whileLoop self' condition body strict span) := by
  unfold whileLoop
  rw [h.bound]
  refine (holds_secure h hc strict).bind fun b _ => ?_
  cases b with
  | false => exact .pure Value.Sound.null
  | true =>
    refine Secure.here.bind fun here _ => (Secure.newScope here).bind fun scope _ => ?_
    refine ((whilePasses_secure h scope hc hb strict self.bound).within scope).bind fun flow hf => ?_
    cases flow with
    | value v => exact .pure hf
    | leave => exact .pure hf
    | give v => exact leaveLoop_secure hf span

theorem startNumber_secure {value : Option Expr} (hv : valueIsWellFormed value) (strict : Bool) :
    Secure (fun _ => True) (startNumber self value strict) (startNumber self' value strict) := by
  cases value with
  | none => exact .pure trivial
  | some e =>
    refine (value_secure h hv strict).bind fun v _ => ?_
    cases v with
    | number x => exact .pure trivial
    | _ => exact .raise _ _

omit h in
/-- What the iterator computes is part of it. -/
theorem stepExpression_isWellFormed {e : Expr} (he : e.isWellFormed) : (stepExpression e).isWellFormed := by
  cases e with
  | assign span target value =>
    simp only [Expr.isWellFormed, Bool.and_eq_true] at he
    exact he.2
  | _ => exact he

theorem stepCounter_secure {loop : ForLoop} (hi : loop.iterator.isWellFormed) (scope : ScopeId)
    (counter : Float) (strict : Bool) :
    Secure (fun _ => True) (stepCounter self loop scope counter strict)
      (stepCounter self' loop scope counter strict) := by
  refine (Secure.declareIn scope _ (.number counter) false false _).bind fun _ _ => ?_
  refine ((value_secure h (stepExpression_isWellFormed hi) strict).within scope).bind fun v _ => ?_
  cases v with
  | number x => exact .pure trivial
  | _ => exact .raise _ _

theorem forPass_secure {loop : ForLoop} (hc : loop.condition.isWellFormed) (hb : stmtsAreWellFormed loop.body)
    (strict : Bool) : Secure Flow.Sound (forPass self loop strict) (forPass self' loop strict) := by
  unfold forPass
  refine (holds_secure h hc strict).bind fun b _ => ?_
  cases b with
  | false => exact .pure trivial
  | true => exact h.block strict hb

theorem forPasses_secure {loop : ForLoop} (hc : loop.condition.isWellFormed)
    (hi : loop.iterator.isWellFormed) (hb : stmtsAreWellFormed loop.body) (strict : Bool) (span : Span)
    (n : Nat) (counter : Float) :
    Secure Flow.Sound (forPasses self loop strict span n counter)
      (forPasses self' loop strict span n counter) := by
  induction n generalizing counter with
  | zero => exact .outOfFuel
  | succ n ih =>
    unfold forPasses
    refine Secure.here.bind fun here _ => (Secure.newScope here).bind fun scope _ => ?_
    refine (Secure.declareIn scope _ (.number counter) _ false span).bind fun _ _ => ?_
    refine ((forPass_secure h hc hb strict).within scope).bind fun flow hf => ?_
    cases flow with
    | leave => exact .pure Value.Sound.null
    | give v => exact leaveLoop_secure hf span
    | value v => exact (stepCounter_secure h hi scope counter strict).bind fun next _ => ih next

theorem forLoop_secure {loop : ForLoop} (hl : loop.isWellFormed) (strict : Bool) (span : Span) :
    Secure Flow.Sound (forLoop self loop strict span) (forLoop self' loop strict span) := by
  obtain ⟨⟨name, constant, value, visibility⟩, condition, iterator, body⟩ := loop
  simp only [ForLoop.isWellFormed, VariableDeclaration.isWellFormed, Bool.and_eq_true] at hl
  obtain ⟨⟨⟨⟨⟨⟨-, -, hv⟩, -⟩, hc⟩, hi⟩, -⟩, hb⟩ := hl
  unfold forLoop
  rw [h.bound]
  exact (startNumber_secure h hv strict).bind fun start _ =>
    forPasses_secure h hc hi hb strict span self.bound start

/-! ### Statements and their sequences -/

theorem statement_secure {s : Stmt} (hs : s.isWellFormed) (strict : Bool) :
    Secure Flow.Sound (statement self s strict) (statement self' s strict) := by
  cases s with
  | variableDeclaration span d =>
    simp only [Stmt.isWellFormed, Bool.and_eq_true] at hs
    exact (declareVariable_secure h hs.2 strict span).map _ fun _ hv => hv
  | functionDeclaration span d =>
    simp only [Stmt.isWellFormed, Bool.and_eq_true] at hs
    exact (declareFunction_secure hs.2 strict span).map _ fun _ hv => hv
  | classDeclaration span d => exact (declareClass_secure hs strict span).map _ fun _ hv => hv
  | ifBlock span condition body =>
    simp only [Stmt.isWellFormed, Bool.and_eq_true] at hs
    exact ifBlock_secure h hs.1 hs.2 strict
  | whileLoop span condition body =>
    simp only [Stmt.isWellFormed, Bool.and_eq_true] at hs
    exact whileLoop_secure h hs.1 hs.2 strict span
  | forLoop span loop => exact forLoop_secure h hs strict span
  | breakLoop span => exact .pure trivial
  | returnValue span e =>
    simp only [Stmt.isWellFormed, Bool.or_eq_true] at hs
    exact (h.expression strict hs).map _ fun _ hv => hv
  | expression span e => exact (value_secure h hs strict).map _ fun _ hv => hv

theorem block_secure {body : List Stmt} (hb : stmtsAreWellFormed body) (strict : Bool) :
    Secure Flow.Sound (block self body strict) (block self' body strict) := by
  induction body generalizing strict with
  | nil => exact .pure Value.Sound.null
  | cons s rest ih =>
    rw [stmtsAreWellFormed, Bool.and_eq_true] at hb
    unfold block
    cases strictDirective? s with
    | some mode => exact ih hb.2 mode
    | none =>
      refine (statement_secure h hb.1 strict).bind fun flow hf => ?_
      cases flow with
      | value v => exact ih hb.2 strict
      | leave => exact .pure hf
      | give v => exact .pure hf

/-! ### Programs -/

theorem topStatement_secure {s : Stmt} (hs : s.isWellFormed) (strict : Bool) :
    Secure Value.Sound (topStatement self s strict) (topStatement self' s strict) := by
  unfold topStatement
  split
  · exact .raise _ _
  · exact .raise _ _
  · refine (statement_secure h hs strict).bind fun flow hf => ?_
    cases flow with
    | value v => exact .pure hf
    | leave => exact .raise _ _
    | give v => exact .raise _ _

theorem programFrom_secure {p : Program} (hp : p.isWellFormed) (strict : Bool) {last : Value}
    (hl : last.Sound) :
    Secure Value.Sound (programFrom self p strict last) (programFrom self' p strict last) := by
  induction p generalizing strict last with
  | nil => exact .pure hl
  | cons s rest ih =>
    rw [Program.isWellFormed, stmtsAreWellFormed, Bool.and_eq_true] at hp
    cases directive : strictDirective? s with
    | some mode =>
      rw [programFrom_directive self rest strict last directive,
        programFrom_directive self' rest strict last directive]
      exact ih hp.2 mode hl
    | none =>
      rw [programFrom_statement self rest strict last directive,
        programFrom_statement self' rest strict last directive]
      exact (topStatement_secure h hp.1 strict).bind fun v hv => ih hp.2 strict hv

theorem program_secure {p : Program} (hp : p.isWellFormed) :
    Secure Value.Sound (program self p) (program self' p) := by
  unfold program
  refine (programFrom_secure h hp false .null).bind fun last hl => exported_secure.bind fun set hs => ?_
  cases set with
  | some v => exact .pure (hs v rfl)
  | none => exact .pure hl

/-! ### Calls and instances -/

theorem callFunction_secure {f : Function} (hf : f.declaration.isWellFormed) {args : List Value}
    (ha : ∀ v ∈ args, v.Sound) (strict : Bool) (span : Span) :
    Secure Value.Sound (callFunction self f args strict span) (callFunction self' f args strict span) := by
  have hb : stmtsAreWellFormed f.declaration.body := by
    obtain ⟨stamp, ⟨name, parameters, body, isAsync, visibility⟩, closure⟩ := f
    exact hf
  unfold callFunction
  dsimp only
  split
  · exact .raise _ _
  · refine (Secure.newScope f.closure).bind fun scope _ => ?_
    refine (bindParameters_secure scope strict span fun p hp => ha _ (List.of_mem_zip hp).2).bind fun _ _ => ?_
    refine ((h.block strict hb).inCall scope).bind fun flow hf => ?_
    cases flow with
    | give v => exact .pure hf
    | value v => exact .pure .null
    | leave => exact .pure .null

/-- A source that is run from a program is read like every other, so it is well-formed as well. -/
theorem runSource_secure (source : String) (span : Span) :
    Secure Value.Sound (runSource self source span) (runSource self' source span) := by
  unfold runSource
  cases read : Program.ofSource? source with
  | error e => exact .raise _ _
  | ok p =>
    obtain ⟨ts, -, parsed⟩ := Program.ofSource?_eq_ok read
    refine Secure.here.bind fun here _ => (Secure.newScope here).bind fun scope _ => ?_
    exact ((program_secure h (Program.isWellFormed_of_tokens parsed)).withFrame ⟨scope, 0⟩).fromSource span

omit h in
theorem sound_of_oneObject {n : Native} {args : List Value} (ha : ∀ v ∈ args, v.Sound) {ps : Properties}
    (found : Builtin.oneObject n args = .ok ps) : ps.Sound := by
  unfold Builtin.oneObject at found
  split at found
  · next v =>
    cases v with
    | object stamp qs =>
      cases found
      cases ha _ List.mem_cons_self with
      | object _ hps => exact hps
    | _ => cases found
  · cases found

theorem callNative_secure (n : Native) {args : List Value} (ha : ∀ v ∈ args, v.Sound) (span : Span) :
    Secure Value.Sound (callNative self n args span) (callNative self' n args span) := by
  have asked {α : Type} (x : Except RuntimeFault α) : Secure (fun a => x = .ok a) (settle span x) (settle span x) :=
    .settle span fun _ => id
  cases n with
  | print => exact (print_secure args).bind fun _ _ => .pure .null
  | time => exact Secure.clock.map _ fun x _ => .number x
  | readFile => exact (readFile_secure _ args span).map _ fun text _ => .string text
  | evalFile => exact (readFile_secure _ args span).bind fun source _ => runSource_secure h source span
  | evaluate => exact (asked _).bind fun source _ => runSource_secure h source span
  | prompt => exact prompt_secure args span
  | objectHas | objectAllHas => exact (asked _).map _ fun b _ => .bool b
  | objectKeys =>
    refine (asked _).bind fun ps _ => .newArray fun v hv => ?_
    obtain ⟨p, -, rfl⟩ := List.mem_map.1 hv
    exact .string p.1
  | objectValues =>
    refine (asked _).bind fun ps found => .newArray fun v hv => ?_
    obtain ⟨p, hp, rfl⟩ := List.mem_map.1 hv
    exact sound_of_oneObject ha found p hp
  | hosted name => exact .pure .null

theorem call_secure {callee : Value} (hc : callee.Sound) {args : List Value} (ha : ∀ v ∈ args, v.Sound)
    (strict : Bool) (span : Span) :
    Secure Value.Sound (call self callee args strict span) (call self' callee args strict span) := by
  cases hc with
  | native stamp n => exact callNative_secure h n ha span
  | function hf => exact callFunction_secure h hf ha strict span
  | _ => exact .raise _ _

omit h in
/-- What is laid into an instance has a well-formed constructor, if it has one. -/
def Assembly.Sound (a : Assembly) : Prop := ∀ f, a.constructor = some f → f.declaration.isWellFormed

omit h in
theorem Assembly.sound_empty : Assembly.Sound ⟨[], none⟩ := by
  intro f none
  cases none

omit h in
theorem Assembly.Sound.mark {a : Assembly} (ha : a.Sound) (name : String) (visibility : Visibility) :
    (a.mark name visibility).Sound := by
  cases visibility with
  | visible => exact ha
  | hidden => exact ha

theorem layMember_secure (scope : ScopeId) (strict : Bool) (span : Span) {a : Assembly} (ha : a.Sound)
    {m : Member} (hm : m.isWellFormed) :
    Secure Assembly.Sound (layMember self scope strict span a m) (layMember self' scope strict span a m) := by
  cases m with
  | property visibility d =>
    obtain ⟨name, constant, value, mark⟩ := d
    simp only [Member.isWellFormed, VariableDeclaration.isWellFormed, Bool.and_eq_true] at hm
    have laid {v : Value} (hv : v.Sound) : Secure Assembly.Sound
        (declareIn scope name v constant false span >>= fun _ => pure (a.mark name visibility))
        (declareIn scope name v constant false span >>= fun _ => pure (a.mark name visibility)) :=
      (Secure.declareIn scope name hv constant false span).bind fun _ _ => .pure (ha.mark name visibility)
    cases value with
    | some e => exact ((value_secure h hm.2.2 strict).within scope).bind fun v hv => laid hv
    | none => exact laid .null
  | method visibility d =>
    simp only [Member.isWellFormed, Bool.and_eq_true] at hm
    refine Secure.newStamp.bind fun stamp _ => ?_
    dsimp only
    split
    · refine .pure fun f same => ?_
      cases same
      exact hm.1.1.2
    · exact (Secure.declareIn scope _ (.function hm.1.1.2) false false span).bind fun _ _ =>
        .pure (ha.mark _ visibility)

theorem layMembers_secure (scope : ScopeId) (strict : Bool) (span : Span) {ms : List Member}
    (hms : ∀ m ∈ ms, m.isWellFormed) {a : Assembly} (ha : a.Sound) :
    Secure Assembly.Sound (layMembers self scope strict span ms a)
      (layMembers self' scope strict span ms a) := by
  induction ms generalizing a with
  | nil => exact .pure ha
  | cons m rest ih =>
    obtain ⟨first, others⟩ := List.forall_mem_cons.1 hms
    exact (layMember_secure h scope strict span ha first).bind fun a ha => ih others ha

theorem construct_secure {constructor : Option Function}
    (hf : ∀ f, constructor = some f → f.declaration.isWellFormed) {args : List Value}
    (ha : ∀ v ∈ args, v.Sound) (strict : Bool) (span : Span) :
    Secure (fun _ => True) (construct self constructor args strict span)
      (construct self' constructor args strict span) := by
  cases constructor with
  | none => exact .pure trivial
  | some f => exact (callFunction_secure h (hf f rfl) ha strict span).bind fun _ _ => .pure trivial

theorem instantiate_secure {c : Class} (hc : (Value.classValue c).Sound) {args : List Value}
    (ha : ∀ v ∈ args, v.Sound) (strict : Bool) (span : Span) :
    Secure Value.Sound (instantiate self c args strict span) (instantiate self' c args strict span) := by
  have members : ∀ m ∈ c.lineage.flatMap (·.declaration.members), m.isWellFormed := by
    intro m hm
    obtain ⟨layer, hl, member⟩ := List.mem_flatMap.1 hm
    cases hc with
    | classValue layers =>
      have lawful := layers layer (List.mem_reverse.1 hl)
      generalize layer.declaration = d at lawful member
      obtain ⟨name, superclass, ms⟩ := d
      simp only [ClassDeclaration.isWellFormed, membersAreWellFormed_eq_all, List.all_eq_true] at lawful
      exact lawful m member
  refine (Secure.newScope c.closure).bind fun scope _ => ?_
  refine (layMembers_secure h scope strict span members Assembly.sound_empty).bind fun a hs => ?_
  refine (construct_secure h hs ha strict span).bind fun _ _ => ?_
  exact (readNames_secure scope span a.visible Properties.sound_nil).bind fun ps hps => .newObject hps

theorem expression_secure {e : Expr} (he : e.isNull ∨ e.isWellFormed) (strict : Bool) :
    Secure Value.Sound (expression self e strict) (expression self' e strict) := by
  rcases he with null | he
  · cases e with
    | null => exact .pure .null
    | _ => cases null
  cases e with
  | identifier span name => exact .lookup name span
  | number span x => exact .pure (.number x)
  | string span text => exact .pure (.string text)
  | null => exact .pure .null
  | object span ps =>
    simp only [Expr.isWellFormed, propertiesAreWellFormed_eq_all, List.all_eq_true] at he
    exact (properties_secure h he strict Properties.sound_nil).bind fun ps hps => .newObject hps
  | array span es =>
    simp only [Expr.isWellFormed, exprsAreWellFormed_eq_all, List.all_eq_true] at he
    exact (expressions_secure h he strict).bind fun vs hvs => .newArray hvs
  | binary span left operator right =>
    simp only [Expr.isWellFormed, Bool.and_eq_true] at he
    refine (value_secure h he.1 strict).bind fun v hv => (value_secure h he.2 strict).bind fun w hw => ?_
    exact .settle span fun u applied => Operator.sound_of_apply hv hw applied
  | assign span target value =>
    simp only [Expr.isWellFormed, Bool.and_eq_true] at he
    exact assign_secure h he.1.2 he.2 strict span
  | member span object property computed =>
    simp only [Expr.isWellFormed, Bool.and_eq_true] at he
    exact (value_secure h he.1.1 strict).bind fun v hv => memberValue_secure h hv he.1.2 computed strict span
  | call span callee arguments =>
    simp only [Expr.isWellFormed, exprsAreWellFormed_eq_all, Bool.and_eq_true, List.all_eq_true] at he
    refine (expressions_secure h he.2 strict).bind fun args ha => ?_
    exact (value_secure h he.1 strict).bind fun f hf => call_secure h hf ha strict span
  | function span d =>
    simp only [Expr.isWellFormed, Bool.and_eq_true] at he
    exact declareFunction_secure he.2 strict span
  | instantiate span target arguments =>
    simp only [Expr.isWellFormed, exprsAreWellFormed_eq_all, Bool.and_eq_true, List.all_eq_true] at he
    refine (expressions_secure h he.2 strict).bind fun args ha => ?_
    refine (value_secure h he.1 strict).bind fun v hv => ?_
    cases v with
    | classValue c => exact instantiate_secure h hv ha strict span
    | _ => exact .raise _ _

end Eval

/-- The guarded evaluator is secure together with the one it guards, by induction on the bound: well-formed
code passes the guard, and behind it the rules are the same. -/
theorem Evaluator.bounded_secure (other : Evaluator) (n : Nat) :
    (Evaluator.bounded n).Secure (.guarded other n) := by
  induction n with
  | zero => exact ⟨rfl, fun _ _ => .outOfFuel, fun _ _ => .outOfFuel⟩
  | succ n ih =>
    refine ⟨rfl, fun {e} strict he => ?_, fun {body} strict hb => ?_⟩
    · have passes : e.fallsBack = false := by
        rcases he with null | he
        · exact Expr.not_fallsBack_of_isNull null
        · exact Expr.not_fallsBack he
      have same : (Evaluator.guarded other (n + 1)).expression e strict =
          Eval.expression (.guarded other n) e strict := by
        simp [guarded, passes]
      rw [same]
      exact Eval.expression_secure ih he strict
    · have passes : body.any Stmt.fallsBack = false := by
        rw [stmtsAreWellFormed_eq_all, List.all_eq_true] at hb
        exact List.any_eq_false.2 fun s hs => by simp [Stmt.not_fallsBack (hb s hs)]
      have same : (Evaluator.guarded other (n + 1)).block body strict =
          Eval.block (.guarded other n) body strict := by
        simp only [guarded, passes, Bool.false_eq_true, if_false]
      rw [same]
      exact Eval.block_secure ih hb strict

end ScriptLang
