/-
# ScriptLang.Proofs.Invariant.Rules — every rule of the evaluator upholds every invariant of values.

One lemma for each rule: given evaluators whose runs uphold the invariant in all worlds, the rule has runs that do.
What a rule makes it makes of good values, and what it takes out of a good value is good.  The number of calls around
a run is asked for by one rule only, where a `return` leaves a loop, and there only whether it is zero.

So whole sources uphold every invariant, and it holds on the machine with the global scope, if it does on a blank one.
-/
import ScriptLang.Eval
import ScriptLang.Proofs.Invariant.Upholds
import ScriptLang.Proofs.Program

namespace ScriptLang

/-! ## What operators and native functions yield -/

theorem Except.map_eq_ok {α β : Type} {f : α → β} {x : Except RuntimeFault α} {b : β} (h : x.map f = .ok b) :
    ∃ a, x = .ok a ∧ f a = b := by
  cases x with
  | error fault => cases h
  | ok a => exact ⟨a, rfl, Except.ok.inj h⟩

namespace Operator

variable {operator : Operator} {strict : Bool}

theorem applyNumbers_plain {x y : Float} {u : Value} (h : operator.applyNumbers strict x y = .ok u) :
    u.IsPlain := by
  cases operator with
  | divide =>
    obtain ⟨quotient, -, rfl⟩ := Except.map_eq_ok h
    trivial
  | equal | notEqual | nullish => cases h
  | _ =>
    cases h
    trivial

theorem applyOrdinary_plain {left right u : Value} (h : operator.applyOrdinary strict left right = .ok u) :
    u.IsPlain := by
  unfold applyOrdinary at h
  split at h
  · exact applyNumbers_plain h
  · split at h <;> cases h
    trivial
  · split at h <;> cases h
    trivial
  · cases h

/-- An operator yields a value without parts or one of its operands. -/
theorem apply_plain_or {left right u : Value} (h : operator.apply strict left right = .ok u) :
    u.IsPlain ∨ u = left ∨ u = right := by
  cases operator with
  | equal | notEqual =>
    obtain ⟨b, -, rfl⟩ := Except.map_eq_ok h
    exact .inl trivial
  | nullish => cases left <;> cases h <;> simp
  | _ =>
    change applyOrdinary _ strict left right = .ok u at h
    exact .inl (applyOrdinary_plain h)

end Operator

theorem Builtin.oneObject_eq_ok {n : Native} {args : List Value} {ps : Properties}
    (h : oneObject n args = .ok ps) : ∃ i, .object i ps ∈ args := by
  unfold oneObject at h
  split at h
  · next v =>
    cases v <;> cases h
    exact ⟨_, List.mem_singleton_self _⟩
  · cases h

variable {W : Type} {I : Invariant W} {w : W}

/-- What a statement ends with is good. -/
def Invariant.Ends (I : Invariant W) (w : W) : Flow → Prop
  | .value v | .give v => I.value w v
  | .leave => True

/-- Evaluators whose runs uphold an invariant. -/
structure Evaluator.Upholds (I : Invariant W) (parts : Evaluator) : Prop where
  expression : ∀ {w} (e : Expr) (strict : Bool), (parts.expression e strict).Upholds I w I.value
  block : ∀ {w} (body : List Stmt) (strict : Bool), (parts.block body strict).Upholds I w I.Ends

namespace Eval

open Run

/-! ## Declarations -/

theorem declareFunction_upholds (d : FunctionDeclaration) (strict : Bool) (span : Span) :
    (declareFunction d strict span).Upholds I w I.value := by
  unfold declareFunction
  refine Upholds.here.bind fun _ scope _ => ?_
  refine .newStamp (fun stamp => .function ⟨stamp, d, scope⟩) (fun _ => .function d scope) fun _ stamp made => ?_
  cases d.name with
  | some name => exact .declareIn scope name made true strict span
  | none => exact .pure made

theorem ancestors_upholds (d : ClassDeclaration) (span : Span) :
    (ancestors d span).Upholds I w (fun _ _ => True) := by
  unfold ancestors
  split
  · exact .pure trivial
  · refine (Upholds.lookup _ span).bind fun _ v _ => ?_
    split
    · exact .pure trivial
    · exact .raise span _

theorem declareClass_upholds (d : ClassDeclaration) (strict : Bool) (span : Span) :
    (declareClass d strict span).Upholds I w I.value := by
  unfold declareClass
  refine (ancestors_upholds d span).bind fun _ above _ => Upholds.here.bind fun _ scope _ => ?_
  refine .newStamp (fun stamp => .classValue ⟨⟨stamp, d, scope⟩, above⟩) (fun _ => .classValue d scope above)
    fun _ stamp made => ?_
  exact .declareIn scope d.name made true strict span

theorem bindParameters_upholds (scope : ScopeId) (strict : Bool) (span : Span) {ps : List (String × Value)}
    (h : ∀ p ∈ ps, I.value w p.2) : (bindParameters scope strict span ps).Upholds I w (fun _ _ => True) := by
  induction ps generalizing w with
  | nil => exact .pure trivial
  | cons p rest ih =>
    rw [List.forall_mem_cons] at h
    refine (Upholds.declareIn scope p.1 h.1 false strict span).bind fun le _ _ => ih fun p mem => ?_
    exact I.mono le (h.2 p mem)

theorem readNames_upholds (scope : ScopeId) (span : Span) (names : List String) {done : Properties}
    (h : I.Entries w done) : (readNames scope span names done).Upholds I w I.Entries := by
  induction names generalizing w done with
  | nil => exact .pure h
  | cons name rest ih =>
    exact (Upholds.lookupFrom scope name span).bind fun le v hv => ih ((h.mono le).insert name hv)

/-- How a loop ends that a `return` leaves depends only on whether any call encloses it. -/
theorem leaveLoop_upholds {v : Value} (hv : I.value w v) (span : Span) :
    (leaveLoop v span).Upholds I w I.Ends := by
  intro m d hm level
  by_cases called : 0 < m.frame.depth
  · have gives {n : Machine} (h : 0 < n.frame.depth) : leaveLoop v span n = .ok (.give v) n :=
      congrFun (if_pos h) n
    rw [gives called, gives (level.2 called)]
    exact .ok (I.refl w) hv hm level
  · have fails {n : Machine} (h : ¬0 < n.frame.depth) :
        leaveLoop v span n = .error (.raised ⟨span, .flow .returnInLoop⟩) n := congrFun (if_neg h) n
    rw [fails called, fails fun h => called (level.1 h)]
    exact .error (I.refl w) hm level

/-! ## Natives without evaluators -/

theorem print_upholds (args : List Value) : (Builtin.print args).Upholds I w (fun _ _ => True) := by
  induction args generalizing w with
  | nil => exact .pure trivial
  | cons v rest ih => exact (Upholds.emit _).bind fun _ _ _ => ih

theorem readFile_upholds (native : Native) (args : List Value) (span : Span) :
    (Builtin.readFile native args span).Upholds I w (fun _ _ => True) := by
  unfold Builtin.readFile
  refine (Upholds.settle_any span _).bind fun _ path _ => ?_
  refine (Upholds.file path).bind fun _ outcome _ => ?_
  cases outcome with
  | ok text => exact .pure trivial
  | error reason => exact .raise span _

theorem prompt_upholds (args : List Value) (span : Span) : (Builtin.prompt args span).Upholds I w I.value := by
  unfold Builtin.prompt
  refine (Upholds.settle_any span _).bind fun _ message _ => ?_
  refine (Upholds.emit _).bind fun _ _ _ => Upholds.answer.bind fun _ line _ => ?_
  cases line <;> exact .pure (I.plain trivial)

theorem exported_upholds : exported.Upholds I w (fun w result => ∀ v, result = some v → I.value w v) := by
  intro m d hm level
  unfold exported
  rw [Machine.scopes_atDepth, Machine.scope_atDepth]
  cases found : m.scopes.value m.frame.scope Builtin.resultObject with
  | error fault => exact .ok (I.refl w) nofun hm level
  | ok v =>
    have good := hm.bound.value found
    cases v with
    | object i ps => exact .ok (I.refl w) (fun v => Invariant.Entries.get? (I.properties good)) hm level
    | _ => exact .ok (I.refl w) nofun hm level

variable {self : Evaluator} (h : self.Upholds I)

include h

/-! ## Statements -/

theorem initialValue_upholds (value : Option Expr) (strict : Bool) :
    (initialValue self value strict).Upholds I w I.value := by
  cases value with
  | some e => exact h.expression e strict
  | none => exact .pure (I.plain trivial)

theorem declareVariable_upholds (d : VariableDeclaration) (strict : Bool) (span : Span) :
    (declareVariable self d strict span).Upholds I w I.value :=
  (initialValue_upholds h d.value strict).bind fun _ _ hv => Upholds.here.bind fun le scope _ =>
    .declareIn scope d.name (I.mono le hv) d.constant strict span

theorem holds_upholds (condition : Expr) (strict : Bool) :
    (holds self condition strict).Upholds I w (fun _ _ => True) :=
  (h.expression condition strict).bind fun _ _ _ => .pure trivial

theorem ifBlock_upholds (condition : Expr) (body : List Stmt) (strict : Bool) :
    (ifBlock self condition body strict).Upholds I w I.Ends := by
  unfold ifBlock
  refine (holds_upholds h condition strict).bind fun _ b _ => ?_
  cases b with
  | false => exact .pure (I.plain trivial)
  | true =>
    refine Upholds.here.bind fun _ here _ => (Upholds.newScope here).bind fun _ scope _ => ?_
    refine ((h.block body strict).within scope).bind fun _ flow ends => ?_
    cases flow with
    | value v => exact .pure (I.plain trivial)
    | leave | give v => exact .pure ends

theorem whilePasses_upholds (scope : ScopeId) (condition : Expr) (body : List Stmt) (strict : Bool) (n : Nat) :
    (whilePasses self scope condition body strict n).Upholds I w I.Ends := by
  induction n generalizing w with
  | zero => exact .outOfFuel
  | succ n ih =>
    unfold whilePasses
    refine (h.block body strict).bind fun _ flow ends => ?_
    cases flow with
    | leave => exact .pure (I.plain trivial)
    | give v => exact .pure ends
    | value v =>
      refine (Upholds.beginPass scope).bind fun _ _ _ => (holds_upholds h condition strict).bind fun _ b _ => ?_
      cases b with
      | false => exact .pure (I.plain trivial)
      | true => exact ih

theorem whileLoop_upholds (condition : Expr) (body : List Stmt) (strict : Bool) (span : Span) :
    (whileLoop self condition body strict span).Upholds I w I.Ends := by
  unfold whileLoop
  refine (holds_upholds h condition strict).bind fun _ b _ => ?_
  cases b with
  | false => exact .pure (I.plain trivial)
  | true =>
    refine Upholds.here.bind fun _ here _ => (Upholds.newScope here).bind fun _ scope _ => ?_
    refine ((whilePasses_upholds h scope condition body strict self.bound).within scope).bind fun _ flow ends => ?_
    cases flow with
    | give v => exact leaveLoop_upholds ends span
    | leave | value v => exact .pure ends

theorem startNumber_upholds (value : Option Expr) (strict : Bool) :
    (startNumber self value strict).Upholds I w (fun _ _ => True) := by
  cases value with
  | none => exact .pure trivial
  | some e =>
    refine (h.expression e strict).bind fun _ v _ => ?_
    cases v with
    | number x => exact .pure trivial
    | _ => exact .raise _ _

theorem stepCounter_upholds (loop : ForLoop) (scope : ScopeId) (counter : Float) (strict : Bool) :
    (stepCounter self loop scope counter strict).Upholds I w (fun _ _ => True) := by
  unfold stepCounter
  refine (Upholds.declareIn scope _ (I.plain (v := .number counter) trivial) _ _ _).bind fun _ _ _ => ?_
  refine ((h.expression _ strict).within scope).bind fun _ v _ => ?_
  cases v with
  | number x => exact .pure trivial
  | _ => exact .raise _ _

theorem forPass_upholds (loop : ForLoop) (strict : Bool) : (forPass self loop strict).Upholds I w I.Ends := by
  unfold forPass
  refine (holds_upholds h loop.condition strict).bind fun _ b _ => ?_
  cases b with
  | false => exact .pure trivial
  | true => exact h.block loop.body strict

theorem forPasses_upholds (loop : ForLoop) (strict : Bool) (span : Span) (n : Nat) (counter : Float) :
    (forPasses self loop strict span n counter).Upholds I w I.Ends := by
  induction n generalizing w counter with
  | zero => exact .outOfFuel
  | succ n ih =>
    unfold forPasses
    refine Upholds.here.bind fun _ here _ => (Upholds.newScope here).bind fun _ scope _ => ?_
    refine (Upholds.declareIn scope _ (I.plain (v := .number counter) trivial) _ _ span).bind fun _ _ _ => ?_
    refine ((forPass_upholds h loop strict).within scope).bind fun _ flow ends => ?_
    cases flow with
    | leave => exact .pure (I.plain trivial)
    | give v => exact leaveLoop_upholds ends span
    | value v => exact (stepCounter_upholds h loop scope counter strict).bind fun _ next _ => ih next

theorem forLoop_upholds (loop : ForLoop) (strict : Bool) (span : Span) :
    (forLoop self loop strict span).Upholds I w I.Ends :=
  (startNumber_upholds h loop.counter.value strict).bind fun _ start _ =>
    forPasses_upholds h loop strict span self.bound start

theorem statement_upholds (s : Stmt) (strict : Bool) : (statement self s strict).Upholds I w I.Ends := by
  cases s with
  | variableDeclaration span d => exact (declareVariable_upholds h d strict span).map fun _ hv => hv
  | functionDeclaration span d => exact (declareFunction_upholds d strict span).map fun _ hv => hv
  | classDeclaration span d => exact (declareClass_upholds d strict span).map fun _ hv => hv
  | ifBlock span condition body => exact ifBlock_upholds h condition body strict
  | whileLoop span condition body => exact whileLoop_upholds h condition body strict span
  | forLoop span loop => exact forLoop_upholds h loop strict span
  | breakLoop span => exact .pure trivial
  | returnValue span e => exact (h.expression e strict).map fun _ hv => hv
  | expression span e => exact (h.expression e strict).map fun _ hv => hv

theorem block_upholds (body : List Stmt) (strict : Bool) : (block self body strict).Upholds I w I.Ends := by
  induction body generalizing w strict with
  | nil => exact .pure (I.plain trivial)
  | cons s rest ih =>
    unfold block
    cases strictDirective? s with
    | some mode => exact ih mode
    | none =>
      refine (statement_upholds h s strict).bind fun _ flow ends => ?_
      cases flow with
      | value v => exact ih strict
      | leave | give v => exact .pure ends

/-! ## Programs -/

theorem programFrom_upholds (p : Program) (strict : Bool) {last : Value} (hl : I.value w last) :
    (programFrom self p strict last).Upholds I w I.value := by
  induction p generalizing w strict last with
  | nil => exact .pure hl
  | cons s rest ih =>
    unfold programFrom
    split
    · exact ih _ hl
    · split
      · exact .raise _ _
      · exact .raise _ _
      · refine (statement_upholds h s strict).bind fun _ flow ends => ?_
        cases flow with
        | value v => exact ih strict ends
        | leave | give v => exact .raise _ _

theorem program_upholds (p : Program) : (program self p).Upholds I w I.value := by
  unfold program
  refine (programFrom_upholds h p false (I.plain (v := .null) trivial)).bind fun _ last hl => ?_
  refine exported_upholds.bind fun le result hr => ?_
  cases result with
  | some v => exact .pure (hr v rfl)
  | none => exact .pure (I.mono le hl)

/-! ## Expressions -/

theorem expressions_upholds (es : List Expr) (strict : Bool) :
    (expressions self es strict).Upholds I w I.Elements := by
  induction es generalizing w with
  | nil => exact .pure nofun
  | cons e rest ih =>
    refine (h.expression e strict).bind fun _ v hv => ih.bind fun le vs hvs => .pure ?_
    exact List.forall_mem_cons.2 ⟨I.mono le hv, hvs⟩

theorem properties_upholds (ps : List Property) (strict : Bool) {done : Properties} (hd : I.Entries w done) :
    (properties self ps strict done).Upholds I w I.Entries := by
  induction ps generalizing w done with
  | nil => exact .pure hd
  | cons p rest ih =>
    unfold properties
    cases p.value with
    | some e => exact (h.expression e strict).bind fun le v hv => ih ((hd.mono le).insert p.key hv)
    | none => exact (Upholds.lookup p.key p.span).bind fun le v hv => ih ((hd.mono le).insert p.key hv)

theorem propertyKey_upholds (property : Expr) (computed strict : Bool) :
    (propertyKey self property computed strict).Upholds I w (fun _ _ => True) := by
  unfold propertyKey
  split
  · exact .pure trivial
  · refine (h.expression property strict).bind fun _ v _ => ?_
    split
    · exact .pure trivial
    · exact .raise _ _

theorem elementPlace_upholds (index : Expr) (length : Nat) (strict : Bool) (span : Span) :
    (elementPlace self index length strict span).Upholds I w (fun _ _ => True) :=
  (h.expression index strict).bind fun _ _ _ => .settle_any span _

theorem memberValue_upholds {container : Value} (hc : I.value w container) (property : Expr)
    (computed strict : Bool) (span : Span) :
    (memberValue self container property computed strict span).Upholds I w I.value := by
  unfold memberValue
  split
  · refine (propertyKey_upholds h property computed strict).bind fun le key _ => ?_
    split
    · next found => exact .pure (Invariant.Entries.get? (I.properties (I.mono le hc)) found)
    · exact .raise span _
  · split
    · refine (elementPlace_upholds h property _ strict span).bind fun le place _ => .pure ?_
      exact Invariant.Elements.get (I.elements (I.mono le hc)) place
    · exact .raise span _
  · exact .raise span _

theorem withMember_upholds {container : Value} (hc : I.value w container) (property : Expr) (computed : Bool)
    {value : Value} (hv : I.value w value) (strict : Bool) (span : Span) :
    (withMember self container property computed value strict span).Upholds I w I.value := by
  unfold withMember
  split
  · refine (propertyKey_upholds h property computed strict).bind fun le key _ => ?_
    split
    · exact .raise span _
    · exact .newObject (Invariant.Entries.insert (I.properties (I.mono le hc)) key (I.mono le hv))
  · split
    · refine (elementPlace_upholds h property _ strict span).bind fun le place _ => ?_
      split
      · exact .newArray (Invariant.Elements.set (I.elements (I.mono le hc)) (I.mono le hv) _)
      · exact .raise span _
    · exact .raise span _
  · exact .raise span _

theorem assign_upholds (target value : Expr) (strict : Bool) (span : Span) :
    (assign self target value strict span).Upholds I w I.value := by
  unfold assign
  split
  · exact (h.expression value strict).bind fun _ v hv => .reassign _ hv span
  · refine (Upholds.lookup _ _).bind fun _ container hc => (h.expression value strict).bind fun le v hv => ?_
    refine (withMember_upholds h (I.mono le hc) _ _ hv strict span).bind fun _ updated hu => ?_
    exact (Upholds.reassign _ hu span).bind fun _ _ _ => .pure (I.plain trivial)
  · exact .raise span _
  · exact .raise span _

/-! ## Calls and instances -/

theorem callFunction_upholds (f : Function) {args : List Value} (ha : I.Elements w args) (strict : Bool)
    (span : Span) : (callFunction self f args strict span).Upholds I w I.value := by
  unfold callFunction
  dsimp only
  split
  · exact .raise span _
  · refine (Upholds.newScope f.closure).bind fun le scope _ => ?_
    refine (bindParameters_upholds scope strict span fun p mem => ?_).bind fun _ _ _ => ?_
    · exact I.mono le (ha _ (List.of_mem_zip mem).2)
    · refine ((h.block f.declaration.body strict).inCall scope).bind fun _ flow ends => ?_
      cases flow with
      | give v => exact .pure ends
      | value v | leave => exact .pure (I.plain trivial)

theorem runSource_upholds (source : String) (span : Span) : (runSource self source span).Upholds I w I.value := by
  unfold runSource
  split
  · exact .raise span _
  · refine Upholds.here.bind fun _ here _ => (Upholds.newScope here).bind fun _ scope _ => ?_
    exact ((program_upholds h _).withFrame ⟨scope, 0⟩).fromSource span

theorem callNative_upholds (native : Native) {args : List Value} (ha : I.Elements w args) (span : Span) :
    (callNative self native args span).Upholds I w I.value := by
  cases native with
  | print => exact (print_upholds args).bind fun _ _ _ => .pure (I.plain trivial)
  | time => exact Upholds.clock.map fun _ _ => I.plain trivial
  | readFile => exact (readFile_upholds _ args span).map fun _ _ => I.plain trivial
  | evalFile => exact (readFile_upholds _ args span).bind fun _ source _ => runSource_upholds h source span
  | evaluate =>
    exact (Upholds.settle_any span _).bind fun _ source _ =>
      runSource_upholds h source span
  | prompt => exact prompt_upholds args span
  | objectHas | objectAllHas =>
    exact (Upholds.settle_any span _).map fun _ _ => I.plain trivial
  | objectKeys =>
    refine (Upholds.settle_any span _).bind fun _ ps _ => .newArray fun v mem => ?_
    obtain ⟨p, -, rfl⟩ := List.mem_map.1 mem
    exact I.plain trivial
  | objectValues =>
    refine (Upholds.settle (R := I.Entries) span fun ps found => ?_).bind fun _ ps hp => .newArray fun v mem => ?_
    · obtain ⟨i, there⟩ := Builtin.oneObject_eq_ok found
      exact I.properties (ha _ there)
    · obtain ⟨p, there, rfl⟩ := List.mem_map.1 mem
      exact hp.2 p there
  | hosted name => exact .pure (I.plain trivial)

theorem call_upholds (callee : Value) {args : List Value} (ha : I.Elements w args) (strict : Bool) (span : Span) :
    (call self callee args strict span).Upholds I w I.value := by
  cases callee with
  | native stamp native => exact callNative_upholds h native ha span
  | function f => exact callFunction_upholds h f ha strict span
  | _ => exact .raise span _

theorem layMember_upholds (scope : ScopeId) (strict : Bool) (span : Span) (a : Assembly) (member : Member) :
    (layMember self scope strict span a member).Upholds I w (fun _ _ => True) := by
  cases member with
  | property visibility d =>
    have declared {w : W} {v : Value} (hv : I.value w v) :
        (Run.declareIn scope d.name v d.constant false span >>= fun _ =>
          Pure.pure (a.mark d.name visibility)).Upholds I w (fun _ _ => True) :=
      (Upholds.declareIn scope d.name hv d.constant false span).bind fun _ _ _ => .pure trivial
    unfold layMember
    dsimp only
    cases d.value with
    | none => exact declared (I.plain trivial)
    | some e => exact ((h.expression e strict).within scope).bind fun _ v hv => declared hv
  | method visibility d =>
    unfold layMember
    refine .newStamp (fun stamp => .function ⟨stamp, d, scope⟩) (fun _ => .function d scope) fun _ stamp made => ?_
    dsimp only
    split
    · exact .pure trivial
    · exact (Upholds.declareIn scope d.shownName made false false span).bind fun _ _ _ => .pure trivial

theorem layMembers_upholds (scope : ScopeId) (strict : Bool) (span : Span) (members : List Member)
    (a : Assembly) : (layMembers self scope strict span members a).Upholds I w (fun _ _ => True) := by
  induction members generalizing w a with
  | nil => exact .pure trivial
  | cons member rest ih => exact (layMember_upholds h scope strict span a member).bind fun _ a _ => ih a

theorem construct_upholds (constructor : Option Function) {args : List Value} (ha : I.Elements w args)
    (strict : Bool) (span : Span) :
    (construct self constructor args strict span).Upholds I w (fun _ _ => True) := by
  cases constructor with
  | none => exact .pure trivial
  | some f => exact (callFunction_upholds h f ha strict span).bind fun _ _ _ => .pure trivial

theorem instantiate_upholds (c : Class) {args : List Value} (ha : I.Elements w args) (strict : Bool)
    (span : Span) : (instantiate self c args strict span).Upholds I w I.value := by
  unfold instantiate
  refine (Upholds.newScope c.closure).bind fun le scope _ => ?_
  refine (layMembers_upholds h scope strict span _ _).bind fun le' a _ => ?_
  refine (construct_upholds h a.constructor ((ha.mono le).mono le') strict span).bind fun _ _ _ => ?_
  exact (readNames_upholds scope span a.visible .nil).bind fun _ ps hp => .newObject hp

theorem expression_upholds (e : Expr) (strict : Bool) : (expression self e strict).Upholds I w I.value := by
  cases e with
  | identifier span name => exact .lookup name span
  | number | string | null => exact .pure (I.plain trivial)
  | object span ps => exact (properties_upholds h ps strict .nil).bind fun _ ps hp => .newObject hp
  | array span es => exact (expressions_upholds h es strict).bind fun _ vs hvs => .newArray hvs
  | binary span left operator right =>
    refine (h.expression left strict).bind fun _ v hv => (h.expression right strict).bind fun le u hu => ?_
    refine .settle span fun result applied => ?_
    rcases operator.apply_plain_or applied with plain | rfl | rfl
    · exact I.plain plain
    · exact I.mono le hv
    · exact hu
  | assign span target value => exact assign_upholds h target value strict span
  | member span object property computed =>
    exact (h.expression object strict).bind fun _ v hv => memberValue_upholds h hv property computed strict span
  | call span callee arguments =>
    refine (expressions_upholds h arguments strict).bind fun _ args ha => ?_
    exact (h.expression callee strict).bind fun le f _ => call_upholds h f (ha.mono le) strict span
  | function span d => exact declareFunction_upholds d strict span
  | instantiate span target arguments =>
    refine (expressions_upholds h arguments strict).bind fun _ args ha => ?_
    refine (h.expression target strict).bind fun le v _ => ?_
    cases v with
    | classValue c => exact instantiate_upholds h c (ha.mono le) strict span
    | _ => exact .raise span _

end Eval

/-! ## Whole runs -/

/-- Evaluators with a bound uphold every invariant, by induction on the bound. -/
theorem Evaluator.bounded_upholds (I : Invariant W) (n : Nat) : (Evaluator.bounded n).Upholds I := by
  induction n with
  | zero => exact ⟨fun _ _ => .outOfFuel, fun _ _ => .outOfFuel⟩
  | succ n ih =>
    exact ⟨fun e strict => Eval.expression_upholds ih e strict,
      fun body strict => Eval.block_upholds ih body strict⟩

/-- A source that is run leaves a machine on which the invariant holds, and its value is good. -/
theorem Machine.run_upholds (n : Nat) (source : String) {m : Machine} (hm : I.Holds w m) :
    ∃ w', I.later w w' ∧ I.Holds w' (m.run n source).2 ∧
      ∀ v, (m.run n source).1 = .value v → I.value w' v := by
  unfold Machine.run
  cases Program.ofSource? source with
  | error e => exact ⟨w, I.refl w, hm, nofun⟩
  | ok p =>
    have program := (Eval.program_upholds (w := w) (Evaluator.bounded_upholds I n) p).withFrame ⟨m.frame.scope, 0⟩
    obtain ⟨w', later, holds, good⟩ := program.after hm
    refine ⟨w', later, ?_⟩
    unfold Run.after at holds
    unfold Run.inProgram
    dsimp only
    generalize Run.withFrame ⟨m.frame.scope, 0⟩ (Eval.program (.bounded n) p) m = ended at holds good ⊢
    cases ended with
    | ok v after =>
      refine ⟨holds, ?_⟩
      rintro _ ⟨⟩
      exact good v after rfl
    | error halt after =>
      refine ⟨?_, ?_⟩
      · cases halt <;> exact holds
      · cases halt <;> exact nofun

/-- All steps of a session, in one world. -/
theorem Machine.session_upholds (n : Nat) (sources : List String) {m : Machine} (hm : I.Holds w m) :
    ∃ w', I.later w w' ∧ ∀ step ∈ m.session n sources,
      step.2.scopes.All (I.value w') ∧ ∀ v, step.1 = .value v → I.value w' v := by
  induction sources generalizing w m with
  | nil => exact ⟨w, I.refl w, nofun⟩
  | cons source rest ih =>
    obtain ⟨w₁, later₁, holds, good⟩ := run_upholds n source hm
    obtain ⟨w₂, later₂, steps⟩ := ih holds
    refine ⟨w₂, I.trans later₁ later₂, List.forall_mem_cons.2 ⟨⟨?_, ?_⟩, steps⟩⟩
    · exact fun id x b found => I.mono later₂ (holds.bound id x b found)
    · exact fun v ended => I.mono later₂ (good v ended)

/-! ## The global scope -/

namespace Builtin

open Run (Upholds)

theorem defineGlobal_upholds (name : String) {v : Value} (hv : I.value w v) (constant : Bool) :
    (defineGlobal name v constant).Upholds I w (fun _ _ => True) :=
  fun _ _ hm level => .ok (I.refl w) trivial ⟨hm.bound.update ((hm.bound 0).set hv name), hm.fresh⟩ level

theorem defineFunctions_upholds (ns : List Native) :
    (ns.forM fun n => do defineGlobal n.name (.native (← Run.newStamp) n) true).Upholds I w (fun _ _ => True) := by
  induction ns generalizing w with
  | nil => exact .pure trivial
  | cons n rest ih =>
    refine Upholds.bind (R := fun _ _ => True) ?_ fun _ _ _ => ih
    exact .newStamp (fun k => .native k n) (fun _ => .native n) fun _ _ made => defineGlobal_upholds _ made true

theorem stampFunctions_upholds (entries : List (String × Native)) :
    Upholds I w (fun w (ps : List (String × Value)) => ∀ p ∈ ps, I.value w p.2)
      (entries.mapM fun (key, n) => do return (key, Value.native (← Run.newStamp) n)) := by
  induction entries generalizing w with
  | nil => exact .pure nofun
  | cons entry rest ih =>
    rw [List.mapM_cons]
    have first : Upholds I w (fun w p => I.value w p.2)
        (do return (entry.1, Value.native (← Run.newStamp) entry.2)) :=
      .newStamp (fun k => .native k entry.2) (fun _ => .native entry.2) fun _ _ made => .pure made
    refine first.bind fun _ p hp => ih.bind fun le ps hps => .pure ?_
    exact List.forall_mem_cons.2 ⟨I.mono le hp, hps⟩

theorem defineGlobals_upholds : defineGlobals.Upholds I w (fun _ _ => True) := by
  unfold defineGlobals
  refine (defineGlobal_upholds _ (I.plain (v := .bool true) trivial) true).bind fun _ _ _ => ?_
  refine (defineGlobal_upholds _ (I.plain (v := .bool false) trivial) true).bind fun _ _ _ => ?_
  refine (defineGlobal_upholds _ (I.plain (v := .null) trivial) true).bind fun _ _ _ => ?_
  refine (defineFunctions_upholds _).bind fun _ _ _ => (stampFunctions_upholds _).bind fun _ functions hf => ?_
  refine (Upholds.newObject (.ofList hf)).bind fun _ v hv => (defineGlobal_upholds _ hv true).bind fun _ _ _ => ?_
  exact (Upholds.newObject .nil).bind fun _ v hv => defineGlobal_upholds _ hv false

end Builtin

/-- If the first stamp is fresh, an invariant holds on the machine with the global scope. -/
theorem Machine.initial_upholds (host : Host) (fresh : I.fresh w 0) :
    ∃ w', I.later w w' ∧ I.Holds w' (Machine.initial host) := by
  have blank : I.Holds w (Machine.blank host) := by
    refine ⟨Scopes.All.push (fun id x b found => ?_) none, fresh⟩
    cases found
  obtain ⟨w', later, holds, -⟩ := Builtin.defineGlobals_upholds.after blank
  refine ⟨w', later, ?_⟩
  unfold Run.after at holds
  unfold Machine.initial
  generalize Builtin.defineGlobals (Machine.blank host) = ended at holds ⊢
  cases ended <;> exact holds

end ScriptLang
