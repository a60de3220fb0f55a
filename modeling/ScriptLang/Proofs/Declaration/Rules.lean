/-
# ScriptLang.Proofs.Declaration.Rules — the rules of the evaluator while a scope is watched.

Each rule comes to the same with the evaluator that watches a scope as with the one that does not, from every
machine that admits the names that the rule declares where it stands.  In these, the names of its parts stand
one after another in the order in which the parts are evaluated, so what one part declares is not declared by
the next one.  A part that is run in a new scope declares nothing in the watched one.
-/
import ScriptLang.Proofs.Declaration.Watched

namespace ScriptLang

namespace Eval

open Run

variable {watched here : ScopeId} {names : List String}

theorem declared_of_strictDirective? {s : Stmt} {mode : Bool} (h : strictDirective? s = some mode) :
    s.declared = [] := by
  unfold strictDirective? at h
  split at h
  · rfl
  · cases h

theorem watchedFunction_unhindered (d : FunctionDeclaration) (strict : Bool) (span : Span) :
    Unhindered watched here d.name.toList (watchedFunction watched d strict span)
      (declareFunction d strict span) := by
  have stays : (declareFunction d strict span).Stays (watched + 1) here d.name.toList :=
    declareFunction_stays (List.Subset.refl _) strict span
  unfold watchedFunction
  split
  · next name hd =>
    rw [hd] at stays ⊢
    exact .unlessRefused strict stays
  · exact .refl stays

theorem watchedClass_unhindered (d : ClassDeclaration) (strict : Bool) (span : Span) :
    Unhindered watched here [d.name] (watchedClass watched d strict span) (declareClass d strict span) :=
  .unlessRefused strict (declareClass_stays (List.Subset.refl _) strict span)

variable {self other : Evaluator} (h : self.Unhindered watched other)

include h

/-! ## Statements -/

theorem initialValue_unhindered (value : Option Expr) (strict : Bool) :
    Unhindered watched here (declaredInValue value) (initialValue self value strict)
      (initialValue other value strict) := by
  cases value with
  | none => exact .pure _
  | some e => exact h.expression e strict

theorem declareVariable_unhindered (d : VariableDeclaration) (strict : Bool) (span : Span) :
    Unhindered watched here (d.name :: declaredInValue d.value) (declareVariable self d strict span)
      (declareVariable other d strict span) := by
  refine Unhindered.perm ?_ (List.perm_append_singleton d.name (declaredInValue d.value))
  refine (initialValue_unhindered h d.value strict).bind fun v => .refl (.bind_here ?_)
  exact .declareIn v d.constant strict span (.inr ⟨rfl, List.mem_singleton_self _⟩)

theorem watchedVariable_unhindered (d : VariableDeclaration) (strict : Bool) (span : Span) :
    Unhindered watched here (d.name :: declaredInValue d.value) (watchedVariable watched self d strict span)
      (declareVariable other d strict span) := by
  -- the initial value is evaluated before the name is declared
  refine Unhindered.perm ?_ (List.perm_append_singleton d.name (declaredInValue d.value))
  refine (initialValue_unhindered h d.value strict).bind fun v => .bind_here (.unlessRefused strict ?_)
  exact .declareIn v d.constant strict span (.inr ⟨rfl, List.mem_singleton_self _⟩)

theorem holds_unhindered (condition : Expr) (strict : Bool) :
    Unhindered watched here condition.declared (holds self condition strict) (holds other condition strict) :=
  (h.expression condition strict).bind_quiet fun _ => .pure _

theorem ifBlock_unhindered (condition : Expr) (body : List Stmt) (strict : Bool) :
    Unhindered watched here condition.declared (ifBlock self condition body strict)
      (ifBlock other condition body strict) := by
  refine (holds_unhindered h condition strict).bind_quiet fun b => ?_
  cases b with
  | false => exact .pure _
  | true =>
    refine .bind_here (.bind_newScope _ fun scope younger => ?_)
    refine ((h.block body strict).within younger).bind_quiet fun flow => ?_
    cases flow <;> exact .pure _

/-- The passes of a loop that is not the one whose scope is watched declare their names elsewhere, and each
pass declares them again. -/
theorem whilePasses_unhindered {scope : ScopeId} (younger : watched < scope) (condition : Expr)
    (body : List Stmt) (strict : Bool) (n : Nat) :
    Unhindered watched scope (condition.declared ++ declaredInBlock body)
      (whilePasses self scope condition body strict n) (whilePasses other scope condition body strict n) := by
  have ne : scope ≠ watched := Nat.ne_of_gt younger
  have again {α : Type} {x y : Run α} {f g : α → Run Flow} {first : List String}
      (hx : Unhindered watched scope first x y)
      (within : first ⊆ condition.declared ++ declaredInBlock body)
      (k : ∀ a, Unhindered watched scope (condition.declared ++ declaredInBlock body) (f a) (g a)) :
      Unhindered watched scope (condition.declared ++ declaredInBlock body) (x >>= f) (y >>= g) :=
    (hx.bind k).elsewhere ne (List.append_subset.2 ⟨within, List.Subset.refl _⟩)
  induction n with
  | zero => exact .refl .outOfFuel
  | succ n ih =>
    unfold whilePasses
    refine again (h.block body strict) (List.subset_append_right _ _) fun flow => ?_
    cases flow with
    | leave | give v => exact .pure _
    | value v =>
      refine .after_quiet (.beginPass younger) fun _ => ?_
      refine again (holds_unhindered h condition strict) (List.subset_append_left _ _) fun b => ?_
      cases b with
      | false => exact .pure _
      | true => exact ih

theorem whileLoop_unhindered (condition : Expr) (body : List Stmt) (strict : Bool) (span : Span) :
    Unhindered watched here condition.declared (whileLoop self condition body strict span)
      (whileLoop other condition body strict span) := by
  unfold whileLoop
  rw [h.bound]
  refine (holds_unhindered h condition strict).bind_quiet fun b => ?_
  cases b with
  | false => exact .pure _
  | true =>
    refine .bind_here (.bind_newScope _ fun scope younger => ?_)
    have passes := whilePasses_unhindered h younger condition body strict other.bound
    refine (passes.within younger).bind_quiet fun flow => ?_
    cases flow with
    | give v => exact .refl (leaveLoop_stays v span)
    | value v | leave => exact .pure _

theorem startNumber_unhindered (value : Option Expr) (strict : Bool) :
    Unhindered watched here (declaredInValue value) (startNumber self value strict)
      (startNumber other value strict) := by
  cases value with
  | none => exact .pure _
  | some e =>
    refine (h.expression e strict).bind_quiet fun v => ?_
    split
    · exact .pure _
    · exact .raise _ _

theorem stepCounter_unhindered (loop : ForLoop) {scope : ScopeId} (younger : watched < scope)
    (counter : Float) (strict : Bool) :
    Unhindered watched here [] (stepCounter self loop scope counter strict)
      (stepCounter other loop scope counter strict) := by
  unfold stepCounter
  refine .after_quiet (.declareIn _ _ _ _ (.inl younger)) fun _ => ?_
  refine ((h.expression (stepExpression loop.iterator) strict).within younger).bind_quiet fun v => ?_
  split
  · exact .pure _
  · exact .raise _ _

theorem forPass_unhindered (loop : ForLoop) (strict : Bool) :
    Unhindered watched here (loop.condition.declared ++ declaredInBlock loop.body) (forPass self loop strict)
      (forPass other loop strict) := by
  unfold forPass
  refine (holds_unhindered h loop.condition strict).bind fun b => ?_
  cases b with
  | false => exact .pure _
  | true => exact h.block loop.body strict

theorem forPasses_unhindered (loop : ForLoop) (strict : Bool) (span : Span) (n : Nat) (counter : Float) :
    Unhindered watched here [] (forPasses self loop strict span n counter)
      (forPasses other loop strict span n counter) := by
  induction n generalizing counter with
  | zero => exact .refl .outOfFuel
  | succ n ih =>
    unfold forPasses
    -- each pass has a scope of its own, and the counter is declared in it
    refine .bind_here (.bind_newScope _ fun scope younger => ?_)
    refine .after_quiet (.declareIn _ _ _ _ (.inl younger)) fun _ => ?_
    refine ((forPass_unhindered h loop strict).within younger).bind_quiet fun flow => ?_
    cases flow with
    | leave => exact .pure _
    | give v => exact .refl (leaveLoop_stays v span)
    | value v => exact (stepCounter_unhindered h loop younger counter strict).bind_quiet ih

theorem forLoop_unhindered (loop : ForLoop) (strict : Bool) (span : Span) :
    Unhindered watched here (declaredInValue loop.counter.value) (forLoop self loop strict span)
      (forLoop other loop strict span) := by
  unfold forLoop
  rw [h.bound]
  exact (startNumber_unhindered h loop.counter.value strict).bind_quiet fun start =>
    forPasses_unhindered h loop strict span other.bound start

/-- A statement, its own declaration not watched. -/
theorem statement_unhindered (s : Stmt) (strict : Bool) :
    Unhindered watched here s.declared (statement self s strict) (statement other s strict) := by
  cases s with
  | variableDeclaration span d => exact (declareVariable_unhindered h d strict span).map _
  | functionDeclaration span d =>
    exact .refl ((declareFunction_stays (List.Subset.refl d.name.toList) strict span).map _)
  | classDeclaration span d => exact .refl ((declareClass_stays (List.Subset.refl [d.name]) strict span).map _)
  | ifBlock span condition body => exact ifBlock_unhindered h condition body strict
  | whileLoop span condition body => exact whileLoop_unhindered h condition body strict span
  | forLoop span loop => exact forLoop_unhindered h loop strict span
  | breakLoop span => exact .pure _
  | returnValue span e => exact (h.expression e strict).map _
  | expression span e => exact (h.expression e strict).map _

theorem watchedStatement_unhindered (s : Stmt) (strict : Bool) :
    Unhindered watched here s.declared (watchedStatement watched self s strict) (statement other s strict) := by
  cases s with
  | variableDeclaration span d => exact (watchedVariable_unhindered h d strict span).map _
  | functionDeclaration span d => exact (watchedFunction_unhindered d strict span).map _
  | classDeclaration span d => exact (watchedClass_unhindered d strict span).map _
  | _ => exact statement_unhindered h _ strict

theorem watchedBlock_unhindered (body : List Stmt) (strict : Bool) :
    Unhindered watched here (declaredInBlock body) (watchedBlock watched self body strict)
      (block other body strict) := by
  induction body generalizing strict with
  | nil => exact .pure _
  | cons s rest ih =>
    unfold watchedBlock block
    cases directive : strictDirective? s with
    | some mode =>
      rw [declaredInBlock, List.flatMap_cons, declared_of_strictDirective? directive]
      exact ih mode
    | none =>
      refine (watchedStatement_unhindered h s strict).bind fun flow => ?_
      cases flow with
      | value v => exact ih strict
      | leave | give v => exact .pure _

theorem programFrom_unhindered (p : Program) (strict : Bool) (last : Value) :
    Unhindered watched here (declaredInBlock p) (programFrom self p strict last)
      (programFrom other p strict last) := by
  induction p generalizing strict last with
  | nil => exact .pure _
  | cons s rest ih =>
    unfold programFrom
    cases directive : strictDirective? s with
    | some mode =>
      rw [declaredInBlock, List.flatMap_cons, declared_of_strictDirective? directive]
      exact ih mode last
    | none =>
      dsimp only
      split
      · exact .raise _ _
      · exact .raise _ _
      · refine (statement_unhindered h s strict).bind fun flow => ?_
        cases flow with
        | value v => exact ih strict v
        | leave | give v => exact .raise _ _

theorem program_unhindered (p : Program) :
    Unhindered watched here (declaredInBlock p) (program self p) (program other p) := by
  unfold program
  refine (programFrom_unhindered h p false .null).bind_quiet fun last => ?_
  refine .after_quiet exported_stays fun result => ?_
  cases result <;> exact .pure _

/-! ## Expressions -/

theorem expressions_unhindered (es : List Expr) (strict : Bool) :
    Unhindered watched here (declaredInExprs es) (expressions self es strict) (expressions other es strict) := by
  induction es with
  | nil => exact .pure _
  | cons e rest ih => exact (h.expression e strict).bind fun v => ih.bind_quiet fun vs => .pure _

theorem properties_unhindered (ps : List Property) (strict : Bool) (done : Properties) :
    Unhindered watched here (declaredInProperties ps) (properties self ps strict done)
      (properties other ps strict done) := by
  induction ps generalizing done with
  | nil => exact .pure _
  | cons p rest ih =>
    obtain ⟨key, value, span⟩ := p
    cases value with
    | some e => exact (h.expression e strict).bind fun v => ih _
    | none => exact .after_quiet (.lookup _ _) fun v => ih _

theorem propertyKey_unhindered (property : Expr) (computed strict : Bool) :
    Unhindered watched here property.declared (propertyKey self property computed strict)
      (propertyKey other property computed strict) := by
  unfold propertyKey
  split
  · exact .pure _
  · refine (h.expression property strict).bind_quiet fun v => ?_
    split
    · exact .pure _
    · exact .raise _ _

theorem elementPlace_unhindered (index : Expr) (length : Nat) (strict : Bool) (span : Span) :
    Unhindered watched here index.declared (elementPlace self index length strict span)
      (elementPlace other index length strict span) :=
  (h.expression index strict).bind_quiet fun _ => .refl (.settle span _)

theorem memberValue_unhindered (container : Value) (property : Expr) (computed strict : Bool) (span : Span) :
    Unhindered watched here property.declared (memberValue self container property computed strict span)
      (memberValue other container property computed strict span) := by
  unfold memberValue
  split
  · refine (propertyKey_unhindered h property computed strict).bind_quiet fun key => ?_
    split
    · exact .pure _
    · exact .raise _ _
  · split
    · exact (elementPlace_unhindered h property _ strict span).bind_quiet fun place => .pure _
    · exact .raise _ _
  · exact .raise _ _

theorem withMember_unhindered (container : Value) (property : Expr) (computed : Bool) (value : Value)
    (strict : Bool) (span : Span) :
    Unhindered watched here property.declared (withMember self container property computed value strict span)
      (withMember other container property computed value strict span) := by
  unfold withMember
  split
  · refine (propertyKey_unhindered h property computed strict).bind_quiet fun key => ?_
    split
    · exact .raise _ _
    · exact .refl (.newObject _)
  · split
    · refine (elementPlace_unhindered h property _ strict span).bind_quiet fun place => ?_
      split
      · exact .refl (.newArray _)
      · exact .raise _ _
    · exact .raise _ _
  · exact .raise _ _

/-- The value of an assignment is evaluated before the key of a member that is assigned to. -/
theorem assign_unhindered (target value : Expr) (strict : Bool) (span : Span) :
    Unhindered watched here (target.declared ++ value.declared) (assign self target value strict span)
      (assign other target value strict span) := by
  unfold assign
  split
  · exact (h.expression value strict).bind_quiet fun v => .refl (.reassign _ v span)
  · rw [Expr.declared, Expr.declared, List.nil_append]
    refine Unhindered.perm ?_ List.perm_append_comm
    refine .after_quiet (.lookup _ _) fun container => (h.expression value strict).bind fun v => ?_
    refine (withMember_unhindered h container _ _ v strict span).bind_quiet fun updated => ?_
    exact .refl ((Stays.reassign _ updated span).bind fun _ => .pure _)
  · exact .raise _ _
  · exact .raise _ _

/-! ## Calls and instances -/

theorem callFunction_unhindered (f : Function) (args : List Value) (strict : Bool) (span : Span) :
    Unhindered watched here [] (callFunction self f args strict span) (callFunction other f args strict span) := by
  unfold callFunction
  dsimp only
  split
  · exact .raise _ _
  · -- parameters and body share the scope of the call
    refine .bind_newScope _ fun scope younger => .after_quiet (bindParameters_stays younger strict span _) fun _ => ?_
    refine ((h.block f.declaration.body strict).inCall younger).bind_quiet fun flow => ?_
    cases flow <;> exact .pure _

theorem runSource_unhindered (source : String) (span : Span) :
    Unhindered watched here [] (runSource self source span) (runSource other source span) := by
  unfold runSource
  split
  · exact .raise _ _
  · next p hp =>
    refine .bind_here (.bind_newScope _ fun scope younger => ?_)
    exact (Unhindered.withFrame (f := ⟨scope, 0⟩) (program_unhindered h p) younger).fromSource span

theorem callNative_unhindered (native : Native) (args : List Value) (span : Span) :
    Unhindered watched here [] (callNative self native args span) (callNative other native args span) := by
  cases native with
  | evalFile => exact .after_quiet (readFile_stays _ args span) fun source => runSource_unhindered h source span
  | evaluate => exact .after_quiet (.settle span _) fun source => runSource_unhindered h source span
  | _ => exact ⟨callNative_stays h.plain_stays _ args span, fun _ _ _ => rfl⟩

theorem call_unhindered (callee : Value) (args : List Value) (strict : Bool) (span : Span) :
    Unhindered watched here [] (call self callee args strict span) (call other callee args strict span) := by
  cases callee with
  | native stamp native => exact callNative_unhindered h native args span
  | function f => exact callFunction_unhindered h f args strict span
  | _ => exact .raise _ _

theorem layMember_unhindered {scope : ScopeId} (younger : watched < scope) (strict : Bool) (span : Span)
    (a : Assembly) (member : Member) :
    Unhindered watched here [] (layMember self scope strict span a member)
      (layMember other scope strict span a member) := by
  cases member with
  | property visibility d =>
    unfold layMember
    dsimp only
    have laid (v : Value) : Unhindered watched here []
        (Run.declareIn scope d.name v d.constant false span >>= fun _ => Pure.pure (a.mark d.name visibility))
        (Run.declareIn scope d.name v d.constant false span >>= fun _ => Pure.pure (a.mark d.name visibility)) :=
      .after_quiet (.declareIn _ _ _ _ (.inl younger)) fun _ => .pure _
    cases d.value with
    | none => exact .after_quiet (.pure Value.null) laid
    | some e => exact ((h.expression e strict).within younger).bind_quiet laid
  | method visibility d => exact ⟨layMember_stays h.plain_stays younger strict span a _, fun _ _ _ => rfl⟩

theorem layMembers_unhindered {scope : ScopeId} (younger : watched < scope) (strict : Bool) (span : Span)
    (members : List Member) (a : Assembly) :
    Unhindered watched here [] (layMembers self scope strict span members a)
      (layMembers other scope strict span members a) := by
  induction members generalizing a with
  | nil => exact .pure _
  | cons m rest ih => exact (layMember_unhindered h younger strict span a m).bind_quiet ih

theorem construct_unhindered (constructor : Option Function) (args : List Value) (strict : Bool) (span : Span) :
    Unhindered watched here [] (construct self constructor args strict span)
      (construct other constructor args strict span) := by
  cases constructor with
  | none => exact .pure _
  | some f => exact (callFunction_unhindered h f args strict span).bind_quiet fun _ => .pure _

theorem instantiate_unhindered (c : Class) (args : List Value) (strict : Bool) (span : Span) :
    Unhindered watched here [] (instantiate self c args strict span) (instantiate other c args strict span) := by
  unfold instantiate
  refine .bind_newScope _ fun scope younger => ?_
  refine (layMembers_unhindered h younger strict span _ _).bind_quiet fun a => ?_
  refine (construct_unhindered h a.constructor args strict span).bind_quiet fun _ => ?_
  exact .refl ((readNames_stays scope span a.visible []).bind fun ps => .newObject ps)

theorem watchedExpression_unhindered (e : Expr) (strict : Bool) :
    Unhindered watched here e.declared (watchedExpression watched self e strict) (expression other e strict) := by
  cases e with
  | identifier span name => exact .refl (.lookup name span)
  | number | string | null => exact .pure _
  | object span ps => exact (properties_unhindered h ps strict []).bind_quiet fun ps => .refl (.newObject ps)
  | array span es => exact (expressions_unhindered h es strict).bind_quiet fun vs => .refl (.newArray vs)
  | binary span left operator right =>
    refine (h.expression left strict).bind fun v => (h.expression right strict).bind_quiet fun w => ?_
    exact .refl (.settle span _)
  | assign span target value => exact assign_unhindered h target value strict span
  | member span object property computed =>
    exact (h.expression object strict).bind fun v => memberValue_unhindered h v property computed strict span
  | call span callee arguments =>
    -- the arguments come before the callee
    refine Unhindered.perm ?_ List.perm_append_comm
    refine (expressions_unhindered h arguments strict).bind fun args => ?_
    exact (h.expression callee strict).bind_quiet fun f => call_unhindered h f args strict span
  | function span d => exact watchedFunction_unhindered d strict span
  | instantiate span target arguments =>
    refine Unhindered.perm ?_ List.perm_append_comm
    refine (expressions_unhindered h arguments strict).bind fun args => ?_
    refine (h.expression target strict).bind_quiet fun v => ?_
    cases v with
    | classValue c => exact instantiate_unhindered h c args strict span
    | _ => exact .raise _ _

end Eval

/-- Evaluators with a bound are unhindered, by induction on the bound. -/
theorem Evaluator.watching_unhindered (watched : ScopeId) (n : Nat) :
    (Evaluator.watching watched n).Unhindered watched (.bounded n) := by
  induction n with
  | zero => exact ⟨rfl, fun _ _ => .refl .outOfFuel, fun _ _ => .refl .outOfFuel⟩
  | succ n ih =>
    exact ⟨rfl, fun e strict => Eval.watchedExpression_unhindered ih e strict,
      fun body strict => Eval.watchedBlock_unhindered ih body strict⟩

end ScriptLang
