/-
# ScriptLang.Proofs.NameFault — where it comes up that a name is not bound, or is constant.

An evaluation that fails over a name has come to a point at which this name is looked up or given a value, and
there it fails; or it has come to another text, which fails so.  No name is asked for anywhere else: a look at a
name that is at no such point could fail, and the failure would not be explained.

The rules of the evaluator are followed once, each with the points that it comes to.
-/
import ScriptLang.Proofs.Point

namespace ScriptLang

/-! ## Faults and what explains them -/

/-- The name that a fault is about: it does not exist, or it cannot be given a value. -/
def RuntimeFault.ofName? : RuntimeFault → Option String
  | .unboundName name | .constantReassign name => some name
  | _ => none

theorem RuntimeFault.IsOfValues.ofName?_eq {fault : RuntimeFault} (h : fault.IsOfValues) :
    fault.ofName? = none := by
  cases fault <;> first | exact h.elim | rfl

namespace Scopes

theorem ofName?_of_value {s : Scopes} {id : ScopeId} {name : String} {fault : RuntimeFault}
    (h : s.value id name = .error fault) : fault.ofName? = some name := by
  unfold value at h
  split at h <;> cases h
  rfl

theorem ofName?_of_writable {s : Scopes} {id : ScopeId} {name : String} {fault : RuntimeFault}
    (h : s.writable id name = .error fault) : fault.ofName? = some name := by
  unfold writable at h
  split at h
  · cases h
    rfl
  · split at h <;> cases h
    rfl

end Scopes

/-- At a point the fault of a name comes up: the name is looked up there or given a value, and that fails, or
another text is run, which fails in this way. -/
inductive Point.Raises (x : String) (fault : RuntimeFault) : Point → Prop
  | looked {strict : Bool} {m : Machine} : m.scopes.value m.frame.scope x = .error fault →
    Raises x fault ⟨.name x, strict, m⟩
  | given {strict : Bool} {m : Machine} : m.scopes.writable m.frame.scope x = .error fault →
    Raises x fault ⟨.name x, strict, m⟩
  | away {strict : Bool} {m k : Machine} {run : Run Value} {span : Span} :
    run m = .error (.raised ⟨span, fault⟩) k → Raises x fault ⟨.away run, strict, m⟩

/-- The evaluation comes from the point to one at which the fault comes up. -/
def Point.Explains (p : Point) (x : String) (fault : RuntimeFault) : Prop :=
  ∃ q, p.Comes q ∧ q.Raises x fault

/-- If the run fails from the machine `m` with a fault of the name `x`, then with one that has a property. -/
def Run.FailsAs {α : Type} (x : String) (as : RuntimeFault → Prop) (y : Run α) (m : Machine) : Prop :=
  ∀ error k, y m = .error (.raised error) k → error.fault.ofName? = some x → as error.fault

namespace Run.FailsAs

variable {α β : Type} {x : String} {as : RuntimeFault → Prop} {m : Machine} {y : Run α}

theorem ok {a : α} {k : Machine} (ran : y m = .ok a k) : y.FailsAs x as m := by
  intro error l h
  rw [ran] at h
  cases h

theorem pure (a : α) : (Pure.pure a : Run α).FailsAs x as m := ok rfl

theorem raise (span : Span) {fault : RuntimeFault} (h : fault.ofName? = none) :
    (Run.raise span fault : Run α).FailsAs x as m := by
  rintro error k ran about
  cases ran
  rw [h] at about
  cases about

theorem outOfFuel : (Run.outOfFuel : Run α).FailsAs x as m := nofun

theorem mono {as' : RuntimeFault → Prop} (h : y.FailsAs x as m) (weaker : ∀ fault, as fault → as' fault) :
    y.FailsAs x as' m :=
  fun error k ran about => weaker _ (h error k ran about)

theorem congr {z : Run α} {l : Machine} (h : z.FailsAs x as l) (same : y m = z l) : y.FailsAs x as m :=
  fun error k ran about => h error k (same ▸ ran) about

theorem bind {f : α → Run β} (h : y.FailsAs x as m)
    (next : ∀ a k, y m = .ok a k → (f a).FailsAs x as k) : (y >>= f).FailsAs x as m := by
  intro error l ran about
  rcases bind_eq_error.1 ran with first | ⟨a, k, first, ran⟩
  · exact h error l first about
  · exact next a k first error l ran about

/-- Behind a run that has ended the next one is left. -/
theorem step {f : α → Run β} {a : α} {k : Machine} (ran : y m = .ok a k) (h : (f a).FailsAs x as k) :
    (y >>= f).FailsAs x as m :=
  h.congr (bind_of_ok ran)

theorem map (f : α → β) (h : y.FailsAs x as m) : (f <$> y).FailsAs x as m := by
  rw [map_eq_pure_bind]
  exact h.bind fun a _ _ => pure (f a)

theorem settle (span : Span) {e : Except RuntimeFault α} (h : Avoids (fun fault => fault.ofName? = some x) e) :
    (Run.settle span e).FailsAs x as m := by
  cases e with
  | ok a => exact pure a
  | error fault =>
    rintro error k ran about
    cases ran
    exact (h fault rfl about).elim

theorem withFrame {f : Frame} (h : y.FailsAs x as { m with frame := f }) :
    (Run.withFrame f y).FailsAs x as m := by
  intro error k ran about
  rw [withFrame_run] at ran
  generalize inside : y { m with frame := f } = outcome at ran
  cases outcome with
  | ok a l => cases ran
  | error halt l =>
    cases ran
    exact h error l inside about

theorem within {scope : ScopeId} (h : y.FailsAs x as { m with frame := ⟨scope, m.frame.depth⟩ }) :
    (Run.within scope y).FailsAs x as m :=
  withFrame h

theorem inCall {scope : ScopeId} (h : y.FailsAs x as { m with frame := ⟨scope, m.frame.depth + 1⟩ }) :
    (Run.inCall scope y).FailsAs x as m :=
  withFrame h

theorem declareIn (scope : ScopeId) (name : String) (v : Value) (constant strict : Bool) (span : Span) :
    (Run.declareIn scope name v constant strict span).FailsAs x as m := by
  rintro error k ran about
  unfold Run.declareIn at ran
  split at ran <;> cases ran
  cases about

end Run.FailsAs

/-- If the run fails from the machine `m` with a fault of the name `x`, then with one that a point explains. -/
def Run.ExplainedBy {α : Type} (p : Point) (x : String) (y : Run α) (m : Machine) : Prop :=
  y.FailsAs x (p.Explains x) m

namespace Run.ExplainedBy

variable {p : Point} {x : String} {m : Machine}

theorem lookup {strict : Bool} {name : String} (comes : p.Comes ⟨.name name, strict, m⟩) (span : Span) :
    (Run.lookup name span).ExplainedBy p x m := by
  rintro error k ran about
  unfold Run.lookup Run.lookupFrom Run.settle at ran
  split at ran <;> cases ran
  next fault failed =>
  obtain rfl := Option.some.inj ((Scopes.ofName?_of_value failed).symm.trans about)
  exact ⟨_, comes, .looked failed⟩

theorem reassign {strict : Bool} {name : String} (comes : p.Comes ⟨.name name, strict, m⟩) (v : Value)
    (span : Span) : (Run.reassign name v span).ExplainedBy p x m := by
  rintro error k ran about
  unfold Run.reassign at ran
  split at ran <;> cases ran
  next fault failed =>
  obtain rfl := Option.some.inj ((Scopes.ofName?_of_writable failed).symm.trans about)
  exact ⟨_, comes, .given failed⟩

/-- Another text explains itself. -/
theorem away {strict : Bool} {run : Run Value} (comes : p.Comes ⟨.away run, strict, m⟩) :
    run.ExplainedBy p x m :=
  fun _ _ ran _ => ⟨_, comes, .away ran⟩

end Run.ExplainedBy

/-- What fails in steps bounded by `n`, fails at a point that the evaluation comes to. -/
structure Evaluator.Explained (n : Nat) (x : String) : Prop where
  expression : ∀ {p : Point} {e : Expr} {strict : Bool} {m : Machine}, p.Comes ⟨.expression e, strict, m⟩ →
    ((Evaluator.bounded n).expression e strict).ExplainedBy p x m
  block : ∀ {p : Point} {body : List Stmt} {strict : Bool} {m : Machine}, p.Comes ⟨.block body, strict, m⟩ →
    ((Evaluator.bounded n).block body strict).ExplainedBy p x m

/-! ## The rules of the evaluator -/

namespace Eval

open Run

variable {n : Nat} {x : String} {p : Point} {strict : Bool} {m : Machine}

theorem expressions_concat {es : List Expr} {e : Expr} {vs : List Value} {v : Value} {k l : Machine}
    (before : expressions (.bounded n) es strict m = .ok vs k)
    (last : (Evaluator.bounded n).expression e strict k = .ok v l) :
    expressions (.bounded n) (es ++ [e]) strict m = .ok (vs ++ [v]) l := by
  induction es generalizing vs m with
  | nil =>
    cases before
    exact bind_of_ok last
  | cons first rest ih =>
    obtain ⟨w, k₁, ran, before⟩ := bind_eq_ok.1 before
    obtain ⟨ws, k₂, before, ended⟩ := bind_eq_ok.1 before
    cases ended
    exact (bind_of_ok ran).trans (bind_of_ok (ih before))

variable (parts : Evaluator.Explained n x)

include parts

/-! ### Expressions -/

theorem expressions_explained {es : List Expr}
    (into : ∀ before e rest vs k, es = before ++ e :: rest →
      expressions (.bounded n) before strict m = .ok vs k → p.Comes ⟨.expression e, strict, k⟩) :
    (expressions (.bounded n) es strict).ExplainedBy p x m := by
  induction es generalizing m with
  | nil => exact .pure []
  | cons e rest ih =>
    refine (parts.expression (into [] e rest [] m rfl rfl)).bind fun v k ran => ?_
    refine (ih fun before e' rest' vs l split later => ?_).bind fun vs _ _ => .pure (v :: vs)
    exact into (e :: before) e' rest' (v :: vs) l (by rw [split]; rfl)
      ((bind_of_ok ran).trans (bind_of_ok later))

theorem properties_explained {ps : List Property} (done : Properties)
    (value : ∀ before e rest vs k, ps.filterMap Property.value = before ++ e :: rest →
      expressions (.bounded n) before strict m = .ok vs k → p.Comes ⟨.expression e, strict, k⟩)
    (shorthand : ∀ before key span rest vs k, ps = before ++ ⟨key, none, span⟩ :: rest →
      expressions (.bounded n) (before.filterMap Property.value) strict m = .ok vs k →
      p.Comes ⟨.name key, strict, k⟩) :
    (properties (.bounded n) ps strict done).ExplainedBy p x m := by
  induction ps generalizing m done with
  | nil => exact .pure done
  | cons entry rest ih =>
    obtain ⟨key, given, span⟩ := entry
    cases given with
    | some e =>
      refine (parts.expression (value [] e _ [] m rfl rfl)).bind fun v k ran => ?_
      refine ih _ (fun before e' rest' vs l split later => ?_) fun before key' span' rest' vs l split later => ?_
      · exact value (e :: before) e' rest' (v :: vs) l (by simpa using split)
          ((bind_of_ok ran).trans (bind_of_ok later))
      · exact shorthand (⟨key, some e, span⟩ :: before) key' span' rest' (v :: vs) l (by rw [split]; rfl)
          ((bind_of_ok ran).trans (bind_of_ok later))
    | none =>
      refine (ExplainedBy.lookup (shorthand [] key span rest [] m rfl rfl) span).bind fun v k ran => ?_
      obtain ⟨-, rfl⟩ := lookup_eq_ok.1 ran
      refine ih _ (fun before e' rest' vs l split later => ?_) fun before key' span' rest' vs l split later => ?_
      · exact value before e' rest' vs l (by simpa using split) later
      · exact shorthand (⟨key, none, span⟩ :: before) key' span' rest' vs l (by rw [split]; rfl) later

section Members

variable {property : Expr} {computed : Bool}
  (key : ∀ e ∈ keyParts property computed, p.Comes ⟨.expression e, strict, m⟩)

include key

theorem propertyKey_explained : (propertyKey (.bounded n) property computed strict).ExplainedBy p x m := by
  unfold propertyKey
  split
  · exact .pure _
  · next other =>
    have evaluated : property ∈ keyParts property computed := by
      unfold keyParts
      split
      · exact (other _ _ rfl rfl).elim
      · exact List.mem_singleton_self _
    refine (parts.expression (key property evaluated)).bind fun v _ _ => ?_
    cases v with
    | string key => exact .pure key
    | _ => exact .raise _ rfl

theorem elementPlace_explained (bracketed : computed = true) (length : Nat) (span : Span) :
    (elementPlace (.bounded n) property length strict span).ExplainedBy p x m := by
  subst bracketed
  have evaluated : property ∈ keyParts property true := by cases property <;> exact List.mem_singleton_self _
  refine (parts.expression (key property evaluated)).bind fun v _ _ => .settle span ?_
  exact elementPosition_avoids (fun fault ofValues => by simp [ofValues.ofName?_eq]) v length strict

theorem memberValue_explained (container : Value) (span : Span) :
    (memberValue (.bounded n) container property computed strict span).ExplainedBy p x m := by
  unfold memberValue
  split
  · refine (propertyKey_explained parts key).bind fun key _ _ => ?_
    split
    · exact .pure _
    · exact .raise _ rfl
  · split
    · next bracketed => exact (elementPlace_explained parts key bracketed _ span).bind fun _ _ _ => .pure _
    · exact .raise _ rfl
  · exact .raise _ rfl

theorem withMember_explained (container v : Value) (span : Span) :
    (withMember (.bounded n) container property computed v strict span).ExplainedBy p x m := by
  unfold withMember
  split
  · refine (propertyKey_explained parts key).bind fun key _ _ => ?_
    split
    · exact .raise _ rfl
    · exact .step rfl (.pure _)
  · split
    · next bracketed =>
      refine (elementPlace_explained parts key bracketed _ span).bind fun place _ _ => ?_
      cases place with
      | some place => exact .step rfl (.pure _)
      | none => exact .raise _ rfl
    · exact .raise _ rfl
  · exact .raise _ rfl

end Members

theorem assign_explained {target value : Expr} {span : Span}
    (comes : p.Comes ⟨.expression (.assign span target value), strict, m⟩) :
    (assign (.bounded n) target value strict span).ExplainedBy p x m := by
  unfold assign
  split
  · next s name =>
    refine (parts.expression (comes.first rfl)).bind fun v k ran => ?_
    exact ExplainedBy.reassign (comes.tail (.assigned ran)) v span
  · next s t name property computed =>
    refine (ExplainedBy.lookup (comes.tail .container) t).bind fun container k found => ?_
    obtain ⟨-, rfl⟩ := lookup_eq_ok.1 found
    refine (parts.expression (comes.first rfl)).bind fun v l ran => ?_
    have key (e : Expr) (he : e ∈ keyParts property computed) : p.Comes ⟨.expression e, strict, l⟩ :=
      comes.second (congrArg (value :: ·) (keyParts_eq_of_mem he)) ran
    refine (withMember_explained parts key container v span).bind fun updated j copied => ?_
    exact (ExplainedBy.reassign (comes.tail (.rebound ran copied)) updated span).bind fun _ _ _ => .pure _
  · exact .raise _ rfl
  · exact .raise _ rfl

omit parts in
/-- A function that is made fails with no fault of a name. -/
theorem declareFunction_explained (d : FunctionDeclaration) (span : Span) :
    (declareFunction d strict span).ExplainedBy p x m := by
  unfold declareFunction
  refine .step rfl (.step rfl ?_)
  cases d.name with
  | some name => exact .declareIn _ _ _ _ _ _
  | none => exact .pure _

theorem expression_explained {e : Expr} (comes : p.Comes ⟨.expression e, strict, m⟩) :
    (Eval.expression (.bounded n) e strict).ExplainedBy p x m := by
  have into (before : List Expr) (part : Expr) (rest : List Expr) (vs : List Value) (k : Machine)
      (split : e.parts = before ++ part :: rest) (ran : expressions (.bounded n) before strict m = .ok vs k) :
      p.Comes ⟨.expression part, strict, k⟩ := comes.tail (.part split ran)
  cases e with
  | identifier span name => exact .lookup (comes.tail .identifier) span
  | number | string | null => exact .pure _
  | object span ps =>
    refine (properties_explained parts [] into fun before key s rest vs k split ran => ?_).bind
      fun ps _ _ => .step rfl (.pure _)
    subst split
    exact comes.tail (.shorthand ran)
  | array span es => exact (expressions_explained parts into).bind fun vs _ _ => .step rfl (.pure _)
  | binary span left operator right =>
    refine (parts.expression (comes.first rfl)).bind fun v k ran => ?_
    refine (parts.expression (comes.second rfl ran)).bind fun w _ _ => .settle span ?_
    exact operator.apply_avoids (fun fault ofValues => by simp [ofValues.ofName?_eq]) strict v w
  | assign span target value => exact assign_explained parts comes
  | member span container property computed =>
    refine (parts.expression (comes.first rfl)).bind fun v k ran => ?_
    refine memberValue_explained parts (fun e he => ?_) v span
    exact comes.second (congrArg (container :: ·) (keyParts_eq_of_mem he)) ran
  | call span callee arguments =>
    refine (expressions_explained parts fun before e rest vs k split ran => ?_).bind fun args k evaluated => ?_
    · exact into before e (rest ++ [callee]) vs k (by rw [Expr.parts, split]; simp) ran
    · refine (parts.expression (into arguments callee [] args k rfl evaluated)).bind fun f l ran => ?_
      exact ExplainedBy.away (comes.tail (.call (expressions_concat evaluated ran)))
  | function span d => exact declareFunction_explained d span
  | instantiate span target arguments =>
    refine (expressions_explained parts fun before e rest vs k split ran => ?_).bind fun args k evaluated => ?_
    · exact into before e (rest ++ [target]) vs k (by rw [Expr.parts, split]; simp) ran
    · refine (parts.expression (into arguments target [] args k rfl evaluated)).bind fun v l ran => ?_
      cases v with
      | classValue c => exact ExplainedBy.away (comes.tail (.instantiation (expressions_concat evaluated ran)))
      | _ => exact .raise _ rfl

/-! ### Statements -/

theorem holds_explained {condition : Expr} (comes : p.Comes ⟨.expression condition, strict, m⟩) :
    (holds (.bounded n) condition strict).ExplainedBy p x m :=
  (parts.expression comes).bind fun _ _ _ => .pure _

theorem initialValue_explained {value : Option Expr}
    (comes : ∀ e ∈ value.toList, p.Comes ⟨.expression e, strict, m⟩) :
    (initialValue (.bounded n) value strict).ExplainedBy p x m := by
  cases value with
  | some e => exact parts.expression (comes e (List.mem_singleton_self _))
  | none => exact .pure _

omit parts in
theorem declareClass_explained {d : ClassDeclaration} {span : Span}
    (comes : p.Comes ⟨.statement (.classDeclaration span d), strict, m⟩) :
    (declareClass d strict span).ExplainedBy p x m := by
  have above : (ancestors d span).ExplainedBy p x m := by
    unfold ancestors
    split
    · exact .pure _
    · next parent extended =>
      refine (ExplainedBy.lookup (comes.tail (.superclass extended)) span).bind fun v _ _ => ?_
      cases v with
      | classValue c => exact .pure _
      | _ => exact .raise _ rfl
  exact above.bind fun _ _ _ => .step rfl (.step rfl (.declareIn _ _ _ _ _ _))

theorem ifBlock_explained {span : Span} {condition : Expr} {body : List Stmt}
    (comes : p.Comes ⟨.statement (.ifBlock span condition body), strict, m⟩) :
    (ifBlock (.bounded n) condition body strict).ExplainedBy p x m := by
  unfold ifBlock
  refine (holds_explained parts (comes.tail (.begin (List.mem_singleton_self _)))).bind fun b k held => ?_
  cases b with
  | false => exact .pure _
  | true =>
    refine .step rfl (.step rfl ?_)
    refine (FailsAs.within (parts.block (comes.tail (.ifBody held)))).bind fun flow _ _ => ?_
    cases flow <;> exact .pure _

omit parts in
theorem leaveLoop_explained (v : Value) (span : Span) : (leaveLoop v span).ExplainedBy p x m := by
  refine .step rfl ?_
  split
  · exact .pure _
  · exact .raise _ rfl

theorem whilePasses_explained {span : Span} {condition : Expr} {body : List Stmt} {start : Machine}
    (comes : p.Comes ⟨.statement (.whileLoop span condition body), strict, start⟩) (passes : Nat)
    {names : List String} (pass : Pass n condition body strict start names m) :
    (whilePasses (.bounded n) m.frame.scope condition body strict passes).ExplainedBy p x m := by
  induction passes generalizing names m with
  | zero => exact .outOfFuel
  | succ passes ih =>
    refine (parts.block (comes.tail (.whileBody pass))).bind fun flow k ran => ?_
    cases flow with
    | leave | give v => exact .pure _
    | value v =>
      refine .step rfl ?_
      refine (holds_explained parts (comes.tail (.whileCondition pass ran))).bind fun b l held => ?_
      cases b with
      | false => exact .pure _
      | true =>
        -- the block and the condition give the frame back
        have orderly := Evaluator.bounded_orderly n
        have kept : k.frame = m.frame := ((orderly.block body strict).of_ok ran).1
        have frame := (holds_orderly orderly condition strict).frame_of_value held
        have next := ih (.next pass ran held)
        rwa [frame.trans kept] at next

theorem whileLoop_explained {span : Span} {condition : Expr} {body : List Stmt}
    (comes : p.Comes ⟨.statement (.whileLoop span condition body), strict, m⟩) :
    (whileLoop (.bounded n) condition body strict span).ExplainedBy p x m := by
  unfold whileLoop
  refine (holds_explained parts (comes.tail (.begin (List.mem_singleton_self _)))).bind fun b k held => ?_
  cases b with
  | false => exact .pure _
  | true =>
    refine .step rfl (.step rfl ?_)
    refine (FailsAs.within (whilePasses_explained parts comes n (.first held))).bind fun flow _ _ => ?_
    cases flow with
    | give v => exact leaveLoop_explained v span
    | value _ | leave => exact .pure _

theorem forPasses_explained {span : Span} {loop : ForLoop} {start : Machine}
    (comes : p.Comes ⟨.statement (.forLoop span loop), strict, start⟩) (passes : Nat) {i : Nat} {c : Float}
    (counts : Counts n loop strict start i c m) :
    (forPasses (.bounded n) loop strict span passes c).ExplainedBy p x m := by
  induction passes generalizing i c m with
  | zero => exact .outOfFuel
  | succ passes ih =>
    refine .congr ?_ (forPasses_succ (.bounded n) loop strict span passes c m)
    have pass : (forPass (.bounded n) loop strict).ExplainedBy p x (m.inPass loop c) := by
      refine (holds_explained parts (comes.tail (.forCondition counts))).bind fun b k held => ?_
      cases b with
      | false => exact .pure _
      | true => exact parts.block (comes.tail (.forBody counts held))
    refine (FailsAs.within pass).bind fun flow k ran => ?_
    obtain ⟨done, ended, rfl⟩ := within_eq_ok ran
    cases flow with
    | leave => exact .pure _
    | give v => exact leaveLoop_explained v span
    | value v =>
      have stands := (forPass_keeps ended).1
      have stepped : (stepCounter (.bounded n) loop m.scopes.size c strict).ExplainedBy p x
          { done with frame := m.frame } := by
        refine .step (declareIn_lenient _ _ _ _ _ _) (.bind (.within ?_) fun v _ _ => ?_)
        · have inside : done.pinned loop m.scopes.size c =
              { done.pinned loop m.scopes.size c with frame := ⟨m.scopes.size, m.frame.depth⟩ } := by
            rw [← stands]
            rfl
          exact parts.expression (inside ▸ comes.tail (.forStep counts ended))
        · cases v with
          | number x => exact .pure _
          | _ => exact .raise _ rfl
      refine stepped.bind fun next l step => ?_
      obtain ⟨checked, stepped, complete, rfl⟩ := CounterPass.of_run ended step
      exact ih (.next counts complete)

theorem forLoop_explained {span : Span} {loop : ForLoop}
    (comes : p.Comes ⟨.statement (.forLoop span loop), strict, m⟩) :
    (forLoop (.bounded n) loop strict span).ExplainedBy p x m := by
  have start : (startNumber (.bounded n) loop.counter.value strict).ExplainedBy p x m := by
    unfold startNumber
    split
    · exact .pure _
    · next e given =>
      have first : e ∈ (Stmt.forLoop span loop).parts := by simp [Stmt.parts, given]
      refine (parts.expression (comes.tail (.begin first))).bind fun v _ _ => ?_
      cases v with
      | number x => exact .pure _
      | _ => exact .raise _ rfl
  exact start.bind fun c k started => forPasses_explained parts comes n (.start started)

theorem statement_explained {s : Stmt} (comes : p.Comes ⟨.statement s, strict, m⟩) :
    (statement (.bounded n) s strict).ExplainedBy p x m := by
  have into (e : Expr) (first : e ∈ s.parts) : p.Comes ⟨.expression e, strict, m⟩ := comes.tail (.begin first)
  cases s with
  | variableDeclaration span d =>
    exact .map _ ((initialValue_explained parts into).bind fun _ _ _ => .step rfl (.declareIn _ _ _ _ _ _))
  | functionDeclaration span d => exact .map _ (declareFunction_explained d span)
  | classDeclaration span d => exact .map _ (declareClass_explained comes)
  | ifBlock span condition body => exact ifBlock_explained parts comes
  | whileLoop span condition body => exact whileLoop_explained parts comes
  | forLoop span loop => exact forLoop_explained parts comes
  | breakLoop span => exact .pure _
  | returnValue span e | expression span e =>
    exact .map _ (parts.expression (into e (List.mem_singleton_self _)))

theorem block_explained {body : List Stmt} (comes : p.Comes ⟨.block body, strict, m⟩) :
    (block (.bounded n) body strict).ExplainedBy p x m := by
  induction body generalizing strict m with
  | nil => exact .pure _
  | cons s rest ih =>
    unfold block
    split
    · next mode directive => exact ih (comes.tail (.directive directive))
    · next plain =>
      refine (statement_explained parts (comes.tail (.first plain))).bind fun flow k ran => ?_
      cases flow with
      | value v => exact ih (comes.tail (.later plain ran))
      | leave | give v => exact .pure _

end Eval

/-- By induction on the bound: what fails in a part fails at a point that the part comes to. -/
theorem Evaluator.explained (n : Nat) (x : String) : Evaluator.Explained n x := by
  induction n with
  | zero => exact ⟨fun _ => .outOfFuel, fun _ => .outOfFuel⟩
  | succ n ih =>
    exact ⟨fun comes => Eval.expression_explained ih comes, fun comes => Eval.block_explained ih comes⟩

/-- What is left to evaluate at a point fails, in steps bounded by `n`. -/
def Point.Fails (n : Nat) (error : RuntimeError) : Point → Prop
  | ⟨.expression e, strict, m⟩ => ∃ k, evalExpression n e strict m = .error (.raised error) k
  | ⟨.statement s, strict, m⟩ => ∃ k, Eval.statement (.bounded n) s strict m = .error (.raised error) k
  | ⟨.block body, strict, m⟩ => ∃ k, evalBlock n body strict m = .error (.raised error) k
  | ⟨.body d, strict, m⟩ => ∃ k, evalBlock n d.body strict m = .error (.raised error) k
  | _ => False

/-- A text that fails with a fault of a name comes to a point at which this fault comes up. -/
theorem Point.Fails.explained {p : Point} {n : Nat} {error : RuntimeError} {x : String} (h : p.Fails n error)
    (about : error.fault.ofName? = some x) : p.Explains x error.fault := by
  have parts := Evaluator.explained n x
  obtain ⟨code, strict, m⟩ := p
  cases code with
  | expression e =>
    obtain ⟨k, ran⟩ := h
    exact parts.expression .refl error k ran about
  | statement s =>
    obtain ⟨k, ran⟩ := h
    exact Eval.statement_explained parts .refl error k ran about
  | block body =>
    obtain ⟨k, ran⟩ := h
    exact parts.block .refl error k ran about
  | body d =>
    obtain ⟨k, ran⟩ := h
    exact parts.block (.single .body) error k ran about
  | _ => exact h.elim

end ScriptLang
