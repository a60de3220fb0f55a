/-
# ScriptLang.Proofs.Isolation — code changes other scopes only by reassignment.

Whatever code does, the frame is the old one again when it ends, and of the scopes that were there before
it changes only bindings that are not constant.  The scope in which the code stands is the one exception,
and only for the names that the code declares there.  These can be read off the code: they are the names
of the declarations and of the function expressions in it, but for those inside the bodies of functions,
classes, blocks and loops, which have scopes of their own.

The proof follows the rules of the evaluator.  Each rule, run in a scope, makes a path of steps from that
scope, given that the evaluators of its parts do; a part that is run in a new scope makes its path there,
and seen from outside that path declares nothing in an old scope.
-/
import ScriptLang.Eval
import ScriptLang.Proofs.Run
import ScriptLang.Proofs.Scope.Path

namespace ScriptLang

/-! ## The names that code declares in the scope it stands in -/

mutual

/-- The names that an expression declares: those of the function expressions in it. -/
def Expr.declared : Expr → List String
  | .identifier _ _ | .number _ _ | .string _ _ | .null _ => []
  | .object _ ps => declaredInProperties ps
  | .array _ es => declaredInExprs es
  | .binary _ left _ right => left.declared ++ right.declared
  | .assign _ target value => target.declared ++ value.declared
  | .member _ object property _ => object.declared ++ property.declared
  | .call _ callee arguments => callee.declared ++ declaredInExprs arguments
  | .function _ d => d.name.toList
  | .instantiate _ target arguments => target.declared ++ declaredInExprs arguments

/-- The names that expressions declare. -/
def declaredInExprs : List Expr → List String
  | [] => []
  | e :: rest => e.declared ++ declaredInExprs rest

/-- The names that an entry of an object literal declares. -/
def Property.declared : Property → List String
  | ⟨_, some e, _⟩ => e.declared
  | ⟨_, none, _⟩ => []

/-- The names that entries of an object literal declare. -/
def declaredInProperties : List Property → List String
  | [] => []
  | p :: rest => p.declared ++ declaredInProperties rest

end

/-- The names that the initial value of a declaration declares. -/
def declaredInValue : Option Expr → List String
  | some e => e.declared
  | none => []

/-- The names that a statement declares in its scope.  Conditions and the start of a counter are in that
scope, blocks and the passes of a loop are not. -/
def Stmt.declared : Stmt → List String
  | .variableDeclaration _ d => d.name :: declaredInValue d.value
  | .functionDeclaration _ d => d.name.toList
  | .classDeclaration _ d => [d.name]
  | .ifBlock _ condition _ | .whileLoop _ condition _ => condition.declared
  | .forLoop _ loop => declaredInValue loop.counter.value
  | .breakLoop _ => []
  | .returnValue _ e | .expression _ e => e.declared

/-- The names that the statements of a block declare in its scope. -/
def declaredInBlock (body : List Stmt) : List String := body.flatMap Stmt.declared

/-! ## Runs that stay on a path -/

namespace Run

variable {α β : Type}

/-- A run in the scope `here` that gives the frame back and makes a path there. -/
def Stays (base : Nat) (here : ScopeId) (names : List String) (x : Run α) : Prop :=
  ∀ m, m.frame.scope = here → base ≤ m.scopes.size →
    (x.after m).frame = m.frame ∧ Scopes.Path base here names m.scopes (x.after m).scopes

namespace Stays

variable {base : Nat} {here : ScopeId} {names : List String}

/-- A run that changes neither the frame nor the scopes. -/
theorem of_eq {x : Run α} (h : ∀ m, (x.after m).frame = m.frame ∧ (x.after m).scopes = m.scopes) :
    Stays base here names x :=
  fun m _ _ => ⟨(h m).1, by rw [(h m).2]⟩

theorem pure (a : α) : Stays base here names (Pure.pure a : Run α) := of_eq fun _ => ⟨rfl, rfl⟩

theorem raise (span : Span) (fault : RuntimeFault) : Stays base here names (Run.raise span fault : Run α) :=
  of_eq fun _ => ⟨rfl, rfl⟩

theorem outOfFuel : Stays base here names (Run.outOfFuel : Run α) := of_eq fun _ => ⟨rfl, rfl⟩

theorem of_ok {x : Run α} (h : Stays base here names x) {m n : Machine} {a : α} (ran : x m = .ok a n)
    (stands : m.frame.scope = here) (hb : base ≤ m.scopes.size) :
    n.frame = m.frame ∧ Scopes.Path base here names m.scopes n.scopes := by
  have stays := h m stands hb
  rwa [Run.after, ran] at stays

theorem mono {names' : List String} {x : Run α} (h : Stays base here names x) (hn : names ⊆ names') :
    Stays base here names' x :=
  fun m hm hb => ⟨(h m hm hb).1, Scopes.Path.mono (h m hm hb).2 hn⟩

theorem bind {x : Run α} {f : α → Run β} (h : Stays base here names x)
    (k : ∀ a, Stays base here names (f a)) : Stays base here names (x >>= f) := by
  intro m hm hb
  have hx := h m hm hb
  have hbind : (x >>= f).after m = Run.after (EStateM.bind x f) m := rfl
  rw [hbind]
  unfold Run.after EStateM.bind at *
  cases hr : x m with
  | error e n => simpa only [hr] using hx
  | ok a n =>
    rw [hr] at hx
    -- the first part gave the frame back, so the second stands where it stood
    have hf := k a n (by rw [hx.1, hm]) (Nat.le_trans hb hx.2.size_le)
    exact ⟨hf.1.trans hx.1, hx.2.trans hf.2⟩

theorem map (f : α → β) {x : Run α} (h : Stays base here names x) : Stays base here names (f <$> x) := by
  intro m hm hb
  have hmap : (f <$> x).after m = x.after m := by
    show Run.after (EStateM.map f x) m = _
    unfold Run.after EStateM.map
    cases x m <;> rfl
  rw [hmap]
  exact h m hm hb

/-- The scope that a run stands in is the one that names are looked up in. -/
theorem bind_here {f : ScopeId → Run β} (k : Stays base here names (f here)) :
    Stays base here names (Run.here >>= f) := by
  intro m hm hb
  subst hm
  exact k m rfl hb

/-- A new scope is younger than the run. -/
theorem bind_newScope (parent : ScopeId) {f : ScopeId → Run β}
    (k : ∀ id, base ≤ id → Stays base here names (f id)) :
    Stays base here names (Run.newScope parent >>= f) := by
  intro m hm hb
  have hsize : base ≤ (m.scopes.push (some parent)).size := by
    rw [Scopes.size_push]
    exact Nat.le_succ_of_le hb
  have hf := k m.scopes.size hb (m.mapScopes (·.push (some parent))) hm hsize
  exact ⟨hf.1, Relation.ReflTransGen.head (.enter m.scopes parent) hf.2⟩

/-- What is run in a frame whose scope is younger than the run stays, whatever it declares there. -/
theorem withFrame {f : Frame} {inner : List String} {x : Run α} (h : Stays base f.scope inner x)
    (hf : base ≤ f.scope) : Stays base here names (Run.withFrame f x) := by
  intro m hm hb
  have hx := h { m with frame := f } rfl hb
  unfold Run.after at hx ⊢
  unfold Run.withFrame
  cases hr : x { m with frame := f } <;> simp only [hr] at hx ⊢ <;> exact ⟨trivial, hx.2.outward hf⟩

theorem within {scope : ScopeId} {inner : List String} {x : Run α} (h : Stays base scope inner x)
    (hs : base ≤ scope) : Stays base here names (Run.within scope x) :=
  (of_eq (x := Run.frame) fun _ => ⟨rfl, rfl⟩).bind fun f => withFrame (f := { f with scope := scope }) h hs

theorem inCall {scope : ScopeId} {inner : List String} {x : Run α} (h : Stays base scope inner x)
    (hs : base ≤ scope) : Stays base here names (Run.inCall scope x) :=
  (of_eq (x := Run.frame) fun _ => ⟨rfl, rfl⟩).bind fun f => withFrame (f := ⟨scope, f.depth + 1⟩) h hs

/-! ### The single operations -/

theorem newStamp : Stays base here names Run.newStamp := of_eq fun _ => ⟨rfl, rfl⟩

theorem settle (span : Span) (x : Except RuntimeFault α) : Stays base here names (Run.settle span x) := by
  cases x <;> exact of_eq fun _ => ⟨rfl, rfl⟩

theorem lookupFrom (scope : ScopeId) (name : String) (span : Span) :
    Stays base here names (Run.lookupFrom scope name span) :=
  fun m => settle span (m.scopes.value scope name) m

theorem lookup (name : String) (span : Span) : Stays base here names (Run.lookup name span) :=
  fun m => lookupFrom m.frame.scope name span m

theorem declareIn {scope : ScopeId} {name : String} (v : Value) (constant strict : Bool) (span : Span)
    (h : base ≤ scope ∨ scope = here ∧ name ∈ names) :
    Stays base here names (Run.declareIn scope name v constant strict span) := by
  intro m hm hb
  unfold Run.after Run.declareIn
  split
  · next hr =>
    split at hr
    · cases hr
    · cases hr
      -- the declaration is made, here or in a scope of the run's own
      refine ⟨rfl, .single ?_⟩
      rcases h with hs | ⟨rfl, hn⟩
      · exact .declareWithin m.scopes hs name v constant
      · exact .declareHere m.scopes hn v constant
  · next hr =>
    split at hr
    · cases hr
      exact ⟨rfl, .refl⟩
    · cases hr

theorem reassign (name : String) (v : Value) (span : Span) :
    Stays base here names (Run.reassign name v span) := by
  intro m hm hb
  unfold Run.after Run.reassign
  cases hw : m.scopes.writable m.frame.scope name with
  | error fault => exact ⟨rfl, .refl⟩
  | ok owner => exact ⟨rfl, .single (.reassign m.scopes hw v)⟩

theorem beginPass {scope : ScopeId} (h : base ≤ scope) : Stays base here names (Run.beginPass scope) :=
  fun m _ _ => ⟨rfl, .single (.beginPass m.scopes h)⟩

theorem emit (e : Event) : Stays base here names (Run.emit e) := of_eq fun _ => ⟨rfl, rfl⟩

theorem answer : Stays base here names Run.answer := by
  refine of_eq fun m => ?_
  unfold Run.after Run.answer
  cases m.host.answer <;> exact ⟨rfl, rfl⟩

theorem file (path : String) : Stays base here names (Run.file path) := by
  refine of_eq fun m => ?_
  unfold Run.after Run.file
  cases m.host.file path <;> exact ⟨rfl, rfl⟩

theorem clock : Stays base here names Run.clock := by
  refine of_eq fun m => ?_
  unfold Run.after Run.clock
  cases m.host.clock <;> exact ⟨rfl, rfl⟩

theorem newArray (vs : List Value) : Stays base here names (Run.newArray vs) :=
  newStamp.bind fun _ => pure _

theorem newObject (ps : Properties) : Stays base here names (Run.newObject ps) :=
  newStamp.bind fun _ => pure _

theorem fromSource (span : Span) {x : Run α} (h : Stays base here names x) :
    Stays base here names (Run.fromSource span x) := by
  intro m hm hb
  have hx := h m hm hb
  unfold Run.after at hx ⊢
  unfold Run.fromSource
  cases hr : x m with
  | ok a n => simpa only [hr] using hx
  | error e n => cases e <;> simpa only [hr] using hx

end Stays

end Run

/-! ## The rules of the evaluator -/

/-- Evaluators whose runs stay, in whatever scope they stand. -/
structure Evaluator.Stays (base : Nat) (parts : Evaluator) : Prop where
  expression : ∀ {here : ScopeId} {names : List String} {e : Expr} (strict : Bool),
    e.declared ⊆ names → (parts.expression e strict).Stays base here names
  block : ∀ {here : ScopeId} {names : List String} {body : List Stmt} (strict : Bool),
    declaredInBlock body ⊆ names → (parts.block body strict).Stays base here names

namespace Eval

open Run

variable {base : Nat} {here : ScopeId} {names : List String}

theorem declareFunction_stays {d : FunctionDeclaration} (hn : d.name.toList ⊆ names) (strict : Bool)
    (span : Span) : (declareFunction d strict span).Stays base here names := by
  unfold declareFunction
  refine .bind_here (Stays.newStamp.bind fun stamp => ?_)
  cases hd : d.name with
  | none => exact .pure _
  | some name =>
    have hmem : name ∈ names := hn (by simp [hd])
    exact .declareIn _ _ _ _ (.inr ⟨rfl, hmem⟩)

theorem ancestors_stays (d : ClassDeclaration) (span : Span) :
    (ancestors d span).Stays base here names := by
  unfold ancestors
  split
  · exact .pure _
  · refine (Stays.lookup _ span).bind fun v => ?_
    split
    · exact .pure _
    · exact .raise span _

theorem declareClass_stays {d : ClassDeclaration} (hn : [d.name] ⊆ names) (strict : Bool) (span : Span) :
    (declareClass d strict span).Stays base here names := by
  unfold declareClass
  refine (ancestors_stays d span).bind fun above => .bind_here (Stays.newStamp.bind fun stamp => ?_)
  exact .declareIn _ _ _ _ (.inr ⟨rfl, hn (List.mem_singleton_self _)⟩)

theorem bindParameters_stays {scope : ScopeId} (hs : base ≤ scope) (strict : Bool) (span : Span)
    (ps : List (String × Value)) : (bindParameters scope strict span ps).Stays base here names := by
  induction ps with
  | nil => exact .pure _
  | cons p rest ih => exact (Stays.declareIn _ _ _ _ (.inl hs)).bind fun _ => ih

theorem readNames_stays (scope : ScopeId) (span : Span) (ns : List String) (done : Properties) :
    (readNames scope span ns done).Stays base here names := by
  induction ns generalizing done with
  | nil => exact .pure _
  | cons name rest ih => exact (Stays.lookupFrom _ _ _).bind fun v => ih _

theorem exported_stays : exported.Stays base here names := by
  refine .of_eq fun m => ?_
  unfold Run.after exported
  cases m.scopes.value m.frame.scope Builtin.resultObject with
  | error fault => exact ⟨rfl, rfl⟩
  | ok v => cases v <;> exact ⟨rfl, rfl⟩

theorem print_stays (args : List Value) : (Builtin.print args).Stays base here names := by
  induction args with
  | nil => exact .pure _
  | cons v rest ih => exact (Stays.emit _).bind fun _ => ih

theorem readFile_stays (native : Native) (args : List Value) (span : Span) :
    (Builtin.readFile native args span).Stays base here names := by
  unfold Builtin.readFile
  refine (Stays.settle span _).bind fun path => (Stays.file path).bind fun outcome => ?_
  cases outcome with
  | ok text => exact .pure _
  | error reason => exact .raise span _

theorem prompt_stays (args : List Value) (span : Span) :
    (Builtin.prompt args span).Stays base here names := by
  unfold Builtin.prompt
  refine (Stays.settle span _).bind fun message => (Stays.emit _).bind fun _ => ?_
  refine Stays.answer.bind fun line => ?_
  cases line <;> exact .pure _

theorem leaveLoop_stays (v : Value) (span : Span) : (leaveLoop v span).Stays base here names := by
  unfold leaveLoop
  refine (Stays.of_eq (x := Run.frame) fun _ => ⟨rfl, rfl⟩).bind fun f => ?_
  split
  · exact .pure _
  · exact .raise span _

variable {self : Evaluator} (h : self.Stays base)

include h

/-! ### Statements -/

theorem initialValue_stays {value : Option Expr} (hn : declaredInValue value ⊆ names) (strict : Bool) :
    (initialValue self value strict).Stays base here names := by
  cases value with
  | none => exact .pure _
  | some e => exact h.expression strict hn

theorem declareVariable_stays {d : VariableDeclaration} (hn : d.name :: declaredInValue d.value ⊆ names)
    (strict : Bool) (span : Span) : (declareVariable self d strict span).Stays base here names := by
  unfold declareVariable
  rw [List.cons_subset] at hn
  refine (initialValue_stays h hn.2 strict).bind fun v => .bind_here ?_
  exact .declareIn _ _ _ _ (.inr ⟨rfl, hn.1⟩)

theorem holds_stays {condition : Expr} (hn : condition.declared ⊆ names) (strict : Bool) :
    (holds self condition strict).Stays base here names :=
  (h.expression strict hn).bind fun _ => .pure _

theorem ifBlock_stays {condition : Expr} (hn : condition.declared ⊆ names) (body : List Stmt)
    (strict : Bool) : (ifBlock self condition body strict).Stays base here names := by
  unfold ifBlock
  refine (holds_stays h hn strict).bind fun b => ?_
  cases b with
  | false => exact .pure _
  | true =>
    refine .bind_here (.bind_newScope _ fun scope hs => ?_)
    refine (Stays.within (h.block strict (List.Subset.refl (declaredInBlock body))) hs).bind fun flow => ?_
    cases flow <;> exact .pure _

/-- The passes of a `while` loop stand in the scope of the loop, and what they declare is declared there. -/
theorem whilePasses_stays {scope : ScopeId} (hs : base ≤ scope) {condition : Expr} {body : List Stmt}
    (hc : condition.declared ⊆ names) (hb : declaredInBlock body ⊆ names) (strict : Bool) (n : Nat) :
    (whilePasses self scope condition body strict n).Stays base here names := by
  induction n with
  | zero => exact .outOfFuel
  | succ n ih =>
    unfold whilePasses
    refine (h.block strict hb).bind fun flow => ?_
    cases flow with
    | leave | give v => exact .pure _
    | value v =>
      refine (Stays.beginPass hs).bind fun _ => (holds_stays h hc strict).bind fun b => ?_
      cases b with
      | false => exact .pure _
      | true => exact ih

theorem whileLoop_stays {condition : Expr} (hn : condition.declared ⊆ names) (body : List Stmt)
    (strict : Bool) (span : Span) :
    (whileLoop self condition body strict span).Stays base here names := by
  unfold whileLoop
  refine (holds_stays h hn strict).bind fun b => ?_
  cases b with
  | false => exact .pure _
  | true =>
    refine .bind_here (.bind_newScope _ fun scope hs => ?_)
    have hp : (whilePasses self scope condition body strict self.bound).Stays base scope
        (condition.declared ++ declaredInBlock body) :=
      whilePasses_stays h hs (List.subset_append_left _ _) (List.subset_append_right _ _) strict _
    refine (Stays.within hp hs).bind fun flow => ?_
    cases flow with
    | give v => exact leaveLoop_stays v span
    | value v | leave => exact .pure _

theorem startNumber_stays {value : Option Expr} (hn : declaredInValue value ⊆ names) (strict : Bool) :
    (startNumber self value strict).Stays base here names := by
  cases value with
  | none => exact .pure _
  | some e =>
    refine (h.expression strict hn).bind fun v => ?_
    split
    · exact .pure _
    · exact .raise _ _

theorem stepCounter_stays (loop : ForLoop) {scope : ScopeId} (hs : base ≤ scope) (counter : Float)
    (strict : Bool) : (stepCounter self loop scope counter strict).Stays base here names := by
  unfold stepCounter
  refine (Stays.declareIn _ _ _ _ (.inl hs)).bind fun _ => ?_
  refine (Stays.within (h.expression strict (List.Subset.refl _)) hs).bind fun v => ?_
  split
  · exact .pure _
  · exact .raise _ _

theorem forPass_stays (loop : ForLoop) (hc : loop.condition.declared ⊆ names)
    (hb : declaredInBlock loop.body ⊆ names) (strict : Bool) :
    (forPass self loop strict).Stays base here names := by
  unfold forPass
  refine (holds_stays h hc strict).bind fun b => ?_
  cases b with
  | false => exact .pure _
  | true => exact h.block strict hb

theorem forPasses_stays (loop : ForLoop) (strict : Bool) (span : Span) (n : Nat) (counter : Float) :
    (forPasses self loop strict span n counter).Stays base here names := by
  induction n generalizing counter with
  | zero => exact .outOfFuel
  | succ n ih =>
    unfold forPasses
    -- each pass has a scope of its own, and the counter is declared in it
    refine .bind_here (.bind_newScope _ fun scope hs => ?_)
    refine (Stays.declareIn _ _ _ _ (.inl hs)).bind fun _ => ?_
    have hp : (forPass self loop strict).Stays base scope
        (loop.condition.declared ++ declaredInBlock loop.body) :=
      forPass_stays h loop (List.subset_append_left _ _) (List.subset_append_right _ _) strict
    refine (Stays.within hp hs).bind fun flow => ?_
    cases flow with
    | leave => exact .pure _
    | give v => exact leaveLoop_stays v span
    | value v => exact (stepCounter_stays h loop hs counter strict).bind fun next => ih next

theorem forLoop_stays {loop : ForLoop} (hn : declaredInValue loop.counter.value ⊆ names) (strict : Bool)
    (span : Span) : (forLoop self loop strict span).Stays base here names :=
  (startNumber_stays h hn strict).bind fun start => forPasses_stays h loop strict span self.bound start

theorem statement_stays {s : Stmt} (hn : s.declared ⊆ names) (strict : Bool) :
    (statement self s strict).Stays base here names := by
  cases s with
  | variableDeclaration span d => exact (declareVariable_stays h hn strict span).map _
  | functionDeclaration span d => exact (declareFunction_stays hn strict span).map _
  | classDeclaration span d => exact (declareClass_stays hn strict span).map _
  | ifBlock span condition body => exact ifBlock_stays h hn body strict
  | whileLoop span condition body => exact whileLoop_stays h hn body strict span
  | forLoop span loop => exact forLoop_stays h hn strict span
  | breakLoop span => exact .pure _
  | returnValue span e => exact (h.expression strict hn).map _
  | expression span e => exact (h.expression strict hn).map _

theorem block_stays {body : List Stmt} (hn : declaredInBlock body ⊆ names) (strict : Bool) :
    (block self body strict).Stays base here names := by
  induction body generalizing strict with
  | nil => exact .pure _
  | cons s rest ih =>
    rw [declaredInBlock, List.flatMap_cons, List.append_subset] at hn
    unfold block
    cases strictDirective? s with
    | some mode => exact ih hn.2 mode
    | none =>
      refine (statement_stays h hn.1 strict).bind fun flow => ?_
      cases flow with
      | value v => exact ih hn.2 strict
      | leave | give v => exact .pure _

theorem programFrom_stays {p : Program} (hn : declaredInBlock p ⊆ names) (strict : Bool) (last : Value) :
    (programFrom self p strict last).Stays base here names := by
  induction p generalizing strict last with
  | nil => exact .pure _
  | cons s rest ih =>
    rw [declaredInBlock, List.flatMap_cons, List.append_subset] at hn
    unfold programFrom
    split
    · exact ih hn.2 _ last
    · split
      · exact .raise _ _
      · exact .raise _ _
      · refine (statement_stays h hn.1 strict).bind fun flow => ?_
        cases flow with
        | value v => exact ih hn.2 strict v
        | leave | give v => exact .raise _ _

theorem program_stays {p : Program} (hn : declaredInBlock p ⊆ names) :
    (program self p).Stays base here names := by
  unfold program
  refine (programFrom_stays h hn false .null).bind fun last => exported_stays.bind fun result => ?_
  cases result <;> exact .pure _

/-! ### Expressions -/

theorem expressions_stays {es : List Expr} (hn : declaredInExprs es ⊆ names) (strict : Bool) :
    (expressions self es strict).Stays base here names := by
  induction es with
  | nil => exact .pure _
  | cons e rest ih =>
    rw [declaredInExprs, List.append_subset] at hn
    exact (h.expression strict hn.1).bind fun v => (ih hn.2).bind fun vs => .pure _

theorem properties_stays {ps : List Property} (hn : declaredInProperties ps ⊆ names) (strict : Bool)
    (done : Properties) : (properties self ps strict done).Stays base here names := by
  induction ps generalizing done with
  | nil => exact .pure _
  | cons p rest ih =>
    rw [declaredInProperties, List.append_subset] at hn
    obtain ⟨key, value, span⟩ := p
    cases value with
    | some e => exact (h.expression strict hn.1).bind fun v => ih hn.2 _
    | none => exact (Stays.lookup _ _).bind fun v => ih hn.2 _

theorem propertyKey_stays {property : Expr} (hn : property.declared ⊆ names) (computed strict : Bool) :
    (propertyKey self property computed strict).Stays base here names := by
  unfold propertyKey
  split
  · exact .pure _
  · refine (h.expression strict hn).bind fun v => ?_
    split
    · exact .pure _
    · exact .raise _ _

theorem elementPlace_stays {index : Expr} (hn : index.declared ⊆ names) (length : Nat) (strict : Bool)
    (span : Span) : (elementPlace self index length strict span).Stays base here names :=
  (h.expression strict hn).bind fun _ => .settle span _

theorem memberValue_stays (container : Value) {property : Expr} (hn : property.declared ⊆ names)
    (computed strict : Bool) (span : Span) :
    (memberValue self container property computed strict span).Stays base here names := by
  unfold memberValue
  split
  · refine (propertyKey_stays h hn computed strict).bind fun key => ?_
    split
    · exact .pure _
    · exact .raise _ _
  · split
    · exact (elementPlace_stays h hn _ strict span).bind fun place => .pure _
    · exact .raise _ _
  · exact .raise _ _

theorem withMember_stays (container : Value) {property : Expr} (hn : property.declared ⊆ names)
    (computed : Bool) (value : Value) (strict : Bool) (span : Span) :
    (withMember self container property computed value strict span).Stays base here names := by
  unfold withMember
  split
  · refine (propertyKey_stays h hn computed strict).bind fun key => ?_
    split
    · exact .raise _ _
    · exact .newObject _
  · split
    · refine (elementPlace_stays h hn _ strict span).bind fun place => ?_
      split
      · exact .newArray _
      · exact .raise _ _
    · exact .raise _ _
  · exact .raise _ _

theorem assign_stays {target value : Expr} (ht : target.declared ⊆ names) (hv : value.declared ⊆ names)
    (strict : Bool) (span : Span) : (assign self target value strict span).Stays base here names := by
  unfold assign
  split
  · exact (h.expression strict hv).bind fun v => .reassign _ v span
  · rw [Expr.declared, List.append_subset] at ht
    refine (Stays.lookup _ _).bind fun container => (h.expression strict hv).bind fun v => ?_
    refine (withMember_stays h container ht.2 _ v strict span).bind fun updated => ?_
    exact (Stays.reassign _ updated span).bind fun _ => .pure _
  · exact .raise _ _
  · exact .raise _ _

/-! ### Calls and instances -/

theorem callFunction_stays (f : Function) (args : List Value) (strict : Bool) (span : Span) :
    (callFunction self f args strict span).Stays base here names := by
  unfold callFunction
  dsimp only
  split
  · exact .raise _ _
  · -- parameters and body share the scope of the call
    refine .bind_newScope _ fun scope hs => (bindParameters_stays hs strict span _).bind fun _ => ?_
    have hb : (self.block f.declaration.body strict).Stays base scope
        (declaredInBlock f.declaration.body) := h.block strict (List.Subset.refl _)
    refine (Stays.inCall hb hs).bind fun flow => ?_
    cases flow <;> exact .pure _

theorem runSource_stays (source : String) (span : Span) :
    (runSource self source span).Stays base here names := by
  unfold runSource
  split
  · exact .raise _ _
  · next p hp =>
    refine .bind_here (.bind_newScope _ fun scope hs => ?_)
    have hb : (program self p).Stays base scope (declaredInBlock p) :=
      program_stays h (List.Subset.refl _)
    exact (Stays.withFrame (f := ⟨scope, 0⟩) hb hs).fromSource span

theorem callNative_stays (native : Native) (args : List Value) (span : Span) :
    (callNative self native args span).Stays base here names := by
  cases native with
  | print => exact (print_stays args).bind fun _ => .pure _
  | time => exact Stays.clock.map _
  | readFile => exact (readFile_stays _ args span).map _
  | evalFile => exact (readFile_stays _ args span).bind fun source => runSource_stays h source span
  | evaluate => exact (Stays.settle span _).bind fun source => runSource_stays h source span
  | prompt => exact prompt_stays args span
  | objectHas => exact (Stays.settle span _).map _
  | objectAllHas => exact (Stays.settle span _).map _
  | objectKeys => exact (Stays.settle span _).bind fun ps => .newArray _
  | objectValues => exact (Stays.settle span _).bind fun ps => .newArray _
  | hosted name => exact .pure _

theorem call_stays (callee : Value) (args : List Value) (strict : Bool) (span : Span) :
    (call self callee args strict span).Stays base here names := by
  cases callee with
  | native stamp native => exact callNative_stays h native args span
  | function f => exact callFunction_stays h f args strict span
  | _ => exact .raise _ _

theorem layMember_stays {scope : ScopeId} (hs : base ≤ scope) (strict : Bool) (span : Span)
    (a : Assembly) (member : Member) :
    (layMember self scope strict span a member).Stays base here names := by
  cases member with
  | property visibility d =>
    have declared : ∀ v, Stays base here names (Run.declareIn scope d.name v d.constant false span) :=
      fun v => .declareIn v _ _ _ (.inl hs)
    unfold layMember
    dsimp only
    cases d.value with
    | none => exact (Stays.pure Value.null).bind fun v => (declared v).bind fun _ => .pure _
    | some e =>
      refine (Stays.within (h.expression strict (List.Subset.refl e.declared)) hs).bind fun v => ?_
      exact (declared v).bind fun _ => .pure _
  | method visibility d =>
    unfold layMember
    refine Stays.newStamp.bind fun stamp => ?_
    dsimp only
    split
    · exact .pure _
    · exact (Stays.declareIn _ _ _ _ (.inl hs)).bind fun _ => .pure _

theorem layMembers_stays {scope : ScopeId} (hs : base ≤ scope) (strict : Bool) (span : Span)
    (members : List Member) (a : Assembly) :
    (layMembers self scope strict span members a).Stays base here names := by
  induction members generalizing a with
  | nil => exact .pure _
  | cons m rest ih => exact (layMember_stays h hs strict span a m).bind fun a => ih a

theorem construct_stays (constructor : Option Function) (args : List Value) (strict : Bool)
    (span : Span) : (construct self constructor args strict span).Stays base here names := by
  cases constructor with
  | none => exact .pure _
  | some f => exact (callFunction_stays h f args strict span).bind fun _ => .pure _

theorem instantiate_stays (c : Class) (args : List Value) (strict : Bool) (span : Span) :
    (instantiate self c args strict span).Stays base here names := by
  unfold instantiate
  refine .bind_newScope _ fun scope hs => (layMembers_stays h hs strict span _ _).bind fun a => ?_
  refine (construct_stays h a.constructor args strict span).bind fun _ => ?_
  exact (readNames_stays scope span a.visible []).bind fun ps => .newObject ps

theorem expression_stays {e : Expr} (hn : e.declared ⊆ names) (strict : Bool) :
    (expression self e strict).Stays base here names := by
  cases e with
  | identifier span name => exact .lookup name span
  | number | string | null => exact .pure _
  | object span ps =>
    rw [Expr.declared] at hn
    exact (properties_stays h hn strict []).bind fun ps => .newObject ps
  | array span es =>
    rw [Expr.declared] at hn
    exact (expressions_stays h hn strict).bind fun vs => .newArray vs
  | binary span left operator right =>
    rw [Expr.declared, List.append_subset] at hn
    exact (h.expression strict hn.1).bind fun v => (h.expression strict hn.2).bind fun w =>
      .settle span _
  | assign span target value =>
    rw [Expr.declared, List.append_subset] at hn
    exact assign_stays h hn.1 hn.2 strict span
  | member span object property computed =>
    rw [Expr.declared, List.append_subset] at hn
    exact (h.expression strict hn.1).bind fun v => memberValue_stays h v hn.2 computed strict span
  | call span callee arguments =>
    rw [Expr.declared, List.append_subset] at hn
    -- the arguments come before the callee
    exact (expressions_stays h hn.2 strict).bind fun args => (h.expression strict hn.1).bind fun f =>
      call_stays h f args strict span
  | function span d =>
    rw [Expr.declared] at hn
    exact declareFunction_stays hn strict span
  | instantiate span target arguments =>
    rw [Expr.declared, List.append_subset] at hn
    refine (expressions_stays h hn.2 strict).bind fun args => (h.expression strict hn.1).bind fun v => ?_
    cases v with
    | classValue c => exact instantiate_stays h c args strict span
    | _ => exact .raise _ _

end Eval

/-! ## Whole runs -/

/-- Evaluators with a bound stay, by induction on the bound. -/
theorem Evaluator.bounded_stays (base n : Nat) : (Evaluator.bounded n).Stays base := by
  induction n with
  | zero => exact ⟨fun _ _ => .outOfFuel, fun _ _ => .outOfFuel⟩
  | succ n ih =>
    exact ⟨fun strict hn => Eval.expression_stays ih hn strict,
      fun strict hn => Eval.block_stays ih hn strict⟩

/-- What code that declares `names` where it stands does to a machine.  The frame is the same after it.
Of the scopes that were there, each but the present one keeps its parent, its names, which of them are
constant, and the values of the constants.  The present scope keeps all this but for `names`, it loses no
name, and a constant of it changes its value only by a declaration that is made there. -/
structure Machine.Isolates (names : List String) (before after : Machine) : Prop where
  frame : after.frame = before.frame
  others : ∀ id, id < before.scopes.size → id ≠ before.frame.scope →
    Scopes.Keeps [] before.scopes after.scopes id
  present : before.frame.scope < before.scopes.size →
    Scopes.Keeps names before.scopes after.scopes before.frame.scope
  redeclares : before.frame.scope < before.scopes.size → ∀ x,
    before.scopes.isConstant before.frame.scope x →
    after.scopes.ownValue? before.frame.scope x ≠ before.scopes.ownValue? before.frame.scope x →
    ∃ (mid : Scopes) (v : Value) (constant : Bool),
      Scopes.Path before.scopes.size before.frame.scope names before.scopes mid ∧
      Scopes.Path before.scopes.size before.frame.scope names
        (mid.bind before.frame.scope x v constant) after.scopes

theorem Run.Stays.isolates {α : Type} {names : List String} {x : Run α} {m : Machine}
    (h : x.Stays m.scopes.size m.frame.scope names) : m.Isolates names (x.after m) := by
  obtain ⟨hf, hp⟩ := h m rfl (Nat.le_refl _)
  refine ⟨hf, fun id hid => (hp.keeps (Nat.le_refl _) hid).2, fun hid => (hp.keeps (Nat.le_refl _) hid).1,
    fun hid x hc hv => hp.redeclares (Nat.le_refl _) hid hc hv⟩

/-- A run takes no name away. -/
theorem Run.Stays.keeps_own {α : Type} {names : List String} {x : Run α} {m k : Machine} {a : α}
    (h : x.Stays m.scopes.size m.frame.scope names) (ran : x m = .ok a k) {id : ScopeId} {name : String}
    (own : m.scopes.hasOwn id name) : k.scopes.hasOwn id name := by
  obtain ⟨-, path⟩ := h.of_ok ran rfl (Nat.le_refl _)
  exact (path.keeps (Nat.le_refl _) (Scopes.lt_size_of_hasOwn own)).1.grows name own

/-- From every machine, in either mode and for any bound on steps, and however they end: an expression, a
statement and a block change nothing of the scopes that were there but variables, and what they declare
in the present scope; a call and an instantiation change nothing but variables even there. -/
theorem code_isolates (n : Nat) (m : Machine) (strict : Bool) :
    (∀ e, m.Isolates e.declared (Run.after (evalExpression n e strict) m)) ∧
    (∀ s, m.Isolates s.declared (Run.after (Eval.statement (.bounded n) s strict) m)) ∧
    (∀ body, m.Isolates (declaredInBlock body) (Run.after (evalBlock n body strict) m)) ∧
    (∀ callee args span, m.Isolates [] (Run.after (Eval.call (.bounded n) callee args strict span) m)) ∧
    (∀ c args span, m.Isolates [] (Run.after (Eval.instantiate (.bounded n) c args strict span) m)) := by
  have h := Evaluator.bounded_stays m.scopes.size n
  refine ⟨fun e => ?_, fun s => ?_, fun body => ?_, fun callee args span => ?_, fun c args span => ?_⟩
  · exact (h.expression strict (List.Subset.refl _)).isolates
  · exact (Eval.statement_stays h (List.Subset.refl _) strict).isolates
  · exact (h.block strict (List.Subset.refl _)).isolates
  · exact (Eval.call_stays h callee args strict span).isolates
  · exact (Eval.instantiate_stays h c args strict span).isolates

end ScriptLang
