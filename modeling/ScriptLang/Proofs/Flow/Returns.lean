/-
# ScriptLang.Proofs.Flow.Returns — the `return` that a body comes to.

A body comes to a `return` when all before it ended with values: the statements before it, the conditions
that lead into the blocks around it, and the earlier passes of the loops around it.  What happens then is the
evaluation of its value and nothing else.  Inside a call the body ends with what that evaluation comes to,
on the machine that it leaves, and so does the call; and a body that ends with a `return` has come to one.
-/
import ScriptLang.Proofs.Flow.Rules

namespace ScriptLang

/-! ## Frames given back -/

namespace Run

variable {α β : Type}

/-- A run that is not stopped gives the frame back and ends as it may. -/
theorem Orderly.of_ok {ends : α → Prop} {slips : Prop} {x : Run α} {m n : Machine} {a : α}
    (h : x.Orderly m.frame.depth ends slips) (ok : x m = .ok a n) : n.frame = m.frame ∧ ends a := by
  have outcome := h m rfl
  rw [ok] at outcome
  cases outcome with
  | ok frame ended => exact ⟨frame, ended⟩

theorem Orderly.frame_of_value {x : Run α} {m n : Machine} {a : α}
    (h : x.Orderly m.frame.depth (fun _ => True) True) (ok : x m = .ok a n) : n.frame = m.frame :=
  (h.of_ok ok).1

end Run

/-! ## Courses -/

/-- What is run between the beginning of a body and a `return` in it: a block, or the passes of a loop that
are left. -/
inductive Course where
  | block (body : List Stmt)
  | whilePasses (scope : ScopeId) (condition : Expr) (body : List Stmt) (passes : Nat)
  | forPasses (loop : ForLoop) (span : Span) (passes : Nat) (counter : Float)

/-- The run of a course, its parts in steps bounded by `n`. -/
def Course.run (n : Nat) (strict : Bool) : Course → Run Flow
  | .block body => Eval.block (.bounded n) body strict
  | .whilePasses scope condition body k => Eval.whilePasses (.bounded n) scope condition body strict k
  | .forPasses loop span k counter => Eval.forPasses (.bounded n) loop strict span k counter

namespace Machine

/-- The machine inside a new scope. -/
def entered (m : Machine) : Machine :=
  { m with scopes := m.scopes.push (some m.frame.scope), frame := ⟨m.scopes.size, m.frame.depth⟩ }

/-- The machine with the scope of a new pass of a counter loop. -/
def withPass (m : Machine) (loop : ForLoop) (counter : Float) : Machine :=
  (m.mapScopes (·.push (some m.frame.scope))).mapScopes
    (·.bind m.scopes.size loop.counter.name (.number counter) loop.counter.constant)

/-- The machine inside the scope of a new pass of a counter loop. -/
def inPass (m : Machine) (loop : ForLoop) (counter : Float) : Machine :=
  { m.withPass loop counter with frame := ⟨m.scopes.size, m.frame.depth⟩ }

end Machine

/-- A `return` whose value is about to be evaluated: the bound on the steps of that, the value, the strict
mode, and the machine. -/
structure Return where
  bound : Nat
  value : Expr
  strict : Bool
  machine : Machine

/-- What comes of the value of a `return`, given as `give` says and in the frame `f`. -/
def Return.outcome {α : Type} (r : Return) (give : Value → α) (f : Frame) : EStateM.Result Halt Machine α :=
  match evalExpression r.bound r.value r.strict r.machine with
  | .ok v k => .ok (give v) { k with frame := f }
  | .error halt k => .error halt { k with frame := f }

@[simp] theorem Return.giveBack_outcome {α : Type} (r : Return) (give : Value → α) (f g : Frame) :
    Run.giveBack f (r.outcome give g) = r.outcome give f := by
  unfold outcome
  cases evalExpression r.bound r.value r.strict r.machine <;> rfl

/-- The run of a course from a machine comes to the `return` before it leaves its last block. -/
inductive Reaches : Nat → Bool → Course → Machine → Return → Prop
  | here {n : Nat} {strict : Bool} {span : Span} {e : Expr} {rest : List Stmt} {m : Machine} :
    Reaches n strict (.block (.returnValue span e :: rest)) m ⟨n, e, strict, m⟩
  | directive {n : Nat} {strict mode : Bool} {s : Stmt} {rest : List Stmt} {m : Machine} {r : Return} :
    Eval.strictDirective? s = some mode → Reaches n mode (.block rest) m r →
    Reaches n strict (.block (s :: rest)) m r
  | later {n : Nat} {strict : Bool} {s : Stmt} {rest : List Stmt} {m k : Machine} {v : Value} {r : Return} :
    Eval.strictDirective? s = none → Eval.statement (.bounded n) s strict m = .ok (.value v) k →
    Reaches n strict (.block rest) k r → Reaches n strict (.block (s :: rest)) m r
  | inIf {n : Nat} {strict : Bool} {span : Span} {condition : Expr} {body rest : List Stmt} {m k : Machine}
    {r : Return} :
    Eval.holds (.bounded (n + 1)) condition strict m = .ok true k →
    Reaches n strict (.block body) k.entered r →
    Reaches (n + 1) strict (.block (.ifBlock span condition body :: rest)) m r
  | inWhile {n : Nat} {strict : Bool} {span : Span} {condition : Expr} {body rest : List Stmt}
    {m k : Machine} {r : Return} :
    Eval.holds (.bounded n) condition strict m = .ok true k →
    Reaches n strict (.whilePasses k.scopes.size condition body n) k.entered r →
    Reaches n strict (.block (.whileLoop span condition body :: rest)) m r
  | inFor {n : Nat} {strict : Bool} {span : Span} {loop : ForLoop} {rest : List Stmt} {m k : Machine}
    {start : Float} {r : Return} :
    Eval.startNumber (.bounded n) loop.counter.value strict m = .ok start k →
    Reaches n strict (.forPasses loop span n start) k r →
    Reaches n strict (.block (.forLoop span loop :: rest)) m r
  | whileBody {n passes : Nat} {strict : Bool} {scope : ScopeId} {condition : Expr} {body : List Stmt}
    {m : Machine} {r : Return} :
    Reaches n strict (.block body) m r →
    Reaches (n + 1) strict (.whilePasses scope condition body (passes + 1)) m r
  | whileNext {n passes : Nat} {strict : Bool} {scope : ScopeId} {condition : Expr} {body : List Stmt}
    {m k l : Machine} {v : Value} {r : Return} :
    evalBlock n body strict m = .ok (.value v) k →
    Eval.holds (.bounded n) condition strict (k.mapScopes (·.beginPass scope)) = .ok true l →
    Reaches n strict (.whilePasses scope condition body passes) l r →
    Reaches n strict (.whilePasses scope condition body (passes + 1)) m r
  | forBody {n passes : Nat} {strict : Bool} {loop : ForLoop} {span : Span} {counter : Float}
    {m k : Machine} {r : Return} :
    Eval.holds (.bounded (n + 1)) loop.condition strict (m.inPass loop counter) = .ok true k →
    Reaches n strict (.block loop.body) k r →
    Reaches (n + 1) strict (.forPasses loop span (passes + 1) counter) m r
  | forNext {n passes : Nat} {strict : Bool} {loop : ForLoop} {span : Span} {counter next : Float}
    {m k l : Machine} {v : Value} {r : Return} :
    Eval.forPass (.bounded n) loop strict (m.inPass loop counter) = .ok (.value v) k →
    Eval.stepCounter (.bounded n) loop m.scopes.size counter strict { k with frame := m.frame } = .ok next l →
    Reaches n strict (.forPasses loop span passes next) l r →
    Reaches n strict (.forPasses loop span (passes + 1) counter) m r

namespace Eval

open Run

variable {n : Nat} {strict : Bool} {m k : Machine} {r : Return} {f : Frame}

/-! ## From a `return` outward -/

/-- What follows a `return` passes on what comes of it. -/
theorem bind_outcome {α : Type} {give : Value → α} {x : Run Flow} {g : Flow → Run α}
    (h : x m = r.outcome .give f) (passes : ∀ v k, k.frame = f → g (.give v) k = .ok (give v) k) :
    (x >>= g) m = r.outcome give f := by
  rw [bind_run, h]
  unfold Return.outcome
  cases evalExpression r.bound r.value r.strict r.machine with
  | error halt k => rfl
  | ok v k => exact passes v { k with frame := f } rfl

/-- A `return` gives back the frame in which it stands. -/
theorem statement_returnValue (span : Span) (e : Expr) :
    statement (.bounded n) (.returnValue span e) strict m =
      Return.outcome ⟨n, e, strict, m⟩ .give m.frame := by
  have outcome : Concluded m.frame (fun _ => True) True (evalExpression n e strict m) :=
    (Evaluator.bounded_orderly n).expression e strict m rfl
  show (Flow.give <$> (Evaluator.bounded n).expression e strict) m = _
  rw [map_run]
  unfold Return.outcome
  dsimp only [Evaluator.bounded]
  generalize evalExpression n e strict m = x at outcome ⊢
  cases outcome with
  | ok frame | error frame =>
    rw [← frame]

/-- A statement that comes to a `return` ends its block. -/
theorem block_of_outcome {s : Stmt} {rest : List Stmt} (directive : strictDirective? s = none)
    (h : statement (.bounded n) s strict m = r.outcome .give f) :
    block (.bounded n) (s :: rest) strict m = r.outcome .give f := by
  unfold block
  rw [directive]
  exact bind_outcome h fun v k _ => rfl

/-- Behind a statement that ends with a value a block goes on with what follows it. -/
theorem block_next {s : Stmt} {rest : List Stmt} {v : Value} (directive : strictDirective? s = none)
    (ran : statement (.bounded n) s strict m = .ok (.value v) k) :
    block (.bounded n) (s :: rest) strict m = block (.bounded n) rest strict k := by
  rw [block, directive]
  exact bind_of_ok ran

/-- Inside a call a loop lets a `return` pass. -/
theorem leaveLoop_inside {v : Value} {span : Span} (inside : 0 < m.frame.depth) :
    leaveLoop v span m = .ok (.give v) m := by
  show (if 0 < m.frame.depth then pure (.give v) else raise span (.flow .returnInLoop) : Run Flow) m = _
  rw [if_pos inside]
  rfl

/-- A run in a new scope, from the machine inside it. -/
theorem within_outcome {x : Run Flow} (h : x m.entered = r.outcome .give f) :
    within m.scopes.size x (m.mapScopes (·.push (some m.frame.scope))) = r.outcome .give m.frame := by
  rw [within_run]
  show giveBack m.frame (x m.entered) = _
  rw [h, Return.giveBack_outcome]

theorem ifBlock_of_outcome {condition : Expr} {body : List Stmt}
    (holds : holds (.bounded n) condition strict m = .ok true k)
    (ran : (Evaluator.bounded n).block body strict k.entered = r.outcome .give f) :
    ifBlock (.bounded n) condition body strict m = r.outcome .give k.frame := by
  unfold ifBlock
  rw [bind_of_ok holds]
  exact bind_outcome (within_outcome ran) fun v k _ => rfl

theorem whileLoop_of_outcome {condition : Expr} {body : List Stmt} {span : Span} (inside : 0 < k.frame.depth)
    (holds : holds (.bounded n) condition strict m = .ok true k)
    (ran : whilePasses (.bounded n) k.scopes.size condition body strict n k.entered = r.outcome .give f) :
    whileLoop (.bounded n) condition body strict span m = r.outcome .give k.frame := by
  unfold whileLoop
  rw [bind_of_ok holds]
  refine bind_outcome (within_outcome ran) fun v l frame => leaveLoop_inside ?_
  rwa [frame]

/-- Behind a pass that ends with a value a loop goes on with the passes that are left, while its condition
holds. -/
theorem whilePasses_next {scope : ScopeId} {condition : Expr} {body : List Stmt} {passes : Nat} {v : Value}
    {l : Machine} (ran : (Evaluator.bounded n).block body strict m = .ok (.value v) k)
    (holds : holds (.bounded n) condition strict (k.mapScopes (·.beginPass scope)) = .ok true l) :
    whilePasses (.bounded n) scope condition body strict (passes + 1) m =
      whilePasses (.bounded n) scope condition body strict passes l := by
  rw [whilePasses, bind_of_ok ran]
  show (Eval.holds _ condition strict >>= _) (k.mapScopes (·.beginPass scope)) = _
  rw [bind_of_ok holds]
  rfl

/-- How a counter loop goes on after a pass. -/
def afterPass (self : Evaluator) (loop : ForLoop) (strict : Bool) (span : Span) (passes : Nat)
    (scope : ScopeId) (counter : Float) : Flow → Run Flow
  | .leave => return .value .null
  | .give v => leaveLoop v span
  | .value _ => do
    let next ← stepCounter self loop scope counter strict
    forPasses self loop strict span passes next

theorem forPasses_succ (self : Evaluator) (loop : ForLoop) (strict : Bool) (span : Span) (passes : Nat)
    (counter : Float) (m : Machine) :
    forPasses self loop strict span (passes + 1) counter m =
      (within m.scopes.size (forPass self loop strict) >>=
        afterPass self loop strict span passes m.scopes.size counter) (m.withPass loop counter) := by
  show (declareIn m.scopes.size loop.counter.name (.number counter) loop.counter.constant false span >>=
    fun _ => within m.scopes.size (forPass self loop strict) >>=
      afterPass self loop strict span passes m.scopes.size counter) (m.mapScopes (·.push (some m.frame.scope))) = _
  rw [bind_of_ok (declareIn_lenient _ _ _ _ _ _)]
  rfl

theorem forPasses_of_outcome {loop : ForLoop} {span : Span} {counter : Float} {passes : Nat}
    (inside : 0 < m.frame.depth)
    (ran : forPass (.bounded n) loop strict (m.inPass loop counter) = r.outcome .give f) :
    forPasses (.bounded n) loop strict span (passes + 1) counter m = r.outcome .give m.frame := by
  have pass : within m.scopes.size (forPass (.bounded n) loop strict) (m.withPass loop counter) =
      r.outcome .give m.frame := by
    rw [within_run]
    show giveBack m.frame (forPass (.bounded n) loop strict (m.inPass loop counter)) = _
    rw [ran, Return.giveBack_outcome]
  rw [forPasses_succ]
  refine bind_outcome pass fun v k frame => leaveLoop_inside ?_
  rwa [frame]

/-- Behind a pass that ends with a value a counter loop goes on with the next number. -/
theorem forPasses_next {loop : ForLoop} {span : Span} {counter next : Float} {passes : Nat} {v : Value}
    {l : Machine} (ran : forPass (.bounded n) loop strict (m.inPass loop counter) = .ok (.value v) k)
    (stepped : stepCounter (.bounded n) loop m.scopes.size counter strict { k with frame := m.frame } =
      .ok next l) :
    forPasses (.bounded n) loop strict span (passes + 1) counter m =
      forPasses (.bounded n) loop strict span passes next l := by
  have pass : within m.scopes.size (forPass (.bounded n) loop strict) (m.withPass loop counter) =
      .ok (.value v) { k with frame := m.frame } := by
    rw [within_run]
    exact congrArg (giveBack m.frame) ran
  rw [forPasses_succ, bind_of_ok pass, afterPass, bind_of_ok stepped]

/-- Inside a call, a course that comes to a `return` ends with what comes of it. -/
theorem run_of_reaches {c : Course} (h : Reaches n strict c m r) (inside : 0 < m.frame.depth) :
    c.run n strict m = r.outcome .give m.frame := by
  -- on the way to the `return`: each step gives the frame back, and what comes of the `return` is passed on
  induction h with
  | @here n strict span e rest m =>
    show block (.bounded n) (.returnValue span e :: rest) strict m = _
    exact block_of_outcome rfl (statement_returnValue span e)
  | @directive n strict mode s rest m r directive _ ih =>
    have same : block (.bounded n) (s :: rest) strict = block (.bounded n) rest mode := by
      rw [block, directive]
    show block (.bounded n) (s :: rest) strict m = _
    rw [same]
    exact ih inside
  | @later n strict s rest m k v r directive ran _ ih =>
    have frame := ((statement_orderly (Evaluator.bounded_orderly n) s strict).of_ok ran).1
    show block (.bounded n) (s :: rest) strict m = _
    rw [block_next directive ran, ← frame]
    exact ih (by rwa [frame])
  | @inIf n strict span condition body rest m k r holds _ ih =>
    have frame := (holds_orderly (Evaluator.bounded_orderly (n + 1)) condition strict).frame_of_value holds
    rw [← frame] at inside ⊢
    show block (.bounded (n + 1)) (.ifBlock span condition body :: rest) strict m = _
    exact block_of_outcome rfl (ifBlock_of_outcome holds (ih inside))
  | @inWhile n strict span condition body rest m k r holds _ ih =>
    have frame := (holds_orderly (Evaluator.bounded_orderly n) condition strict).frame_of_value holds
    rw [← frame] at inside ⊢
    show block (.bounded n) (.whileLoop span condition body :: rest) strict m = _
    exact block_of_outcome rfl (whileLoop_of_outcome inside holds (ih inside))
  | @inFor n strict span loop rest m k start r started _ ih =>
    have frame := (startNumber_orderly (Evaluator.bounded_orderly n) loop.counter.value strict).frame_of_value
      started
    show block (.bounded n) (.forLoop span loop :: rest) strict m = _
    refine block_of_outcome rfl ?_
    show forLoop (.bounded n) loop strict span m = _
    rw [forLoop, bind_of_ok started, ← frame]
    exact ih (by rwa [frame])
  | @whileBody n passes strict scope condition body m r _ ih =>
    show whilePasses (.bounded (n + 1)) scope condition body strict (passes + 1) m = _
    unfold whilePasses
    exact bind_outcome (ih inside) fun v k _ => rfl
  | @whileNext n passes strict scope condition body m k l v r ran holds _ ih =>
    have first : k.frame = m.frame := (((Evaluator.bounded_orderly n).block body strict).of_ok ran).1
    have frame : l.frame = m.frame :=
      ((holds_orderly (Evaluator.bounded_orderly n) condition strict).frame_of_value holds).trans first
    show whilePasses (.bounded n) scope condition body strict (passes + 1) m = _
    rw [whilePasses_next ran holds, ← frame]
    exact ih (by rwa [frame])
  | @forBody n passes strict loop span counter m k r holds _ ih =>
    have frame := (holds_orderly (Evaluator.bounded_orderly (n + 1)) loop.condition strict).frame_of_value holds
    show forPasses (.bounded (n + 1)) loop strict span (passes + 1) counter m = _
    refine forPasses_of_outcome inside (f := k.frame) ?_
    rw [forPass, bind_of_ok holds]
    exact ih (by rw [frame]; exact inside)
  | @forNext n passes strict loop span counter next m k l v r ran stepped _ ih =>
    have frame : l.frame = ({ k with frame := m.frame } : Machine).frame :=
      (stepCounter_orderly (Evaluator.bounded_orderly n) loop m.scopes.size counter strict).frame_of_value stepped
    change l.frame = m.frame at frame
    show forPasses (.bounded n) loop strict span (passes + 1) counter m = _
    rw [forPasses_next ran stepped, ← frame]
    exact ih (by rwa [frame])

/-! ## From an end inward -/

/-- The bodies of blocks and loops, one level further in, come to a `return` when they end with one. -/
def ReturnsInside (n : Nat) : Prop :=
  ∀ body strict m v k, (Evaluator.bounded n).block body strict m = .ok (.give v) k →
    ∃ n' r, n = n' + 1 ∧ Reaches n' strict (.block body) m r

variable {v : Value}

theorem reaches_of_whilePasses (inside : ReturnsInside n) {scope : ScopeId} {condition : Expr}
    {body : List Stmt} {passes : Nat}
    (h : whilePasses (.bounded n) scope condition body strict passes m = .ok (.give v) k) :
    ∃ r, Reaches n strict (.whilePasses scope condition body passes) m r := by
  induction passes generalizing m with
  | zero => cases h
  | succ passes ih =>
    unfold whilePasses at h
    obtain ⟨flow, l, ran, h⟩ := bind_eq_ok.1 h
    cases flow with
    | leave => cases h
    | give w =>
      obtain ⟨n', r, rfl, reaches⟩ := inside _ _ _ _ _ ran
      exact ⟨r, .whileBody reaches⟩
    | value w =>
      change (holds _ condition strict >>= _) (l.mapScopes (·.beginPass scope)) = _ at h
      obtain ⟨b, l', holds, h⟩ := bind_eq_ok.1 h
      cases b with
      | false => cases h
      | true =>
        obtain ⟨r, reaches⟩ := ih h
        exact ⟨r, .whileNext ran holds reaches⟩

theorem reaches_of_forPasses (inside : ReturnsInside n) {loop : ForLoop} {span : Span} {counter : Float}
    {passes : Nat} (h : forPasses (.bounded n) loop strict span passes counter m = .ok (.give v) k) :
    ∃ r, Reaches n strict (.forPasses loop span passes counter) m r := by
  induction passes generalizing counter m with
  | zero => cases h
  | succ passes ih =>
    rw [forPasses_succ] at h
    obtain ⟨flow, l, pass, h⟩ := bind_eq_ok.1 h
    obtain ⟨l', ran, rfl⟩ := within_eq_ok pass
    change forPass _ loop strict (m.inPass loop counter) = _ at ran
    cases flow with
    | leave => cases h
    | give w =>
      unfold forPass at ran
      obtain ⟨b, l, holds, ended⟩ := bind_eq_ok.1 ran
      cases b with
      | false => cases ended
      | true =>
        obtain ⟨n', r, rfl, reaches⟩ := inside _ _ _ _ _ ended
        exact ⟨r, .forBody holds reaches⟩
    | value w =>
      obtain ⟨next, l, stepped, h⟩ := bind_eq_ok.1 h
      obtain ⟨r, reaches⟩ := ih h
      exact ⟨r, .forNext ran stepped reaches⟩

theorem reaches_of_statement (inside : ReturnsInside n) {s : Stmt} (rest : List Stmt)
    (h : statement (.bounded n) s strict m = .ok (.give v) k) :
    ∃ r, Reaches n strict (.block (s :: rest)) m r := by
  cases s with
  | returnValue span e => exact ⟨_, .here⟩
  | breakLoop span => cases h
  | ifBlock span condition body =>
    change ifBlock _ condition body strict m = _ at h
    unfold ifBlock at h
    obtain ⟨b, l, holds, h⟩ := bind_eq_ok.1 h
    cases b with
    | false => cases h
    | true =>
      change (within l.scopes.size ((Evaluator.bounded n).block body strict) >>= _)
        (l.mapScopes (·.push (some l.frame.scope))) = _ at h
      obtain ⟨flow, l', entered, h⟩ := bind_eq_ok.1 h
      obtain ⟨l', ran, rfl⟩ := within_eq_ok entered
      cases flow with
      | value w => cases h
      | leave => cases h
      | give w =>
        obtain ⟨n', r, rfl, reaches⟩ := inside _ _ _ _ _ ran
        exact ⟨r, .inIf holds reaches⟩
  | whileLoop span condition body =>
    change whileLoop _ condition body strict span m = _ at h
    unfold whileLoop at h
    obtain ⟨b, l, holds, h⟩ := bind_eq_ok.1 h
    cases b with
    | false => cases h
    | true =>
      change (within l.scopes.size (whilePasses (.bounded n) l.scopes.size condition body strict n) >>= _)
        (l.mapScopes (·.push (some l.frame.scope))) = _ at h
      obtain ⟨flow, l', entered, h⟩ := bind_eq_ok.1 h
      obtain ⟨l', ran, rfl⟩ := within_eq_ok entered
      cases flow with
      | value w => cases h
      | leave => cases h
      | give w =>
        obtain ⟨r, reaches⟩ := reaches_of_whilePasses inside ran
        exact ⟨r, .inWhile holds reaches⟩
  | forLoop span loop =>
    change forLoop _ loop strict span m = _ at h
    unfold forLoop at h
    obtain ⟨start, l, started, h⟩ := bind_eq_ok.1 h
    obtain ⟨r, reaches⟩ := reaches_of_forPasses inside h
    exact ⟨r, .inFor started reaches⟩
  | _ =>
    -- what is left ends with a value
    change (Flow.value <$> _ : Run Flow) m = _ at h
    rw [map_run] at h
    split at h <;> cases h

theorem reaches_of_block (inside : ReturnsInside n) {body : List Stmt}
    (h : block (.bounded n) body strict m = .ok (.give v) k) : ∃ r, Reaches n strict (.block body) m r := by
  induction body generalizing strict m with
  | nil => cases h
  | cons s rest ih =>
    unfold block at h
    cases directive : strictDirective? s with
    | some mode =>
      rw [directive] at h
      obtain ⟨r, reaches⟩ := ih h
      exact ⟨r, .directive directive reaches⟩
    | none =>
      rw [directive] at h
      obtain ⟨flow, l, ran, h⟩ := bind_eq_ok.1 h
      cases flow with
      | value w =>
        obtain ⟨r, reaches⟩ := ih h
        exact ⟨r, .later directive ran reaches⟩
      | leave => cases h
      | give w => exact reaches_of_statement inside rest ran

/-- By induction on the bound: what is inside a block has a smaller one. -/
theorem returnsInside (n : Nat) : ReturnsInside n := by
  induction n with
  | zero =>
    intro body strict m v k h
    cases h
  | succ n ih =>
    intro body strict m v k h
    obtain ⟨r, reaches⟩ := reaches_of_block ih h
    exact ⟨n, r, rfl, reaches⟩

/-- Inside a call, a block ends with a `return` just if it comes to one whose value has a value. -/
theorem block_gives_iff (inside : 0 < m.frame.depth) {body : List Stmt} :
    block (.bounded n) body strict m = .ok (.give v) k ↔
      ∃ r, Reaches n strict (.block body) m r ∧ r.outcome Flow.give m.frame = .ok (.give v) k := by
  constructor
  · intro h
    obtain ⟨r, reaches⟩ := reaches_of_block (returnsInside n) h
    exact ⟨r, reaches, (run_of_reaches reaches inside).symm.trans h⟩
  · rintro ⟨r, reaches, outcome⟩
    exact (run_of_reaches reaches inside).trans outcome

/-! ## Calls -/

/-- A call of the function from one machine begins its body on the other: the arguments suffice, and they are
bound in a new scope, one call deeper. -/
def EntersCall (g : Function) (args : List Value) (strict : Bool) (span : Span) (m k : Machine) : Prop :=
  g.declaration.parameters.length ≤ args.length ∧
    ∃ l, bindParameters m.scopes.size strict span (g.declaration.parameters.zip args)
        (m.mapScopes (·.push (some g.closure))) = .ok () l ∧
      k = { l with frame := ⟨m.scopes.size, m.frame.depth + 1⟩ }

/-- What comes of the `return` that the body of a call comes to, comes of the call. -/
theorem callFunction_of_reaches {g : Function} {args : List Value} {span : Span}
    (enters : EntersCall g args strict span m k) (reaches : Reaches n strict (.block g.declaration.body) k r) :
    callFunction (.bounded (n + 1)) g args strict span m = r.outcome id m.frame := by
  obtain ⟨enough, l, bound, rfl⟩ := enters
  have body := run_of_reaches reaches (Nat.succ_pos _)
  have binds : (bindParameters m.scopes.size strict span (g.declaration.parameters.zip args)).Orderly
      (m.mapScopes (·.push (some g.closure))).frame.depth (fun _ => True) True := bindParameters_orderly _ _ _ _
  have frame : l.frame = m.frame := binds.frame_of_value bound
  have call : inCall m.scopes.size ((Evaluator.bounded (n + 1)).block g.declaration.body strict) l =
      r.outcome .give m.frame := by
    rw [inCall_run, frame]
    exact (congrArg (giveBack m.frame) body).trans (r.giveBack_outcome ..)
  unfold callFunction
  rw [if_neg (Nat.not_lt.2 enough)]
  show (bindParameters m.scopes.size strict span (g.declaration.parameters.zip args) >>= _)
    (m.mapScopes (·.push (some g.closure))) = _
  rw [bind_of_ok bound]
  exact bind_outcome call fun v k _ => rfl

end Eval

end ScriptLang
