/-
# ScriptLang.Eval.Statement — the rules of statements.

Expressions and blocks contain themselves, so each rule is given evaluators for these two and uses them
for the parts of what it evaluates.  A statement ends with a value, or with a `break` or a `return` on its
way outward: a block passes these on, a loop receives a `break`, a call receives a `return`.  The texts
`strict on` and `strict off`, standing as statements, switch strict mode for the rest of their block.
-/
import ScriptLang.Builtin

namespace ScriptLang

/-- How a statement ends. -/
inductive Flow where
  | value (v : Value)
  | leave
  | give (v : Value)

/-- Evaluators for what contains itself, and a bound on the passes of one loop. -/
structure Evaluator where
  bound : Nat
  expression : Expr → Bool → Run Value
  block : List Stmt → Bool → Run Flow

namespace Eval

open Run

/-- The strict mode that a statement switches to. -/
def strictDirective? : Stmt → Option Bool
  | .expression _ (.string _ text) =>
    if text = "strict on" then some true
    else if text = "strict off" then some false
    else none
  | _ => none

/-! ## Declarations -/

/-- Makes a function.  A name binds it as a constant in the present scope. -/
def declareFunction (d : FunctionDeclaration) (strict : Bool) (span : Span) : Run Value := do
  let scope ← here
  let f := Value.function ⟨← newStamp, d, scope⟩
  match d.name with
  | some name => declareIn scope name f true strict span
  | none => return f

/-- The lineage that a class extends: that of the class its superclass names. -/
def ancestors (d : ClassDeclaration) (span : Span) : Run (List ClassLayer) :=
  match d.superclass with
  | none => return []
  | some parent => do
    match ← lookup parent span with
    | .classValue c => return c.toClassLayer :: c.ancestors
    | v => raise span (.type (.superclass d.name parent v.kind))

/-- Makes a class and binds it as a constant in the present scope. -/
def declareClass (d : ClassDeclaration) (strict : Bool) (span : Span) : Run Value := do
  let above ← ancestors d span
  let scope ← here
  let c := Value.classValue ⟨⟨← newStamp, d, scope⟩, above⟩
  declareIn scope d.name c true strict span

variable (self : Evaluator)

/-- The value of a declaration: null where it has none. -/
def initialValue (value : Option Expr) (strict : Bool) : Run Value :=
  match value with
  | some e => self.expression e strict
  | none => return .null

/-- Declares a variable in the present scope. -/
def declareVariable (d : VariableDeclaration) (strict : Bool) (span : Span) : Run Value := do
  let v ← initialValue self d.value strict
  let scope ← here
  declareIn scope d.name v d.constant strict span

/-! ## Conditions and loops -/

/-- Does a condition hold? -/
def holds (condition : Expr) (strict : Bool) : Run Bool := do
  let v ← self.expression condition strict
  return v.isTruthy

/-- A block in a new scope, if a condition holds. -/
def ifBlock (condition : Expr) (body : List Stmt) (strict : Bool) : Run Flow := do
  if ← holds self condition strict then
    let scope ← newScope (← here)
    match ← within scope (self.block body strict) with
    | .value _ => return .value .null
    | other => return other
  else return .value .null

/-- How a loop ends that a `return` leaves: inside a function the `return` goes on. -/
def leaveLoop (v : Value) (span : Span) : Run Flow := do
  let f ← frame
  if 0 < f.depth then return .give v
  else raise span (.flow .returnInLoop)

/-- The passes of a `while` loop, all of them in one scope, after its condition has held. -/
def whilePasses (scope : ScopeId) (condition : Expr) (body : List Stmt) (strict : Bool) : Nat → Run Flow
  | 0 => outOfFuel
  | n + 1 => do
    match ← self.block body strict with
    | .leave => return .value .null
    | .give v => return .give v
    | .value _ =>
      beginPass scope
      if ← holds self condition strict then whilePasses scope condition body strict n
      else return .value .null

/-- A `while` loop. -/
def whileLoop (condition : Expr) (body : List Stmt) (strict : Bool) (span : Span) : Run Flow := do
  if ← holds self condition strict then
    let scope ← newScope (← here)
    match ← within scope (whilePasses self scope condition body strict self.bound) with
    | .give v => leaveLoop v span
    | other => return other
  else return .value .null

/-- The number that a counter starts at. -/
def startNumber (value : Option Expr) (strict : Bool) : Run Float :=
  match value with
  | none => return 0.0
  | some e => do
    match ← self.expression e strict with
    | .number x => return x
    | v => raise e.span (.type (.loopStart v.kind))

/-- What the iterator of a loop computes: the value of its assignment. -/
def stepExpression : Expr → Expr
  | .assign _ _ value => value
  | e => e

/-- The next number of a counter.  The counter is bound to its present number again before the iterator
is evaluated, in the scope of the pass. -/
def stepCounter (loop : ForLoop) (scope : ScopeId) (counter : Float) (strict : Bool) : Run Float := do
  let _ ← declareIn scope loop.counter.name (.number counter) false false loop.iterator.span
  match ← within scope (self.expression (stepExpression loop.iterator) strict) with
  | .number x => return x
  | v => raise loop.iterator.span (.type (.loopStep v.kind))

/-- One pass of a counter loop in its scope: the body, if the condition holds. -/
def forPass (loop : ForLoop) (strict : Bool) : Run Flow := do
  if ← holds self loop.condition strict then self.block loop.body strict
  else return .leave

/-- The passes of a counter loop, each in a scope of its own. -/
def forPasses (loop : ForLoop) (strict : Bool) (span : Span) : Nat → Float → Run Flow
  | 0, _ => outOfFuel
  | n + 1, counter => do
    let scope ← newScope (← here)
    let _ ← declareIn scope loop.counter.name (.number counter) loop.counter.constant false span
    match ← within scope (forPass self loop strict) with
    | .leave => return .value .null
    | .give v => leaveLoop v span
    | .value _ =>
      let next ← stepCounter self loop scope counter strict
      forPasses loop strict span n next

/-- A counter loop. -/
def forLoop (loop : ForLoop) (strict : Bool) (span : Span) : Run Flow := do
  let start ← startNumber self loop.counter.value strict
  forPasses self loop strict span self.bound start

/-! ## Statements and their sequences -/

/-- A statement. -/
def statement (s : Stmt) (strict : Bool) : Run Flow :=
  match s with
  | .variableDeclaration span d => .value <$> declareVariable self d strict span
  | .functionDeclaration span d => .value <$> declareFunction d strict span
  | .classDeclaration span d => .value <$> declareClass d strict span
  | .ifBlock _ condition body => ifBlock self condition body strict
  | .whileLoop span condition body => whileLoop self condition body strict span
  | .forLoop span loop => forLoop self loop strict span
  | .breakLoop _ => return .leave
  | .returnValue _ e => .give <$> self.expression e strict
  | .expression _ e => .value <$> self.expression e strict

/-- The statements of a block, up to the first that does not end with a value. -/
def block : List Stmt → Bool → Run Flow
  | [], _ => return .value .null
  | s :: rest, strict =>
    match strictDirective? s with
    | some mode => block rest mode
    | none => do
      match ← statement self s strict with
      | .value _ => block rest strict
      | other => return other

/-! ## Programs -/

/-- The result that a program set, if it set one. -/
def exported : Run (Option Value) := fun m =>
  match m.scopes.value m.frame.scope Builtin.resultObject with
  | .ok (.object _ ps) => .ok (Properties.get? Builtin.resultKey ps) m
  | _ => .ok none m

/-- The statements of a program, where the last value so far is `last`. -/
def programFrom : List Stmt → Bool → Value → Run Value
  | [], _, last => return last
  | s :: rest, strict, last =>
    match strictDirective? s with
    | some mode => programFrom rest mode last
    | none =>
      match s with
      | .returnValue span _ => raise span (.flow .topLevelReturn)
      | .breakLoop span => raise span (.flow .topLevelBreak)
      | s => do
        match ← statement self s strict with
        | .value v => programFrom rest strict v
        | .leave => raise s.span (.flow .topLevelBreak)
        | .give _ => raise s.span (.flow .topLevelReturn)

/-- A program, which begins outside strict mode.  Its value is the result it set, or else the value of its
last statement. -/
def program (p : Program) : Run Value := do
  let last ← programFrom self p false .null
  match ← exported with
  | some v => return v
  | none => return last

end Eval

end ScriptLang
