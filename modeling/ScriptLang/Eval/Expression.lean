/-
# ScriptLang.Eval.Expression — the rules of expressions.

Operands are evaluated from left to right, but the arguments of a call come before the function that is
called, and the arguments of `new` before the class.  An assignment to a member reads the container
first, then evaluates the value, then the key or index, and binds the variable to a changed copy.  The
body of a function runs in a scope inside the one that the function was declared in, with the strict mode
of the call.
-/
import ScriptLang.Operator
import ScriptLang.Eval.Statement
import ScriptLang.Syntax.Grammar

namespace ScriptLang.Eval

open Run

variable (self : Evaluator)

/-- The values of expressions, in order. -/
def expressions : List Expr → Bool → Run (List Value)
  | [], _ => return []
  | e :: rest, strict => do
    let v ← self.expression e strict
    let vs ← expressions rest strict
    return v :: vs

/-- The properties of an object literal, added to those before them. -/
def properties : List Property → Bool → Properties → Run Properties
  | [], _, done => return done
  | p :: rest, strict, done => do
    let v ← match p.value with
      | some e => self.expression e strict
      | none => lookup p.key p.span
    properties rest strict (done.insert p.key v)

/-! ## Members -/

/-- The key that a member expression names. -/
def propertyKey (property : Expr) (computed strict : Bool) : Run String :=
  let evaluated : Run String := do
    match ← self.expression property strict with
    | .string key => return key
    | v => raise property.span (.type (.objectKey v.kind))
  match computed, property with
  | false, .identifier _ name => return name
  | _, _ => evaluated

/-- The place in an array that an index expression names. -/
def elementPlace (index : Expr) (length : Nat) (strict : Bool) (span : Span) : Run (Option Nat) := do
  let v ← self.expression index strict
  settle span (elementPosition v length strict)

/-- The value of a member. -/
def memberValue (container : Value) (property : Expr) (computed strict : Bool) (span : Span) :
    Run Value :=
  match container with
  | .object _ ps => do
    let key ← propertyKey self property computed strict
    match Properties.get? key ps with
    | some v => return v
    | none => raise span (.missingProperty key)
  | .array _ elements =>
    if computed then do
      let place ← elementPlace self property elements.length strict span
      return (place.bind (elements[·]?)).getD .null
    else raise span (.type .dotReadOfArray)
  | v => raise span (.type (.memberRead v.kind))

/-- A container with one member changed. -/
def withMember (container : Value) (property : Expr) (computed : Bool) (value : Value) (strict : Bool)
    (span : Span) : Run Value :=
  match container with
  | .object _ ps => do
    let key ← propertyKey self property computed strict
    if strict && !Properties.has key ps then raise span (.missingProperty key)
    else newObject (Properties.insert key value ps)
  | .array _ elements =>
    if computed then do
      match ← elementPlace self property elements.length strict span with
      | some place => newArray (elements.set place value)
      | none => raise span (.range .emptyArray)
    else raise span (.type .dotWriteToArray)
  | v => raise span (.type (.memberWrite v.kind))

/-- An assignment.  To a variable its value is the one assigned, to a member it is null. -/
def assign (target value : Expr) (strict : Bool) (span : Span) : Run Value :=
  match target with
  | .identifier _ name => do
    let v ← self.expression value strict
    reassign name v span
  | .member _ (.identifier ownerSpan owner) property computed => do
    let container ← lookup owner ownerSpan
    let v ← self.expression value strict
    let updated ← withMember self container property computed v strict span
    let _ ← reassign owner updated span
    return .null
  | .member _ _ _ _ => raise span (.type .memberWriteToExpression)
  | _ => raise span (.type .badTarget)

/-! ## Calls -/

/-- Binds parameters to arguments in the scope of a call. -/
def bindParameters (scope : ScopeId) (strict : Bool) (span : Span) : List (String × Value) → Run Unit
  | [] => return ()
  | (name, v) :: rest => do
    let _ ← declareIn scope name v false strict span
    bindParameters scope strict span rest

/-- Calls a function of a program.  Arguments past its parameters are not used. -/
def callFunction (f : Function) (args : List Value) (strict : Bool) (span : Span) : Run Value := do
  let parameters := f.declaration.parameters
  if args.length < parameters.length then
    raise span (.missingArguments f.declaration.shownName (parameters.length - args.length))
  else
    let scope ← newScope f.closure
    bindParameters scope strict span (parameters.zip args)
    match ← inCall scope (self.block f.declaration.body strict) with
    | .give v => return v
    | _ => return .null

/-- Runs a source as a program in a new scope inside the present one. -/
def runSource (source : String) (span : Span) : Run Value :=
  match Program.ofSource? source with
  | .error e => raise span (.source e)
  | .ok p => do
    let scope ← newScope (← here)
    fromSource span (inProgram scope (program self p))

/-- Calls a native function. -/
def callNative (n : Native) (args : List Value) (span : Span) : Run Value :=
  match n with
  | .print => do
    Builtin.print args
    return .null
  | .time => .number <$> clock
  | .readFile => .string <$> Builtin.readFile n args span
  | .evalFile => do
    let source ← Builtin.readFile n args span
    runSource self source span
  | .evaluate => do
    let source ← settle span (Builtin.joined n args)
    runSource self source span
  | .prompt => Builtin.prompt args span
  | .objectHas => .bool <$> settle span (Builtin.objectHas args)
  | .objectAllHas => .bool <$> settle span (Builtin.objectAllHas args)
  | .objectKeys => do
    let ps ← settle span (Builtin.oneObject n args)
    newArray (ps.map (.string ·.1))
  | .objectValues => do
    let ps ← settle span (Builtin.oneObject n args)
    newArray (ps.map (·.2))
  | .hosted _ => return .null

/-- Calls a value. -/
def call (callee : Value) (args : List Value) (strict : Bool) (span : Span) : Run Value :=
  match callee with
  | .native _ n => callNative self n args span
  | .function f => callFunction self f args strict span
  | .classValue c => raise span (.type (.classCall c.declaration.name))
  | v => raise span (.type (.call v.kind))

/-! ## Instances -/

/-- What has been laid into an instance: the names that are visible outside, and the constructor. -/
structure Assembly where
  visible : List String
  constructor : Option Function

/-- A name after a member of that name and a given visibility. -/
def Assembly.mark (a : Assembly) (name : String) : Visibility → Assembly
  | .visible => { a with visible := if a.visible.contains name then a.visible else a.visible ++ [name] }
  | .hidden => { a with visible := a.visible.filter (· ≠ name) }

/-- Lays one member into the scope of an instance.  A later member replaces an earlier one of its name,
and its visibility counts. -/
def layMember (scope : ScopeId) (strict : Bool) (span : Span) (a : Assembly) (m : Member) : Run Assembly :=
  match m with
  | .property visibility d => do
    let v ← match d.value with
      | some e => within scope (self.expression e strict)
      | none => pure .null
    let _ ← declareIn scope d.name v d.constant false span
    return a.mark d.name visibility
  | .method visibility d => do
    let f : Function := ⟨← newStamp, d, scope⟩
    if d.shownName = constructorName then return { a with constructor := some f }
    else
      let _ ← declareIn scope d.shownName (.function f) false false span
      return a.mark d.shownName visibility

/-- Lays members into the scope of an instance, in order. -/
def layMembers (scope : ScopeId) (strict : Bool) (span : Span) : List Member → Assembly → Run Assembly
  | [], a => return a
  | m :: rest, a => do
    let a ← layMember self scope strict span a m
    layMembers scope strict span rest a

/-- The properties that the names of an instance have now. -/
def readNames (scope : ScopeId) (span : Span) : List String → Properties → Run Properties
  | [], done => return done
  | name :: rest, done => do
    let v ← lookupFrom scope name span
    readNames scope span rest (done.insert name v)

/-- Runs the constructor of an instance, if it has one. -/
def construct (constructor : Option Function) (args : List Value) (strict : Bool) (span : Span) : Run Unit :=
  match constructor with
  | none => return ()
  | some f => do
    let _ ← callFunction self f args strict span
    return ()

/-- Makes an instance of a class.  The members of its whole lineage are laid into one scope inside the
scope of the class, root first; then the last constructor runs; then the visible names are read. -/
def instantiate (c : Class) (args : List Value) (strict : Bool) (span : Span) : Run Value := do
  let scope ← newScope c.closure
  let members := c.lineage.flatMap (·.declaration.members)
  let a ← layMembers self scope strict span members ⟨[], none⟩
  construct self a.constructor args strict span
  let ps ← readNames scope span a.visible []
  newObject ps

/-! ## Expressions -/

/-- An expression. -/
def expression (e : Expr) (strict : Bool) : Run Value :=
  match e with
  | .identifier span name => lookup name span
  | .number _ x => return .number x
  | .string _ text => return .string text
  | .null _ => return .null
  | .object _ ps => do
    let ps ← properties self ps strict []
    newObject ps
  | .array _ es => do
    let vs ← expressions self es strict
    newArray vs
  | .binary span left operator right => do
    let v ← self.expression left strict
    let w ← self.expression right strict
    settle span (operator.apply strict v w)
  | .assign span target value => assign self target value strict span
  | .member span object property computed => do
    let container ← self.expression object strict
    memberValue self container property computed strict span
  | .call span callee arguments => do
    let args ← expressions self arguments strict
    let f ← self.expression callee strict
    call self f args strict span
  | .function span d => declareFunction d strict span
  | .instantiate span target arguments => do
    let args ← expressions self arguments strict
    match ← self.expression target strict with
    | .classValue c => instantiate self c args strict span
    | v => raise span (.type (.notAClass v.kind))

end ScriptLang.Eval
