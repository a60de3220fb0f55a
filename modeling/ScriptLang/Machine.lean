/-
# ScriptLang.Machine — the state a program runs in.

A machine holds the scopes, the frame (the scope in which names are looked up now, and how many calls
enclose it), the next stamp, and the host.  A run changes the machine and yields a value or halts; what a
run changed before it halts stays changed.  A run inside another frame gives the frame back however it
ends.
-/
import ScriptLang.Scope
import ScriptLang.Host

namespace ScriptLang

/-- Where a program is: the scope that names are looked up in, and the number of calls around it. -/
structure Frame where
  scope : ScopeId
  depth : Nat
deriving DecidableEq, Repr

/-- The state of a program. -/
structure Machine where
  scopes : Scopes
  frame : Frame
  stamps : Nat
  host : Host

namespace Machine

/-- The machine with its scopes changed. -/
def mapScopes (f : Scopes → Scopes) : Machine → Machine
  | ⟨scopes, frame, stamps, host⟩ => ⟨f scopes, frame, stamps, host⟩

end Machine

/-- Why a run stops: an error, something it has to wait for, or the end of the steps it was given. -/
inductive Halt where
  | raised (error : RuntimeError)
  | waiting (request : Request)
  | outOfFuel

/-- A run on a machine. -/
abbrev Run (α : Type) := EStateM Halt Machine α

namespace Run

variable {α : Type}

/-- Stops with an error. -/
def raise (span : Span) (fault : RuntimeFault) : Run α := fun m => .error (.raised ⟨span, fault⟩) m

/-- Stops because the steps are used up. -/
def outOfFuel : Run α := fun m => .error .outOfFuel m

/-- The outcome of an operation, its fault placed at a span. -/
def settle (span : Span) (x : Except RuntimeFault α) : Run α := fun m =>
  match x with
  | .ok a => .ok a m
  | .error fault => .error (.raised ⟨span, fault⟩) m

/-- The frame. -/
def frame : Run Frame := fun m => .ok m.frame m

/-- The scope that names are looked up in. -/
def here : Run ScopeId := fun m => .ok m.frame.scope m

/-- A stamp that no value has. -/
def newStamp : Run Stamp := fun m => .ok m.stamps { m with stamps := m.stamps + 1 }

/-- A new scope inside `parent`. -/
def newScope (parent : ScopeId) : Run ScopeId := fun m =>
  .ok m.scopes.size (m.mapScopes (·.push (some parent)))

/-- A run in another frame.  The frame is given back however the run ends. -/
def withFrame (f : Frame) (act : Run α) : Run α := fun m =>
  let old := m.frame
  match act { m with frame := f } with
  | .ok a n => .ok a { n with frame := old }
  | .error e n => .error e { n with frame := old }

/-- A run in another scope, inside the same calls. -/
def within (scope : ScopeId) (act : Run α) : Run α := do
  let f ← frame
  withFrame { f with scope := scope } act

/-- The body of a call. -/
def inCall (scope : ScopeId) (act : Run α) : Run α := do
  let f ← frame
  withFrame ⟨scope, f.depth + 1⟩ act

/-- A program of its own: no call encloses it. -/
def inProgram (scope : ScopeId) (act : Run α) : Run α := withFrame ⟨scope, 0⟩ act

/-- The value of a name, seen from a scope. -/
def lookupFrom (scope : ScopeId) (name : String) (span : Span) : Run Value := fun m =>
  settle span (m.scopes.value scope name) m

/-- The value of a name. -/
def lookup (name : String) (span : Span) : Run Value := fun m =>
  lookupFrom m.frame.scope name span m

/-- Declares a name in a scope; yields its value. -/
def declareIn (scope : ScopeId) (name : String) (value : Value) (constant strict : Bool) (span : Span) :
    Run Value := fun m =>
  if m.scopes.refuses scope name strict then .error (.raised ⟨span, .duplicateName name⟩) m
  else .ok value (m.mapScopes (·.bind scope name value constant))

/-- Gives a name a new value; yields it. -/
def reassign (name : String) (value : Value) (span : Span) : Run Value := fun m =>
  match m.scopes.writable m.frame.scope name with
  | .ok owner => .ok value (m.mapScopes (·.setValue owner name value))
  | .error fault => .error (.raised ⟨span, fault⟩) m

/-- Begins another pass of the loop that uses a scope. -/
def beginPass (scope : ScopeId) : Run Unit := fun m =>
  .ok () (m.mapScopes (·.beginPass scope))

/-- Shows something. -/
def emit (e : Event) : Run Unit := fun m => .ok () { m with host := m.host.record e }

/-- The next line of input, or its end. -/
def answer : Run (Option String) := fun m =>
  match m.host.answer with
  | .ok (line, host) => .ok line { m with host := host }
  | .error request => .error (.waiting request) m

/-- The text of a file, or the reason why it cannot be read. -/
def file (path : String) : Run (Except String String) := fun m =>
  match m.host.file path with
  | .ok outcome => .ok outcome m
  | .error request => .error (.waiting request) m

/-- A reading of the clock. -/
def clock : Run Float := fun m =>
  match m.host.clock with
  | .ok (now, host) => .ok now { m with host := host }
  | .error request => .error (.waiting request) m

/-- A new array. -/
def newArray (elements : List Value) : Run Value := do
  return .array (← newStamp) elements

/-- A new object. -/
def newObject (properties : Properties) : Run Value := do
  return .object (← newStamp) properties

/-- A run of another source: its errors become one fault at the span where it was started. -/
def fromSource (span : Span) (act : Run α) : Run α := fun m =>
  match act m with
  | .ok a n => .ok a n
  | .error (.raised e) n => .error (.raised ⟨span, .source e.toError⟩) n
  | .error e n => .error e n

end Run

end ScriptLang
