/-
# ScriptLang.Builtin — what comes with the language.

The native functions that need no evaluator, and the global scope.  A native function checks its
arguments and names itself in its faults; it does not check that there are no more arguments than it
reads where it reads a list of them.
-/
import ScriptLang.Machine
import ScriptLang.Value.Text

namespace ScriptLang

namespace Builtin

/-- A fault of a native function. -/
def fault (n : Native) (f : NativeFault) : RuntimeFault := .native n.name f

/-- The one argument that is a path. -/
def path (n : Native) : List Value → Except RuntimeFault String
  | [] => .error (fault n .pathMissing)
  | [.string s] => .ok s
  | [v] => .error (fault n (.pathNotString v.kind))
  | args => .error (fault n (.tooManyPaths args.length))

/-- Arguments that are all texts. -/
def strings (n : Native) : List Value → Except RuntimeFault (List String)
  | [] => .ok []
  | .string s :: rest => (strings n rest).map (s :: ·)
  | v :: _ => .error (fault n (.argumentNotString v.kind))

/-- Arguments that are all texts, joined by blanks. -/
def joined (n : Native) (args : List Value) : Except RuntimeFault String :=
  (strings n args).map (" ".intercalate ·)

/-- An argument that is a key. -/
def key (n : Native) : Value → Except RuntimeFault String
  | .string s => .ok s
  | .object _ _ => .error (fault n .keyNotFirst)
  | v => .error (fault n (.keyNotString v.kind))

/-- An argument that is an object. -/
def properties (n : Native) : Value → Except RuntimeFault Properties
  | .object _ ps => .ok ps
  | v => .error (fault n (.notAnObject v.kind))

/-- Have all of the arguments a property with the key `k`?  The first that has none settles it. -/
def allHave (n : Native) (k : String) : List Value → Except RuntimeFault Bool
  | [] => .ok true
  | v :: rest => do
    let ps ← properties n v
    if ps.has k then allHave n k rest else .ok false

/-- Has an object a property with a key?  Backs `Object.has`. -/
def objectHas : List Value → Except RuntimeFault Bool
  | [k, v] => do
    let k ← key .objectHas k
    let ps ← properties .objectHas v
    return ps.has k
  | _ :: _ :: _ :: _ => .error (fault .objectHas .severalObjects)
  | _ => .error (fault .objectHas .keyAndObjectMissing)

/-- Have all objects a property with a key?  Backs `Object.allHas`. -/
def objectAllHas : List Value → Except RuntimeFault Bool
  | [] => .error (fault .objectAllHas .keyAndObjectsMissing)
  | k :: rest => do
    let k ← key .objectAllHas k
    allHave .objectAllHas k rest

/-- The one argument that is an object. -/
def oneObject (n : Native) : List Value → Except RuntimeFault Properties
  | [v] => properties n v
  | args => .error (fault n (.notOneObject args.length))

/-- What a value prints as: a bare text without quotes, all else as in arrays and objects. -/
def printedText : Value → String
  | .string s => s
  | v => v.text

/-- Prints each argument as a line. -/
def print : List Value → Run Unit
  | [] => pure ()
  | v :: rest => do
    Run.emit (.printed (printedText v))
    print rest

/-- The text of the file that a path names. -/
def readFile (n : Native) (args : List Value) (span : Span) : Run String := do
  let p ← Run.settle span (path n args)
  match ← Run.file p with
  | .ok text => return text
  | .error reason => Run.raise span (fault n (.unreadable p reason))

/-- The words that every prompt begins with. -/
def promptWarning : String := "prompt (never enter passwords): "

/-- Shows a message and yields the line that answers it, null at the end of input. -/
def prompt (args : List Value) (span : Span) : Run Value := do
  let message ← Run.settle span (joined .prompt args)
  Run.emit (.prompted (promptWarning ++ message))
  match ← Run.answer with
  | some line => return .string line
  | none => return .null

/-! ## The global scope -/

/-- The native functions that are global names. -/
def globalFunctions : List Native := [.print, .time, .readFile, .evalFile, .evaluate, .prompt]

/-- The native functions that are properties of `Object`, with their keys. -/
def objectFunctions : List (String × Native) :=
  [("has", .objectHas), ("allHas", .objectAllHas), ("keys", .objectKeys), ("values", .objectValues)]

/-- The name of the object whose property `exports` is the result of a program. -/
def resultObject : String := "DUM"

/-- The key of the result of a program. -/
def resultKey : String := "exports"

/-- Binds a global name. -/
def defineGlobal (name : String) (value : Value) (constant : Bool) : Run Unit := fun m =>
  .ok () (m.mapScopes (·.define 0 name value constant))

/-- Binds every global name.  All but the result object are constant. -/
def defineGlobals : Run Unit := do
  defineGlobal "true" (.bool true) true
  defineGlobal "false" (.bool false) true
  defineGlobal "null" .null true
  globalFunctions.forM (fun n => do defineGlobal n.name (.native (← Run.newStamp) n) true)
  let functions ← objectFunctions.mapM (fun (key, n) => do return (key, Value.native (← Run.newStamp) n))
  defineGlobal "Object" (← Run.newObject (Properties.ofList functions)) true
  defineGlobal resultObject (← Run.newObject []) false

end Builtin

namespace Machine

/-- A machine with one empty scope. -/
def blank (host : Host) : Machine := ⟨Scopes.empty.push none, ⟨0, 0⟩, 0, host⟩

/-- A machine with the global scope. -/
def initial (host : Host) : Machine :=
  match Builtin.defineGlobals (blank host) with
  | .ok _ m => m
  | .error _ m => m

end Machine

end ScriptLang
