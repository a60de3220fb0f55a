/-
# ScriptLang.Console.Execute — one source and what is shown of it.

A source is shown as its tokens, as its tree, or as the value it comes to.  Null is not shown.  What a
program prints goes to the same stream as its value.
-/
import ScriptLang.Eval
import ScriptLang.Report
import ScriptLang.Syntax.Json

namespace ScriptLang.Console

/-- What is shown of a source. -/
inductive Mode where
  | tokens
  | ast
  | result
deriving DecidableEq, Repr

/-- How sources are shown: in which mode, and whether values are structured output. -/
structure Settings where
  mode : Mode
  json : Bool
deriving DecidableEq, Repr

/-- What comes of showing a source. -/
inductive Shown where
  | text (s : String)
  | failed (error : Error)
  | waiting (request : Request)
  | outOfFuel

/-- A line. -/
def line (s : String) : String := s ++ "\n"

/-- What is shown of a value. -/
def valueText (settings : Settings) (v : Value) : String :=
  match v with
  | .null => ""
  | v => line (if settings.json then v.toJson.indented else v.text)

/-- Shows a source, in steps bounded by `n`.  Only a value needs the machine. -/
def execute (n : Nat) (settings : Settings) (source : String) (m : Machine) : Shown × Machine :=
  match settings.mode with
  | .tokens =>
    match Token.scan source with
    | .error e => (.failed (.scan e), m)
    | .ok ts => (.text (line (Json.arr (ts.map Token.toJson)).indented), m)
  | .ast =>
    match Program.ofSource? source with
    | .error e => (.failed e, m)
    | .ok p => (.text (line (Program.toJson p).indented), m)
  | .result =>
    match m.run n source with
    | (.value v, m) => (.text (valueText settings v), m)
    | (.failed e, m) => (.failed e, m)
    | (.waiting request, m) => (.waiting request, m)
    | (.outOfFuel, m) => (.outOfFuel, m)

/-- What a program showed, as text: a line each for what it printed, its prompts as they are. -/
def eventText : Event → String
  | .printed s => line s
  | .prompted message => message

/-- What a program showed, in order. -/
def transcriptText (events : List Event) : String := String.join (events.map eventText)

/-- What a script comes to: whether it succeeded, and the texts of its two streams. -/
structure ScriptRun where
  success : Bool
  out : String
  err : String
deriving DecidableEq, Repr

/-- Why a run that was stopped gives no answer. -/
def stoppedText : String := line "stopped"

/-- Runs a source as a script of its own, in steps bounded by `n`. -/
def runScript (n : Nat) (settings : Settings) (source : String) (host : Host) : ScriptRun :=
  let (shown, m) := execute n settings source (Machine.initial host)
  let printed := transcriptText m.host.transcript.toList
  match shown with
  | .text s => ⟨true, printed ++ s, ""⟩
  | .failed e => ⟨false, printed, Report.ofError source e⟩
  | .waiting _ | .outOfFuel => ⟨false, printed, stoppedText⟩

end ScriptLang.Console
