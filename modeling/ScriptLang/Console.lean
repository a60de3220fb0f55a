/-
# ScriptLang.Console — the console loop.

The console gathers lines until their text is ready to run, runs it, and shows what comes of it; a text
that fails is reported and the loop goes on.  An interrupt drops the lines gathered so far.  The texts
`exit` and `exit()` end the loop.
-/
import ScriptLang.Console.Complete
import ScriptLang.Console.Execute
import ScriptLang.Text.Blank

namespace ScriptLang

namespace Console

/-- What a line does to the text gathered before it. -/
inductive Gathering where
  | unfinished (buffer : String)
  | blank
  | quit (text : String)
  | ready (text : String)
deriving DecidableEq, Repr

/-- Does a text end the loop? -/
def isExit (text : String) : Bool := text = "exit" || text = "exit()"

/-- Adds a line to the text gathered so far. -/
def gather (buffer input : String) : Gathering :=
  let buffer := buffer ++ input ++ "\n"
  if isComplete buffer then
    let text := Text.trim buffer
    if text.isEmpty then .blank
    else if isExit text then .quit text
    else .ready text
  else .unfinished buffer

/-- What is shown before a line is read: whether it begins a text or goes on with one. -/
def promptFor (buffer : String) : String := if buffer.isEmpty then "> " else "| "

/-- What an interrupt shows. -/
def interruptText : String := line "^C"

end Console

/-- A console: the text gathered so far, the machine, the prompts so far, the history, and what the two
streams hold.  The history is the list of texts handed to the line editor, in order.  What the editor
keeps of them is its own affair: it drops a text that repeats the one before it, bounds its list, and
begins with what it finds in a file. -/
structure Console where
  buffer : String
  machine : Machine
  prompts : List String
  history : List String
  out : String
  err : String

namespace Console

/-- A console on a machine, before its first line. -/
def start (m : Machine) : Console := ⟨"", m, [], [], "", ""⟩

/-- The console when it asks for a line. -/
def ask (c : Console) : Console := { c with prompts := c.prompts ++ [promptFor c.buffer] }

/-- The console after an interrupt. -/
def interrupt (c : Console) : Console := { c with buffer := "", out := c.out ++ interruptText }

/-- The console with nothing gathered and a text in its history, which is handed to the line editor as
it is, a repeated one too. -/
def remember (c : Console) (text : String) : Console :=
  { c with buffer := "", history := c.history ++ [text] }

/-- The machine without its transcript, and the transcript as text. -/
def takeTranscript (m : Machine) : String × Machine :=
  (transcriptText m.host.transcript.toList, { m with host := { m.host with transcript := #[] } })

/-- The console after it has run a text, in steps bounded by `n`. -/
def execText (n : Nat) (settings : Settings) (c : Console) (text : String) : Console :=
  let (shown, m) := execute n settings text c.machine
  let (printed, m) := takeTranscript m
  match shown with
  | .text s => { c with machine := m, out := c.out ++ printed ++ s }
  | .failed e => { c with machine := m, out := c.out ++ printed, err := c.err ++ Report.ofError text e }
  | .waiting _ | .outOfFuel =>
    { c with machine := m, out := c.out ++ printed, err := c.err ++ stoppedText }

/-- The loop over inputs, each a line or an interrupt, with the end of input after the last one.  Yields
the console and the inputs that were not read. -/
def loop (n : Nat) (settings : Settings) : List (Option String) → Console → Console × List (Option String)
  | [], c => (c.ask, [])
  | none :: rest, c => loop n settings rest c.ask.interrupt
  | some input :: rest, c =>
    let c := c.ask
    match gather c.buffer input with
    | .unfinished buffer => loop n settings rest { c with buffer := buffer }
    | .blank => loop n settings rest { c with buffer := "" }
    | .quit text => (c.remember text, rest)
    | .ready text => loop n settings rest (execText n settings (c.remember text) text)

end Console

end ScriptLang
