/-
# ScriptLang.Host — the outside world of a program.

A program prints, asks for lines, reads files and reads a clock, all through its host.  A host is data:
the answers that it holds, and a transcript of what the program showed.  When a host holds no answer, it
either settles the matter itself (a closed host: its input is at its end, the file does not exist, the
clock stands still) or lets the program wait for one (a live host).
-/
import ScriptLang.Number.Binary64

namespace ScriptLang

/-- Something a program showed: a printed line, or the message of a prompt. -/
inductive Event where
  | printed (line : String)
  | prompted (message : String)
deriving DecidableEq, Repr

/-- Something a program waits for. -/
inductive Request where
  | answer
  | file (path : String)
  | clock
deriving DecidableEq, Repr

/-- What a host does when it holds no answer. -/
inductive Supply where
  | closed (now : Float)
  | live

/-- A host.  An answer is a line or the end of input, a file is its text or the reason why it cannot be
read, a clock reading counts milliseconds. -/
structure Host where
  files : List (String × Except String String)
  answers : List (Option String)
  readings : List Float
  supply : Supply
  transcript : Array Event

namespace Host

/-- A closed host with given files and lines of input, whose clock stands at `now`. -/
def closed (files : List (String × String)) (answers : List String) (now : Float) : Host :=
  ⟨files.map (fun (path, text) => (path, .ok text)), answers.map some, [], .closed now, #[]⟩

/-- A live host that holds nothing yet. -/
def live : Host := ⟨[], [], [], .live, #[]⟩

/-- The host after it has shown something. -/
def record (h : Host) (e : Event) : Host :=
  match h with
  | ⟨files, answers, readings, supply, transcript⟩ =>
    ⟨files, answers, readings, supply, transcript.push e⟩

/-- Why a file that a closed host does not know cannot be read. -/
def noSuchFile : String := "no such file"

/-- The next line of input, or its end, and the host after it. -/
def answer (h : Host) : Except Request (Option String × Host) :=
  match h.answers, h.supply with
  | line :: rest, _ => .ok (line, { h with answers := rest })
  | [], .closed _ => .ok (none, h)
  | [], .live => .error .answer

/-- The text of a file, or the reason why it cannot be read. -/
def file (h : Host) (path : String) : Except Request (Except String String) :=
  match h.files.lookup path, h.supply with
  | some outcome, _ => .ok outcome
  | none, .closed _ => .ok (.error noSuchFile)
  | none, .live => .error (.file path)

/-- A reading of the clock, and the host after it. -/
def clock (h : Host) : Except Request (Float × Host) :=
  match h.readings, h.supply with
  | now :: rest, _ => .ok (now, { h with readings := rest })
  | [], .closed now => .ok (now, h)
  | [], .live => .error .clock

end Host

end ScriptLang
