/-
# ScriptLang.Main — the command line.

Without a script the console loop runs on standard input; with one, the script runs.  Programs are run by
pure functions: when one waits for a line, a file or a reading of the clock, it is given what it waits
for and run again from where it began, and only what it had not shown before is shown.
-/
import ScriptLang.Console
import Std.Time.DateTime.Timestamp

open ScriptLang

namespace ScriptLang.Main

/-- What a command line asks for. -/
structure Options where
  script : Option String
  settings : Console.Settings

/-- The mode with a given name. -/
def mode? : String → Option Console.Mode
  | "tokens" => some .tokens
  | "ast" => some .ast
  | "result" => some .result
  | _ => none

/-- The options of a command line, added to those before it; a text if it is not understood. -/
def readOptions : List String → Options → Except String Options
  | [], o => .ok o
  | "--json" :: rest, o => readOptions rest { o with settings := { o.settings with json := true } }
  | "--debug" :: rest, o => readOptions rest o
  | "--mode" :: name :: rest, o | "-m" :: name :: rest, o =>
    match mode? name with
    | some m => readOptions rest { o with settings := { o.settings with mode := m } }
    | none => .error ("invalid mode '" ++ name ++ "': use tokens, ast or result")
  | arg :: rest, o =>
    if arg.startsWith "-" then .error ("unexpected argument '" ++ arg ++ "'")
    else
      match o.script with
      | none => readOptions rest { o with script := some arg }
      | some _ => .error ("unexpected argument '" ++ arg ++ "'")

/-- A line of standard input without its ending; none at the end of input. -/
def readLine : IO (Option String) := do
  let s ← (← IO.getStdin).getLine
  if s.isEmpty then return none
  else if s.endsWith "\r\n" then return some (s.dropEnd 2).toString
  else if s.endsWith "\n" then return some (s.dropEnd 1).toString
  else return some s

/-- Writes to standard output at once. -/
def write (s : String) : IO Unit := do
  let out ← IO.getStdout
  out.putStr s
  out.flush

/-- The text of a file, or the reason why it cannot be read. -/
def readSource (path : String) : IO (Except String String) := do
  try
    return .ok (← IO.FS.readFile path)
  catch e => return .error (toString e)

/-- Milliseconds since the beginning of 1970. -/
def now : IO Float := return Float.ofInt (← Std.Time.Timestamp.now).toMillisecondsSinceUnixEpoch.val

/-- A host that also holds what was waited for. -/
def supply (h : Host) : Request → IO Host
  | .answer => return { h with answers := h.answers ++ [← readLine] }
  | .file path => return { h with files := h.files ++ [(path, ← readSource path)] }
  | .clock => return { h with readings := h.readings ++ [← now] }

/-- Shows a source, of whose transcript the first `seen` events have been shown; tells whether it
succeeded. -/
partial def showSource (settings : Console.Settings) (source : String) (m : Machine) (seen : Nat) :
    IO (Bool × Machine) := do
  let (shown, after) := Console.execute ampleSteps settings source m
  write (Console.transcriptText (after.host.transcript.toList.drop seen))
  let done := (Console.takeTranscript after).2
  match shown with
  | .text s =>
    write s
    return (true, done)
  | .failed e =>
    IO.eprint (Report.ofError source e)
    return (false, done)
  | .waiting request =>
    let host ← supply m.host request
    showSource settings source { m with host := host } after.host.transcript.size
  | .outOfFuel =>
    IO.eprint Console.stoppedText
    return (false, done)

/-- The console loop on standard input. -/
partial def console (settings : Console.Settings) (buffer : String) (m : Machine) : IO Unit := do
  write (Console.promptFor buffer)
  match ← readLine with
  | none => return ()
  | some input =>
    match Console.gather buffer input with
    | .unfinished buffer => console settings buffer m
    | .blank => console settings "" m
    | .quit _ => return ()
    | .ready text =>
      let (_, m) ← showSource settings text m 0
      console settings "" m

end ScriptLang.Main

/-- Runs a script, or the console loop where none is named. -/
def main (args : List String) : IO UInt32 := do
  match Main.readOptions args ⟨none, ⟨.result, false⟩⟩ with
  | .error text =>
    IO.eprintln ("error: " ++ text)
    return 2
  | .ok options =>
    let m := Machine.initial .live
    match options.script with
    | none =>
      Main.console options.settings "" m
      return 0
    | some path =>
      match ← Main.readSource path with
      | .error reason =>
        IO.eprintln ("Error: " ++ reason)
        return 1
      | .ok source =>
        let (success, _) ← Main.showSource options.settings source m 0
        return if success then 0 else 1
