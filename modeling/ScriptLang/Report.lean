/-
# ScriptLang.Report — an error shown in its source.

A report quotes the line an error points at, puts carets under the characters it names, and adds a hint
where one is known.  The carets stand under the right characters also after tabs, because the padding
before them repeats the tabs of the line.
-/
import ScriptLang.Error
import ScriptLang.Text.Lines

namespace ScriptLang.Report

/-- Is `part` somewhere in a text? -/
def occurs (part : List Char) : List Char → Bool
  | [] => part.isEmpty
  | c :: cs => part.isPrefixOf (c :: cs) || occurs part cs

/-- What to try after a message that holds a given phrase, the first phrase that fits deciding. -/
def hints : List (String × String) :=
  [("declared constant", "declare with 'let' instead of 'const' to make it reassignable"),
   ("by zero", "check the divisor first, or leave strict mode to get NaN"),
   ("is not a function", "make sure the function is declared before this line"),
   ("does not exist", "declare it with 'let' or 'const' first"),
   ("already defined", "reassign with '=' instead of declaring again"),
   ("does not have property", "use Object.has(\"key\", object) to check before reading"),
   ("cannot return in a loop", "use break, then return after the loop"),
   ("top level", "assign DUM.exports to produce a result")]

/-- The hint for a message.  Case does not matter.  Only ASCII letters need lowering: no phrase can match
in the lower case of another character. -/
def hint? (message : String) : Option String :=
  let low := message.toList.map Char.toLower
  (hints.find? (fun (phrase, _) => occurs phrase.toList low)).map Prod.snd

/-- A text set flush right in a given width. -/
def flushRight (width : Nat) (s : String) : String :=
  String.ofList (List.replicate (width - s.length) ' ') ++ s

/-- The characters that bring carets under column `col` of a line. -/
def padding (line : List Char) (col : Nat) : List Char :=
  (line.take (col - 1)).map (fun c => if c = '\t' then '\t' else ' ')

/-- The line of a source that a span is on; empty if the source has no such line. -/
def quotedLine (source : String) (span : Span) : List Char :=
  ((Text.lines source)[span.line - 1]?).getD []

/-- A report with a given kind, message and hint. -/
def render (source kind : String) (span : Span) (message : String) (hint : Option String) : String :=
  let line := quotedLine source span
  let width := (toString span.line).length
  let margin := flushRight width " "
  let carets := List.replicate (max span.length 1) '^'
  "error[" ++ kind ++ "]: " ++ message ++ "\n" ++
    margin ++ "--> line " ++ span.text ++ "\n" ++
    margin ++ " |\n" ++
    toString span.line ++ " | " ++ String.ofList line ++ "\n" ++
    margin ++ " | " ++ String.ofList (padding line span.col ++ carets) ++ "\n" ++
    match hint with
    | none => ""
    | some text => margin ++ " |\n" ++ margin ++ " = hint: " ++ text ++ "\n"

/-- The report of an error in the source it came from. -/
def ofError (source : String) (error : Error) : String :=
  render source error.label error.span error.message (hint? error.message)

end ScriptLang.Report
