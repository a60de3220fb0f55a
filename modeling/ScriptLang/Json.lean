/-
# ScriptLang.Json — structured output.

A tree of the JSON kinds, where whole numbers and binary64 numbers are told apart, and its two layouts:
compact, with nothing between the signs, and indented by two spaces a level with one item a line.
-/
import ScriptLang.Number.Text

namespace ScriptLang

/-- A JSON tree.  The entries of an object stand in the order they are written in. -/
inductive Json where
  | null
  | bool (b : Bool)
  | int (n : Int)
  | float (x : Float)
  | str (s : String)
  | arr (items : List Json)
  | obj (entries : List (String × Json))

namespace Json

/-- A character inside quotes.  Quotes, backslashes and the control characters of ASCII are escaped. -/
def escape (c : Char) : List Char :=
  if c = '"' then ['\\', '"']
  else if c = '\\' then ['\\', '\\']
  else if c = '\n' then ['\\', 'n']
  else if c = '\r' then ['\\', 'r']
  else if c = '\t' then ['\\', 't']
  else if c.toNat = 8 then ['\\', 'b']
  else if c.toNat = 12 then ['\\', 'f']
  else if c.toNat < 32 then
    ['\\', 'u', '0', '0', Nat.digitChar (c.toNat / 16), Nat.digitChar (c.toNat % 16)]
  else [c]

/-- A text in quotes. -/
def quote (s : String) : String := "\"" ++ String.ofList (s.toList.flatMap escape) ++ "\""

/-- A binary64 number.  What is not finite has no number in JSON and is null. -/
def floatText (x : Float) : String :=
  if Binary64.isFinite x then Number.structuredText x else "null"

/-- Two blanks for each level of nesting. -/
def indent (depth : Nat) : String := String.ofList (List.replicate (2 * depth) ' ')

mutual

/-- The compact layout of a tree, written after `done`. -/
def compactAfter (done : String) : Json → String
  | null => done ++ "null"
  | bool b => done ++ if b then "true" else "false"
  | int n => done ++ toString n
  | float x => done ++ floatText x
  | str s => done ++ quote s
  | arr [] => done ++ "[]"
  | arr (item :: rest) => compactItems (compactAfter (done ++ "[") item) rest ++ "]"
  | obj [] => done ++ "\x7b\x7d"
  | obj ((key, value) :: rest) =>
    compactEntries (compactAfter (done ++ "\x7b" ++ quote key ++ ":") value) rest ++ "\x7d"

/-- Items with a comma before each. -/
def compactItems (done : String) : List Json → String
  | [] => done
  | item :: rest => compactItems (compactAfter (done ++ ",") item) rest

/-- Entries with a comma before each. -/
def compactEntries (done : String) : List (String × Json) → String
  | [] => done
  | (key, value) :: rest =>
    compactEntries (compactAfter (done ++ "," ++ quote key ++ ":") value) rest

end

/-- The compact layout. -/
def compact (j : Json) : String := compactAfter "" j

mutual

/-- The indented layout of a tree at a given depth, written after `done` and the indent that stands
there. -/
def indentedAfter (depth : Nat) (done : String) : Json → String
  | null => done ++ "null"
  | bool b => done ++ if b then "true" else "false"
  | int n => done ++ toString n
  | float x => done ++ floatText x
  | str s => done ++ quote s
  | arr [] => done ++ "[]"
  | arr (item :: rest) =>
    let first := indentedAfter (depth + 1) (done ++ "[\n" ++ indent (depth + 1)) item
    indentedItems (depth + 1) first rest ++ "\n" ++ indent depth ++ "]"
  | obj [] => done ++ "\x7b\x7d"
  | obj ((key, value) :: rest) =>
    let start := done ++ "\x7b\n" ++ indent (depth + 1) ++ quote key ++ ": "
    let first := indentedAfter (depth + 1) start value
    indentedEntries (depth + 1) first rest ++ "\n" ++ indent depth ++ "\x7d"

/-- Items, each on a line of its own after a comma. -/
def indentedItems (depth : Nat) (done : String) : List Json → String
  | [] => done
  | item :: rest =>
    indentedItems depth (indentedAfter depth (done ++ ",\n" ++ indent depth) item) rest

/-- Entries, each on a line of its own after a comma. -/
def indentedEntries (depth : Nat) (done : String) : List (String × Json) → String
  | [] => done
  | (key, value) :: rest =>
    let start := done ++ ",\n" ++ indent depth ++ quote key ++ ": "
    indentedEntries depth (indentedAfter depth start value) rest

end

/-- The indented layout. -/
def indented (j : Json) : String := indentedAfter 0 "" j

/-- A text, or null where there is none. -/
def ofText? (s : Option String) : Json := s.elim null str

end Json

end ScriptLang
