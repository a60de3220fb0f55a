/-
# ScriptLang.Value.Text — values as text and as structured output.

The text of a value quotes strings at every level and is what programs print of all but a bare string.
The structured form keeps data and gives functions and classes by name; a whole number of at most
`2 ^ 53` is written as an integer.
-/
import ScriptLang.Value
import ScriptLang.Json
import ScriptLang.Number.Whole

namespace ScriptLang

/-- The largest size up to which every whole number is a binary64 number, `2 ^ 53`. -/
def largestExact : Nat := 0x20000000000000

/-- A number in structured output. -/
def Number.toJson (x : Float) : Json :=
  match Number.whole? x with
  | some n => if n.natAbs ≤ largestExact then .int n else .float x
  | none => if Binary64.isFinite x then .float x else .str (Number.text x)

namespace Value

mutual

/-- The text of a value. -/
def text : Value → String
  | null => "null"
  | number x => Number.text x
  | string s => "\"" ++ s ++ "\""
  | bool b => if b then "true" else "false"
  | array _ elements => "[" ++ elementsText elements ++ "]"
  | object _ [] => "\x7b\x7d"
  | object _ (entry :: rest) => "\x7b " ++ propertiesText (entry :: rest) ++ " \x7d"
  | function f => f.declaration.shownName
  | native _ _ => "native function"
  | classValue c => "class " ++ c.declaration.name

/-- Elements with commas between them. -/
def elementsText : List Value → String
  | [] => ""
  | [v] => text v
  | v :: rest => text v ++ ", " ++ elementsText rest

/-- Properties with commas between them. -/
def propertiesText : List (String × Value) → String
  | [] => ""
  | [(key, v)] => key ++ ": " ++ text v
  | (key, v) :: rest => key ++ ": " ++ text v ++ ", " ++ propertiesText rest

end

mutual

/-- The structured form of a value. -/
def toJson : Value → Json
  | null => .null
  | number x => Number.toJson x
  | string s => .str s
  | bool b => .bool b
  | array _ elements => .arr (elementsJson elements)
  | object _ properties => .obj (propertiesJson properties)
  | function f => .str f.declaration.shownName
  | native _ _ => .str "native function"
  | classValue c => .str ("class " ++ c.declaration.name)

/-- Elements in order. -/
def elementsJson : List Value → List Json
  | [] => []
  | v :: rest => toJson v :: elementsJson rest

/-- Properties in order. -/
def propertiesJson : List (String × Value) → List (String × Json)
  | [] => []
  | (key, v) :: rest => (key, toJson v) :: propertiesJson rest

end

end Value

end ScriptLang
