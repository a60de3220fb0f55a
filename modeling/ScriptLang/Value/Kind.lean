/-
# ScriptLang.Value.Kind — the kinds of value.
-/

namespace ScriptLang

/-- What a value is, as messages name it. -/
inductive ValueKind where
  | null | number | string | boolean | array | object | function | native | classObject
deriving DecidableEq, Repr

/-- The name of a kind of value. -/
def ValueKind.name : ValueKind → String
  | null => "null"
  | number => "number"
  | string => "string"
  | boolean => "boolean"
  | array => "array"
  | object => "object"
  | function => "function"
  | native => "native-function"
  | classObject => "class"

end ScriptLang
