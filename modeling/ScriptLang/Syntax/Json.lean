/-
# ScriptLang.Syntax.Json — tokens and programs as structured output.

A form with fields is an object with its fields in a fixed order; a form of several kinds is an object
with one entry, named for the kind; a kind without fields is its name.
-/
import ScriptLang.Json
import ScriptLang.Token
import ScriptLang.Syntax

namespace ScriptLang

/-- A span with its fields. -/
def Span.toJson (s : Span) : Json := .obj [("line", .int s.line), ("col", .int s.col), ("length", .int s.length)]

/-- A token with its fields. -/
def Token.toJson (t : Token) : Json :=
  .obj [("token_type", .str t.kind.name), ("value", .str t.value), ("span", t.span.toJson)]

/-- The name of a visibility. -/
def Visibility.toJson : Visibility → Json
  | visible => .str "Public"
  | hidden => .str "Private"

/-- A node: its kind and its span. -/
def nodeJson (span : Span) (kind : Json) : Json := .obj [("kind", kind), ("span", span.toJson)]

/-- A visibility that may be missing. -/
def visibilityJson (v : Option Visibility) : Json := v.elim .null Visibility.toJson

mutual

/-- An expression as a node. -/
def Expr.toJson : Expr → Json
  | .identifier s name => nodeJson s (.obj [("Identifier", .str name)])
  | .number s x => nodeJson s (.obj [("NumericLiteral", .float x)])
  | .string s text => nodeJson s (.obj [("StringLiteral", .str text)])
  | .null s => nodeJson s (.str "NullLiteral")
  | .object s properties => nodeJson s (.obj [("ObjectLiteral", .arr (propertiesJson properties))])
  | .array s elements => nodeJson s (.obj [("ArrayLiteral", .arr (expressionsJson elements))])
  | .binary s left operator right =>
    nodeJson s (.obj [("Binary", .obj
      [("left", left.toJson), ("operator", .str operator.symbol), ("right", right.toJson)])])
  | .assign s target value =>
    nodeJson s (.obj [("Reassignment", .obj [("target", target.toJson), ("value", value.toJson)])])
  | .member s object property computed =>
    nodeJson s (.obj [("Member", .obj
      [("object", object.toJson), ("property", property.toJson), ("computed", .bool computed)])])
  | .call s callee arguments =>
    nodeJson s (.obj [("Call", .obj
      [("callee", callee.toJson), ("arguments", .arr (expressionsJson arguments))])])
  | .function s declaration => nodeJson s (.obj [("Function", declaration.toJson)])
  | .instantiate s target arguments =>
    nodeJson s (.obj [("ClassInstantiation", .obj
      [("class", target.toJson), ("arguments", .arr (expressionsJson arguments))])])

/-- Expressions in order. -/
def expressionsJson : List Expr → List Json
  | [] => []
  | e :: rest => e.toJson :: expressionsJson rest

/-- An expression that may be missing. -/
def optionalJson : Option Expr → Json
  | none => .null
  | some e => e.toJson

/-- A property with its fields. -/
def Property.toJson : Property → Json
  | ⟨key, value, span⟩ =>
    .obj [("key", .str key), ("value", optionalJson value), ("span", span.toJson)]

/-- Properties in order. -/
def propertiesJson : List Property → List Json
  | [] => []
  | p :: rest => p.toJson :: propertiesJson rest

/-- A variable declaration with its fields. -/
def VariableDeclaration.toJson : VariableDeclaration → Json
  | ⟨name, constant, value, visibility⟩ =>
    .obj [("identifier", .str name), ("constant", .bool constant), ("value", optionalJson value),
      ("visibility", visibilityJson visibility)]

/-- A function declaration with its fields. -/
def FunctionDeclaration.toJson : FunctionDeclaration → Json
  | ⟨name, parameters, body, isAsync, visibility⟩ =>
    .obj [("name", .ofText? name), ("parameters", .arr (parameters.map .str)),
      ("body", .arr (statementsJson body)), ("is_async", .bool isAsync),
      ("visibility", visibilityJson visibility)]

/-- A class declaration with its fields. -/
def ClassDeclaration.toJson : ClassDeclaration → Json
  | ⟨name, superclass, members⟩ =>
    .obj [("name", .str name), ("superclass", .ofText? superclass),
      ("members", .arr (membersJson members))]

/-- A member with its fields. -/
def Member.toJson : Member → Json
  | .property visibility declaration =>
    .obj [("visibility", visibility.toJson), ("kind", .obj [("Property", declaration.toJson)])]
  | .method visibility declaration =>
    .obj [("visibility", visibility.toJson), ("kind", .obj [("Method", declaration.toJson)])]

/-- Members in order. -/
def membersJson : List Member → List Json
  | [] => []
  | m :: rest => m.toJson :: membersJson rest

/-- A counter loop with its fields. -/
def ForLoop.toJson : ForLoop → Json
  | ⟨counter, condition, iterator, body⟩ =>
    .obj [("variable", counter.toJson), ("condition", condition.toJson),
      ("iterator", iterator.toJson), ("body", .arr (statementsJson body))]

/-- A statement as a node. -/
def Stmt.toJson : Stmt → Json
  | .variableDeclaration s declaration =>
    nodeJson s (.obj [("VariableDeclaration", declaration.toJson)])
  | .functionDeclaration s declaration =>
    nodeJson s (.obj [("FunctionDeclaration", declaration.toJson)])
  | .classDeclaration s declaration => nodeJson s (.obj [("ClassDeclaration", declaration.toJson)])
  | .ifBlock s condition body =>
    nodeJson s (.obj [("If", .obj
      [("condition", condition.toJson), ("body", .arr (statementsJson body))])])
  | .whileLoop s condition body =>
    nodeJson s (.obj [("While", .obj
      [("condition", condition.toJson), ("body", .arr (statementsJson body))])])
  | .forLoop s loop => nodeJson s (.obj [("For", loop.toJson)])
  | .breakLoop s => nodeJson s (.str "Break")
  | .returnValue s value => nodeJson s (.obj [("Return", value.toJson)])
  | .expression s value => nodeJson s (.obj [("Expression", value.toJson)])

/-- Statements in order. -/
def statementsJson : List Stmt → List Json
  | [] => []
  | s :: rest => s.toJson :: statementsJson rest

end

/-- A program with its body. -/
def Program.toJson (p : Program) : Json := .obj [("body", .arr (statementsJson p))]

end ScriptLang
