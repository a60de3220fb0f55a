/-
# ScriptLang.Syntax — programs as trees.

A program is a list of statements.  Every expression, statement and object property keeps the span of the
token it begins with.  Three forms that are written differently share one tree: `x += e`, `x++` and
`x = x + e` are all assignments, and a `return` without a value returns `null`.
-/
import ScriptLang.Span

namespace ScriptLang

/-- The operators between two values. -/
inductive Operator where
  | add | subtract | multiply | divide | modulo
  | equal | notEqual | less | lessEqual | greater | greaterEqual
  | nullish
deriving DecidableEq, Repr

/-- How an operator is written. -/
def Operator.symbol : Operator → String
  | add => "+" | subtract => "-" | multiply => "*" | divide => "/" | modulo => "%"
  | equal => "==" | notEqual => "!=" | less => "<" | lessEqual => "<=" | greater => ">"
  | greaterEqual => ">=" | nullish => "??"

/-- Whether a class member can be seen from outside its instance. -/
inductive Visibility where
  | visible
  | hidden
deriving DecidableEq, Repr

mutual

/-- An expression. -/
inductive Expr where
  | identifier (span : Span) (name : String)
  | number (span : Span) (value : Float)
  | string (span : Span) (text : String)
  | null (span : Span)
  | object (span : Span) (properties : List Property)
  | array (span : Span) (elements : List Expr)
  | binary (span : Span) (left : Expr) (operator : Operator) (right : Expr)
  | assign (span : Span) (target value : Expr)
  | member (span : Span) (object property : Expr) (computed : Bool)
  | call (span : Span) (callee : Expr) (arguments : List Expr)
  | function (span : Span) (declaration : FunctionDeclaration)
  | instantiate (span : Span) (target : Expr) (arguments : List Expr)

/-- One entry of an object literal.  An entry without a value takes it from the variable of its name. -/
structure Property where
  key : String
  value : Option Expr
  span : Span

/-- A variable or constant.  Only members of a class have a visibility. -/
structure VariableDeclaration where
  name : String
  constant : Bool
  value : Option Expr
  visibility : Option Visibility

/-- A function with its body.  `isAsync` is kept and changes nothing. -/
structure FunctionDeclaration where
  name : Option String
  parameters : List String
  body : List Stmt
  isAsync : Bool
  visibility : Option Visibility

/-- A statement. -/
inductive Stmt where
  | variableDeclaration (span : Span) (declaration : VariableDeclaration)
  | functionDeclaration (span : Span) (declaration : FunctionDeclaration)
  | classDeclaration (span : Span) (declaration : ClassDeclaration)
  | ifBlock (span : Span) (condition : Expr) (body : List Stmt)
  | whileLoop (span : Span) (condition : Expr) (body : List Stmt)
  | forLoop (span : Span) (loop : ForLoop)
  | breakLoop (span : Span)
  | returnValue (span : Span) (value : Expr)
  | expression (span : Span) (value : Expr)

/-- A loop over a counter. -/
structure ForLoop where
  counter : VariableDeclaration
  condition : Expr
  iterator : Expr
  body : List Stmt

/-- A class: its name, the name of the class it extends, its members in order. -/
structure ClassDeclaration where
  name : String
  superclass : Option String
  members : List Member

/-- A member of a class. -/
inductive Member where
  | property (visibility : Visibility) (declaration : VariableDeclaration)
  | method (visibility : Visibility) (declaration : FunctionDeclaration)

end

/-- A whole program. -/
abbrev Program := List Stmt

/-- The span of the token an expression begins with. -/
def Expr.span : Expr → Span
  | .identifier s _ | .number s _ | .string s _ | .null s | .object s _ | .array s _ | .binary s _ _ _
  | .assign s _ _ | .member s _ _ _ | .call s _ _ | .function s _ | .instantiate s _ _ => s

/-- The span of the token a statement begins with. -/
def Stmt.span : Stmt → Span
  | .variableDeclaration s _ | .functionDeclaration s _ | .classDeclaration s _ | .ifBlock s _ _
  | .whileLoop s _ _ | .forLoop s _ | .breakLoop s | .returnValue s _ | .expression s _ => s

/-- The name of the method that runs when a class is instantiated. -/
def constructorName : String := "constructor"

/-- How a function without a name is called in texts. -/
def anonymousName : String := "anonymous function"

/-- The name a function is shown by. -/
def FunctionDeclaration.shownName (f : FunctionDeclaration) : String := f.name.getD anonymousName

mutual

/-- Does a statement return from the function that it stands in?  The body of a nested function is
another function's. -/
def Stmt.returns : Stmt → Bool
  | .returnValue _ _ => true
  | .ifBlock _ _ body => returnsIn body
  | .whileLoop _ _ body => returnsIn body
  | .forLoop _ loop => loop.returns
  | _ => false

/-- Does the body of a counter loop return? -/
def ForLoop.returns : ForLoop → Bool
  | ⟨_, _, _, body⟩ => returnsIn body

/-- Does one of the statements return? -/
def returnsIn : List Stmt → Bool
  | [] => false
  | s :: rest => s.returns || returnsIn rest

end

end ScriptLang
