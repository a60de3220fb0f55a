/-
# ScriptLang.Proofs.Syntax.Names — what a program mentions, and whether it calls.

The names of a tree are all names that stand in it: variables that it reads or assigns to, and what it
declares, the parameters and bodies of its functions and classes included.  A piece of code calls
something if a call or a `new` stands in it that is evaluated with it; the bodies of functions and
classes are evaluated only by calls.
-/
import ScriptLang.Syntax

namespace ScriptLang

/-! ## Names -/

mutual

/-- The names in an expression. -/
def Expr.names : Expr → List String
  | .identifier _ name => [name]
  | .number _ _ | .string _ _ | .null _ => []
  | .object _ ps => namesOfProperties ps
  | .array _ es => namesOfExprs es
  | .binary _ left _ right => left.names ++ right.names
  | .assign _ target value => target.names ++ value.names
  | .member _ object property _ => object.names ++ property.names
  | .call _ callee arguments => callee.names ++ namesOfExprs arguments
  | .function _ d => d.names
  | .instantiate _ target arguments => target.names ++ namesOfExprs arguments

/-- The names in expressions. -/
def namesOfExprs : List Expr → List String
  | [] => []
  | e :: rest => e.names ++ namesOfExprs rest

/-- The names in a value that may be left out. -/
def namesOfValue : Option Expr → List String
  | none => []
  | some e => e.names

/-- The names in an entry of an object literal.  The key is one where it stands for its value too. -/
def Property.names : Property → List String
  | ⟨key, none, _⟩ => [key]
  | ⟨_, some e, _⟩ => e.names

/-- The names in entries of an object literal. -/
def namesOfProperties : List Property → List String
  | [] => []
  | p :: rest => p.names ++ namesOfProperties rest

/-- The names in a declaration of a variable. -/
def VariableDeclaration.names : VariableDeclaration → List String
  | ⟨name, _, value, _⟩ => name :: namesOfValue value

/-- The names in a declaration of a function. -/
def FunctionDeclaration.names : FunctionDeclaration → List String
  | ⟨name, parameters, body, _, _⟩ => name.toList ++ parameters ++ namesOfStmts body

/-- The names in a statement. -/
def Stmt.names : Stmt → List String
  | .variableDeclaration _ d => d.names
  | .functionDeclaration _ d => d.names
  | .classDeclaration _ d => d.names
  | .ifBlock _ condition body | .whileLoop _ condition body => condition.names ++ namesOfStmts body
  | .forLoop _ loop => loop.names
  | .breakLoop _ => []
  | .returnValue _ e | .expression _ e => e.names

/-- The names in statements. -/
def namesOfStmts : List Stmt → List String
  | [] => []
  | s :: rest => s.names ++ namesOfStmts rest

/-- The names in a loop over a counter. -/
def ForLoop.names : ForLoop → List String
  | ⟨counter, condition, iterator, body⟩ =>
    counter.names ++ condition.names ++ iterator.names ++ namesOfStmts body

/-- The names in a class. -/
def ClassDeclaration.names : ClassDeclaration → List String
  | ⟨name, superclass, members⟩ => name :: superclass.toList ++ namesOfMembers members

/-- The names in a member of a class.  A method is a variable of its instance under the name that it is
shown by. -/
def Member.names : Member → List String
  | .property _ d => d.names
  | .method _ d => d.shownName :: d.names

/-- The names in members of a class. -/
def namesOfMembers : List Member → List String
  | [] => []
  | m :: rest => m.names ++ namesOfMembers rest

end

/-- The names in a program. -/
def Program.names (p : Program) : List String := namesOfStmts p

/-! ## Calls -/

mutual

/-- Does an expression call something? -/
def Expr.calls : Expr → Bool
  | .identifier _ _ | .number _ _ | .string _ _ | .null _ | .function _ _ => false
  | .object _ ps => propertiesCall ps
  | .array _ es => exprsCall es
  | .binary _ left _ right => left.calls || right.calls
  | .assign _ target value => target.calls || value.calls
  | .member _ object property _ => object.calls || property.calls
  | .call _ _ _ | .instantiate _ _ _ => true

/-- Does one of the expressions call something? -/
def exprsCall : List Expr → Bool
  | [] => false
  | e :: rest => e.calls || exprsCall rest

/-- Does an entry of an object literal call something? -/
def Property.calls : Property → Bool
  | ⟨_, none, _⟩ => false
  | ⟨_, some e, _⟩ => e.calls

/-- Does one of the entries call something? -/
def propertiesCall : List Property → Bool
  | [] => false
  | p :: rest => p.calls || propertiesCall rest

end

/-- Does a value call something, if there is one? -/
def valueCalls : Option Expr → Bool
  | none => false
  | some e => e.calls

mutual

/-- Does a statement call something? -/
def Stmt.calls : Stmt → Bool
  | .variableDeclaration _ d => valueCalls d.value
  | .functionDeclaration _ _ | .classDeclaration _ _ | .breakLoop _ => false
  | .ifBlock _ condition body | .whileLoop _ condition body => condition.calls || stmtsCall body
  | .forLoop _ loop => loop.calls
  | .returnValue _ e | .expression _ e => e.calls

/-- Does a loop over a counter call something? -/
def ForLoop.calls : ForLoop → Bool
  | ⟨counter, condition, iterator, body⟩ =>
    valueCalls counter.value || condition.calls || iterator.calls || stmtsCall body

/-- Does one of the statements call something? -/
def stmtsCall : List Stmt → Bool
  | [] => false
  | s :: rest => s.calls || stmtsCall rest

end

/-- Does a program call something? -/
def Program.calls (p : Program) : Bool := stmtsCall p

end ScriptLang
