/-
# ScriptLang.Syntax.Fault — why tokens are not a program.

A reader of tokens fails in one of two ways: it needs one kind of token at a place and finds another, or
it has read a phrase that breaks a rule of the language.  Each way is a value here; the wording stands in
one function.
-/
import ScriptLang.Token

namespace ScriptLang

/-- The place in a phrase at which one kind of token is needed. -/
inductive Place where
  | after (kind : Kind)
  | afterDeclarator
  | inVariableDeclaration
  | functionStart
  | parametersStart | parametersEnd
  | functionBodyStart
  | classBodyStart | classBodyEnd
  | blockEnd
  | bodyStart
  | conditionEnd
  | loopVariable
  | afterLoopVariable | afterLoopCondition
  | loopIterator
  | loopHeaderEnd | loopBodyStart
  | classArguments
  | callStart | argumentsEnd
  | computedMemberEnd
  | parenthesesEnd
  | betweenElements | arrayEnd
  | objectKey | betweenProperties | objectEnd
deriving DecidableEq, Repr

/-- How a place is described. -/
def Place.text : Place → String
  | after kind => "after " ++ kind.text
  | afterDeclarator => "after 'let' or 'const'"
  | inVariableDeclaration => "in variable declaration"
  | functionStart => "to declare a function"
  | parametersStart => "to open the parameter list"
  | parametersEnd => "to close the parameter list"
  | functionBodyStart => "to open the function body"
  | classBodyStart => "to open the class body"
  | classBodyEnd => "to close the class body"
  | blockEnd => "to close the block"
  | bodyStart => "to open the body"
  | conditionEnd => "to close the condition"
  | loopVariable => "to declare the loop variable"
  | afterLoopVariable => "after the loop variable"
  | afterLoopCondition => "after the loop condition"
  | loopIterator => "as the for loop iterator"
  | loopHeaderEnd => "to close the for loop header"
  | loopBodyStart => "to open the loop body"
  | classArguments => "after the class to instantiate"
  | callStart => "to call a function"
  | argumentsEnd => "to close the argument list"
  | computedMemberEnd => "to close the computed member"
  | parenthesesEnd => "to close the parenthesized expression"
  | betweenElements => "between array elements"
  | arrayEnd => "to close the array literal"
  | objectKey => "as an object key"
  | betweenProperties => "between object properties"
  | objectEnd => "to close the object literal"

/-- A rule of the language that a phrase breaks. -/
inductive RuleBreach where
  | visibilityOutsideClass
  | constantWithoutValue (name : String)
  | anonymousMember
  | parameterNotIdentifier (found : Kind) (value : String)
  | classWithParameters (name : String)
  | unmarkedProperty (name : String)
  | anonymousMethod
  | returningConstructor
  | unmarkedMethod (name : String)
  | notAMember (found : Kind) (value : String)
  | counterNotNumber (name : String)
  | iteratorNotStep (name : String)
  | badTarget
  | badNumber (text : String)
  | unsupportedWord (value : String)
  | notAnExpression (found : Kind) (value : String)
  | tooDeep
deriving DecidableEq, Repr

/-- What is said of a breach. -/
def RuleBreach.text : RuleBreach → String
  | visibilityOutsideClass => "'public' and 'private' may only mark members of a class body"
  | constantWithoutValue name => "constant '" ++ name ++ "' must be given a value"
  | anonymousMember => "anonymous functions cannot be public or private"
  | parameterNotIdentifier found value =>
    "function parameters must be plain identifiers, got " ++ found.text ++ " '" ++ value ++ "'"
  | classWithParameters name => "class '" ++ name ++ "' is not a function and takes no parameters"
  | unmarkedProperty name => "class property '" ++ name ++ "' must be marked public or private"
  | anonymousMethod => "class methods must be named"
  | returningConstructor => "a constructor cannot return a value"
  | unmarkedMethod name => "class method '" ++ name ++ "' must be marked public or private"
  | notAMember found value =>
    "class bodies may only contain property and method declarations, got " ++ found.text ++ " '" ++
      value ++ "'"
  | counterNotNumber name =>
    "for loop variable '" ++ name ++ "' must be initialized with a number literal"
  | iteratorNotStep name =>
    "for loop iterator must reassign '" ++ name ++ "', e.g. " ++ name ++ "++"
  | badTarget => "invalid reassignment target"
  | badNumber text => "'" ++ text ++ "' is not a valid number"
  | unsupportedWord value => "'" ++ value ++ "' is not supported; refer to class members by name"
  | notAnExpression found value => "expected an expression, got " ++ found.text ++ " '" ++ value ++ "'"
  | tooDeep => "phrases are nested too deeply"

/-- Why tokens are not a program.  `tooDeep` is the answer of a reader whose bound on nesting ran out;
the bound that a program is read with is above the nesting of its tokens. -/
inductive ParseFault where
  | unexpected (expected found : Kind) (value : String) (place : Place)
  | invalid (breach : RuleBreach)
deriving DecidableEq, Repr

/-- What is said of a fault. -/
def ParseFault.text : ParseFault → String
  | unexpected expected found value place =>
    "expected " ++ expected.text ++ " " ++ place.text ++ ", got " ++ found.text ++ " '" ++ value ++ "'"
  | invalid breach => breach.text

/-- A fault and the token it was found at. -/
structure ParseError where
  span : Span
  fault : ParseFault
deriving DecidableEq, Repr

end ScriptLang
