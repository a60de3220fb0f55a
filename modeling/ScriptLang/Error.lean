/-
# ScriptLang.Error — what can go wrong, and what is said of it.

There are three stages at which a source can fail: it cannot be cut into tokens, its tokens are no
program, or the program fails when it runs.  An error is a cause and a span; the wording of every cause
stands in one function here.
-/
import ScriptLang.Token.Scan
import ScriptLang.Syntax
import ScriptLang.Syntax.Fault
import ScriptLang.Value.Kind
import ScriptLang.Number.Text

namespace ScriptLang

/-- A value of the wrong kind. -/
inductive TypeFault where
  | operands (operator : Operator) (left right : ValueKind)
  | nativeComparison
  | index (found : ValueKind)
  | loopStep (found : ValueKind)
  | loopStart (found : ValueKind)
  | notAClass (found : ValueKind)
  | objectKey (found : ValueKind)
  | dotReadOfArray
  | memberRead (found : ValueKind)
  | memberWriteToExpression
  | dotWriteToArray
  | memberWrite (found : ValueKind)
  | badTarget
  | classCall (name : String)
  | call (found : ValueKind)
  | superclass (name parent : String) (found : ValueKind)
deriving DecidableEq, Repr

/-- What is said of a value of the wrong kind. -/
def TypeFault.text : TypeFault → String
  | operands operator left right =>
    "cannot apply '" ++ operator.symbol ++ "' to " ++ left.name ++ " and " ++ right.name
  | nativeComparison => "cannot compare a native function with '=='"
  | index found => "array index must be a number, got " ++ found.name
  | loopStep found => "for loop iterator must produce a number, got " ++ found.name
  | loopStart found => "for loop variable must start as a number, got " ++ found.name
  | notAClass found => "cannot instantiate " ++ found.name ++ " as it is not a class"
  | objectKey found => "object keys must be strings, got " ++ found.name
  | dotReadOfArray => "array elements are read with [index], not '.'"
  | memberRead found => "cannot read a member of " ++ found.name
  | memberWriteToExpression => "only members of a variable can be reassigned, e.g. `obj.key = value`"
  | dotWriteToArray => "array elements are written with [index], not '.'"
  | memberWrite found => "cannot set a member of " ++ found.name
  | badTarget => "invalid reassignment target"
  | classCall name => "class " ++ name ++ " must be instantiated with 'new'"
  | call found => "cannot call " ++ found.name ++ " as it is not a function"
  | superclass name parent found =>
    "class " ++ name ++ " cannot extend '" ++ parent ++ "' as it is " ++ found.name

/-- A number that is no index of an array. -/
inductive RangeFault where
  | notWhole (index : Float)
  | outOfBounds (index : Int) (length : Nat)
  | emptyArray

/-- What is said of a bad index. -/
def RangeFault.text : RangeFault → String
  | notWhole index => "array index " ++ Number.text index ++ " is not a whole number"
  | outOfBounds index length =>
    "index " ++ toString index ++ " is out of bounds for an array of length " ++ toString length
  | emptyArray => "cannot assign into an empty array"

/-- A `break` or `return` that nothing receives. -/
inductive FlowFault where
  | topLevelReturn
  | topLevelBreak
  | returnInLoop
deriving DecidableEq, Repr

/-- What is said of a misplaced `break` or `return`. -/
def FlowFault.text : FlowFault → String
  | topLevelReturn => "cannot return from the top level, assign DUM.exports instead"
  | topLevelBreak => "cannot break outside of a loop"
  | returnInLoop => "cannot return in a loop, use break"

/-- A native function that cannot use its arguments. -/
inductive NativeFault where
  | pathMissing
  | pathNotString (found : ValueKind)
  | tooManyPaths (count : Nat)
  | unreadable (path reason : String)
  | argumentNotString (found : ValueKind)
  | keyNotFirst
  | keyNotString (found : ValueKind)
  | notAnObject (found : ValueKind)
  | severalObjects
  | keyAndObjectMissing
  | keyAndObjectsMissing
  | notOneObject (count : Nat)
deriving DecidableEq, Repr

/-- What is said of a native function's arguments. -/
def NativeFault.text : NativeFault → String
  | pathMissing => "expected a file path"
  | pathNotString found => "file path must be a string, got " ++ found.name
  | tooManyPaths count => "expected 1 file path, got " ++ toString count ++ " arguments"
  | unreadable path reason => "cannot read '" ++ path ++ "': " ++ reason
  | argumentNotString found => "arguments must be strings, got " ++ found.name
  | keyNotFirst => "the key comes first, e.g. Object.has(\"key\", object)"
  | keyNotString found => "key must be a string, got " ++ found.name
  | notAnObject found => "expected an object, got " ++ found.name
  | severalObjects => "expected a key and one object; use Object.allHas to check several objects"
  | keyAndObjectMissing => "expected a key and an object"
  | keyAndObjectsMissing => "expected a key and objects to check"
  | notOneObject count => "expected 1 object, got " ++ toString count ++ " arguments"

mutual

/-- Why a program fails when it runs.  `source` is the failure of another source that the program ran. -/
inductive RuntimeFault where
  | unboundName (name : String)
  | duplicateName (name : String)
  | constantReassign (name : String)
  | type (fault : TypeFault)
  | range (fault : RangeFault)
  | divisionByZero (numerator : Float)
  | flow (fault : FlowFault)
  | missingProperty (key : String)
  | missingArguments (function : String) (missing : Nat)
  | native (function : String) (fault : NativeFault)
  | source (error : Error)

/-- The failure of a source. -/
inductive Error where
  | scan (error : ScanError)
  | parse (error : ParseError)
  | runtime (span : Span) (fault : RuntimeFault)

end

/-- Why a program fails when it runs, and where. -/
structure RuntimeError where
  span : Span
  fault : RuntimeFault

/-- A runtime error as the failure of its source. -/
def RuntimeError.toError (e : RuntimeError) : Error := .runtime e.span e.fault

namespace Error

/-- Where a source fails. -/
def span : Error → Span
  | scan e => e.span
  | parse e => e.span
  | runtime s _ => s

/-- The stage at which a source fails. -/
def label : Error → String
  | scan _ => "lex"
  | parse _ => "parse"
  | runtime _ _ => "runtime"

end Error

mutual

/-- What is said of a runtime fault. -/
def RuntimeFault.message : RuntimeFault → String
  | .unboundName name => "cannot resolve '" ++ name ++ "' as it does not exist"
  | .duplicateName name => "'" ++ name ++ "' is already defined in this scope"
  | .constantReassign name => "cannot reassign '" ++ name ++ "' as it was declared constant"
  | .type fault => "type error: " ++ fault.text
  | .range fault => "range error: " ++ fault.text
  | .divisionByZero numerator =>
    "cannot divide " ++ Number.text numerator ++ " by zero in strict mode"
  | .flow fault => fault.text
  | .missingProperty key => "object does not have property '" ++ key ++ "'"
  | .missingArguments function missing =>
    "missing " ++ toString missing ++ " argument(s) in call to " ++ function
  | .native function fault => function ++ ": " ++ fault.text
  | .source error => error.text

/-- The whole of an error in one line: its stage, its message and its place. -/
def Error.text : Error → String
  | .scan e =>
    "lex error: " ++ (e.fault.text ++ " (found '" ++ e.found.toString ++ "')") ++ " at " ++ e.span.text
  | .parse e => "parse error: " ++ e.fault.text ++ " at " ++ e.span.text
  | .runtime span fault => "runtime error: " ++ fault.message ++ " at " ++ span.text

end

/-- What is said of an error, without its stage and place. -/
def Error.message : Error → String
  | .scan e => e.fault.text ++ " (found '" ++ e.found.toString ++ "')"
  | .parse e => e.fault.text
  | .runtime _ fault => fault.message

end ScriptLang
