/-
# ScriptLang.Syntax.Grammar — programs from tokens.

Two phrases contain themselves, expressions and statements.  Each rule of the grammar is a reader that is
given readers for these two, and takes a token before it uses one of them; so a reader that may nest `n`
deep is a rule over readers that may nest `n - 1` deep, and a bound above the number of tokens is never
met.  The levels of expressions, from loose to tight: functions and assignments, `new`, equality and
comparison and `??`, sums, products, calls and members, primary expressions.
-/
import ScriptLang.Syntax
import ScriptLang.Syntax.TokenStream
import ScriptLang.Error
import ScriptLang.Number.Literal

namespace ScriptLang

/-- The two phrases that contain themselves, as the rules refer to them, and a bound on the length of
the lists of phrases that the rules read. -/
structure Phrases where
  bound : Nat
  expression : Parse Expr
  statement : Parse Stmt

namespace Grammar

open Parse

/-- The operators of the loosest level that binds two operands. -/
def comparisonOperator? : Kind → Option Operator
  | .sign .equal => some .equal
  | .sign .notEqual => some .notEqual
  | .sign .less => some .less
  | .sign .lessEqual => some .lessEqual
  | .sign .greater => some .greater
  | .sign .greaterEqual => some .greaterEqual
  | .sign .nullish => some .nullish
  | _ => none

/-- The operators of sums. -/
def additiveOperator? : Kind → Option Operator
  | .sign .plus => some .add
  | .sign .minus => some .subtract
  | _ => none

/-- The operators of products. -/
def multiplicativeOperator? : Kind → Option Operator
  | .sign .slash => some .divide
  | .sign .star => some .multiply
  | .sign .percent => some .modulo
  | _ => none

/-- How an assignment sign changes its target: not at all for `=`, by an operator otherwise. -/
inductive Update where
  | replace
  | combine (operator : Operator)
  | step (operator : Operator)
deriving DecidableEq, Repr

/-- The assignment signs. -/
def update? : Kind → Option Update
  | .sign .assign => some .replace
  | .sign .plusPlus => some (.step .add)
  | .sign .minusMinus => some (.step .subtract)
  | .sign .plusEqual => some (.combine .add)
  | .sign .minusEqual => some (.combine .subtract)
  | .sign .starEqual => some (.combine .multiply)
  | .sign .slashEqual => some (.combine .divide)
  | .sign .percentEqual => some (.combine .modulo)
  | _ => none

/-- Does a kind end a list of statements or members? -/
def endsBody (kind : Kind) : Bool := kind = .sign .rightBrace || kind = .eof

/-! ## Lists of phrases -/

/-- Phrases up to the end of a body, with any semicolons before each. -/
def phrasesToEnd {α : Type} (phrase : Parse α) (ends : Kind → Bool) : Nat → Parse (List α)
  | 0 => tooDeep
  | n + 1 => do
    skipSemicolons
    let t ← peek
    if ends t.kind then return []
    else
      let first ← phrase
      let rest ← phrasesToEnd phrase ends n
      return first :: rest

/-- One phrase or more, with commas between them. -/
def phrasesByComma {α : Type} (phrase : Parse α) : Nat → Parse (List α)
  | 0 => tooDeep
  | n + 1 => do
    let first ← phrase
    if ← accept (.sign .comma) then
      let rest ← phrasesByComma phrase n
      return first :: rest
    else return [first]

/-- Any number of phrases up to a closing sign, with a comma after each that is not directly before that
sign. -/
def phrasesInLiteral {α : Type} (phrase : Parse α) (closing : Kind) (between : Place) :
    Nat → Parse (List α)
  | 0 => tooDeep
  | n + 1 => do
    let t ← peek
    if t.kind = closing ∨ t.kind = .eof then return []
    else
      let first ← phrase
      let after ← peek
      if after.kind ≠ closing then
        let _ ← expect (.sign .comma) between
      let rest ← phrasesInLiteral phrase closing between n
      return first :: rest

/-- Operands after `left`, each with an operator before it, grouped to the left. -/
def operandsAfter (operator? : Kind → Option Operator) (operand : Parse Expr) : Nat → Expr → Parse Expr
  | 0, _ => tooDeep
  | n + 1, left => do
    let t ← peek
    match operator? t.kind with
    | none => return left
    | some operator =>
      let _ ← advance
      let right ← operand
      operandsAfter operator? operand n (.binary left.span left operator right)

/-! ## Statements that hold blocks -/

variable (self : Phrases)

/-- A block of statements in braces. -/
def block (place : Place) : Parse (List Stmt) := do
  let _ ← expect (.sign .leftBrace) place
  let body ← phrasesToEnd self.statement endsBody self.bound
  let _ ← expect (.sign .rightBrace) .blockEnd
  return body

/-- A declaration that begins with `let` or `const`. -/
def variableDeclaration (visibility : Option Visibility) : Parse VariableDeclaration := do
  let first ← advance
  let constant := first.kind = .keyword .constWord
  let name ← expectName .afterDeclarator
  let t ← peek
  if t.kind = .sign .semicolon then
    if constant then invalid first.span (.constantWithoutValue name)
    else return ⟨name, false, none, visibility⟩
  else
    let _ ← expect (.sign .assign) .inVariableDeclaration
    let value ← self.expression
    return ⟨name, constant, some value, visibility⟩

/-- A parameter of a function. -/
def parameter : Parse String := do
  let t ← peek
  if t.kind = .identifier then
    let _ ← advance
    return t.value
  else invalid t.span (.parameterNotIdentifier t.kind t.value)

/-- A list in parentheses, after the opening one. -/
def untilParenthesis {α : Type} (phrase : Parse α) (place : Place) : Parse (List α) := do
  let t ← peek
  let items ← if t.kind = .sign .rightParen then pure [] else phrasesByComma phrase self.bound
  let _ ← expect (.sign .rightParen) place
  return items

/-- A declaration that begins with `function` or `async`. -/
def functionDeclaration (visibility : Option Visibility) : Parse FunctionDeclaration := do
  let first ← peek
  let isAsync ← accept (.keyword .asyncWord)
  let _ ← expect (.keyword .functionWord)
    (if isAsync then .after (.keyword .asyncWord) else .functionStart)
  let t ← peek
  let name ← if t.kind = .identifier then do
      let _ ← advance
      pure (some t.value)
    else pure none
  if name.isNone && visibility.isSome then invalid first.span .anonymousMember
  else
    let _ ← expect (.sign .leftParen) .parametersStart
    let parameters ← untilParenthesis self parameter .parametersEnd
    let body ← block self .functionBodyStart
    return ⟨name, parameters, body, isAsync, visibility⟩

/-- How a member is marked. -/
def visibilityMark : Parse (Option Visibility) := do
  let t ← peek
  match t.kind with
  | .keyword .publicWord =>
    let _ ← advance
    return some .visible
  | .keyword .privateWord =>
    let _ ← advance
    return some .hidden
  | _ => return none

/-- A member of a class. -/
def classMember : Parse Member := do
  let first ← peek
  let visibility ← visibilityMark
  let t ← peek
  match t.kind with
  | .keyword .letWord | .keyword .constWord =>
    let property ← variableDeclaration self visibility
    match visibility with
    | none => invalid first.span (.unmarkedProperty property.name)
    | some visibility =>
      let _ ← accept (.sign .semicolon)
      return .property visibility property
  | .keyword .functionWord | .keyword .asyncWord =>
    let method ← functionDeclaration self visibility
    match method.name with
    | none => invalid first.span .anonymousMethod
    | some name =>
      if name = constructorName && returnsIn method.body then
        invalid first.span .returningConstructor
      else
        match visibility with
        | some visibility => return .method visibility method
        | none =>
          if name = constructorName then return .method .visible method
          else invalid first.span (.unmarkedMethod name)
  | _ => invalid t.span (.notAMember t.kind t.value)

/-- A declaration that begins with `class`. -/
def classDeclaration : Parse ClassDeclaration := do
  let _ ← advance
  let name ← expectName (.after (.keyword .classWord))
  let t ← peek
  if t.kind = .sign .leftParen then invalid t.span (.classWithParameters name)
  else
    let superclass ← if ← accept (.keyword .extendsWord) then
        some <$> expectName (.after (.keyword .extendsWord))
      else pure none
    let _ ← expect (.sign .leftBrace) .classBodyStart
    let members ← phrasesToEnd (classMember self) endsBody self.bound
    let _ ← expect (.sign .rightBrace) .classBodyEnd
    return ⟨name, superclass, members⟩

/-! ## Expressions -/

/-- The elements of an array, after the opening bracket. -/
def arrayLiteral (span : Span) : Parse Expr := do
  let elements ←
    phrasesInLiteral self.expression (.sign .rightBracket) .betweenElements self.bound
  let _ ← expect (.sign .rightBracket) .arrayEnd
  return .array span elements

/-- A property of an object. -/
def property : Parse Property := do
  let first ← peek
  let key ← expectName .objectKey
  let value ← if ← accept (.sign .colon) then some <$> self.expression else pure none
  return ⟨key, value, first.span⟩

/-- The properties of an object, after the opening brace. -/
def objectLiteral (span : Span) : Parse Expr := do
  let properties ←
    phrasesInLiteral (property self) (.sign .rightBrace) .betweenProperties self.bound
  let _ ← expect (.sign .rightBrace) .objectEnd
  return .object span properties

/-- An expression that no operator is part of. -/
def primary : Parse Expr := do
  let t ← peek
  match t.kind with
  | .identifier =>
    let _ ← advance
    return .identifier t.span t.value
  | .number =>
    match Number.read? t.value with
    | none => invalid t.span (.badNumber t.value)
    | some x =>
      let _ ← advance
      return .number t.span x
  | .string =>
    let _ ← advance
    return .string t.span t.value
  | .sign .leftParen =>
    let _ ← advance
    let e ← self.expression
    let _ ← expect (.sign .rightParen) .parenthesesEnd
    return e
  | .sign .leftBracket =>
    let _ ← advance
    arrayLiteral self t.span
  | .sign .leftBrace =>
    let _ ← advance
    objectLiteral self t.span
  | .keyword .thisWord | .keyword .superWord => invalid t.span (.unsupportedWord t.value)
  | _ => invalid t.span (.notAnExpression t.kind t.value)

/-- The member of `object` that a dot or a bracket names. -/
def memberOf (object : Expr) : Parse Expr := do
  let first ← advance
  if first.kind = .sign .leftBracket then
    let property ← self.expression
    let _ ← expect (.sign .rightBracket) .computedMemberEnd
    return .member object.span object property true
  else
    let t ← expect .identifier (.after (.sign .dot))
    return .member object.span object (.identifier t.span t.value) false

/-- The arguments of a call, with their parentheses. -/
def arguments (place : Place) : Parse (List Expr) := do
  let _ ← expect (.sign .leftParen) place
  untilParenthesis self self.expression .argumentsEnd

/-- Calls and members that follow `e`. -/
def callsAfter : Nat → Expr → Parse Expr
  | 0, _ => tooDeep
  | n + 1, e => do
    let t ← peek
    match t.kind with
    | .sign .leftParen =>
      let args ← arguments self .callStart
      callsAfter n (.call e.span e args)
    | .sign .dot | .sign .leftBracket =>
      let m ← memberOf self e
      callsAfter n m
    | _ => return e

/-- Members that follow `e`. -/
def membersAfter : Nat → Expr → Parse Expr
  | 0, _ => tooDeep
  | n + 1, e => do
    let t ← peek
    match t.kind with
    | .sign .dot | .sign .leftBracket =>
      let m ← memberOf self e
      membersAfter n m
    | _ => return e

/-- A primary expression with its calls and members. -/
def callChain : Parse Expr := do
  let e ← primary self
  callsAfter self self.bound e

/-- A product. -/
def product : Parse Expr := do
  let e ← callChain self
  operandsAfter multiplicativeOperator? (callChain self) self.bound e

/-- A sum. -/
def sum : Parse Expr := do
  let e ← product self
  operandsAfter additiveOperator? (product self) self.bound e

/-- A comparison. -/
def comparison : Parse Expr := do
  let e ← sum self
  operandsAfter comparisonOperator? (sum self) self.bound e

/-- The instantiation of a class, or a comparison.  What is instantiated is a chain of members. -/
def instantiation : Parse Expr := do
  let t ← peek
  if t.kind = .keyword .newWord then
    let _ ← advance
    let first ← primary self
    let target ← membersAfter self self.bound first
    let args ← arguments self .classArguments
    return .instantiate t.span target args
  else comparison self

/-- Can an expression be assigned to? -/
def isTarget : Expr → Bool
  | .identifier _ _ | .member _ _ _ _ => true
  | _ => false

/-- The assignment of a value to `target`, if an assignment sign follows; else `target`. -/
def assignmentTo (target : Expr) : Parse Expr := do
  let t ← peek
  match update? t.kind with
  | none => return target
  | some update =>
    if isTarget target then
      let _ ← advance
      let value ← match update with
        | .replace => self.expression
        | .step operator => pure (.binary t.span target operator (.number t.span 1.0))
        | .combine operator => do
          let right ← instantiation self
          pure (.binary t.span target operator right)
      return .assign target.span target value
    else invalid target.span .badTarget

/-- An expression: a function, or an assignment or what is tighter than one. -/
def expression : Parse Expr := do
  let t ← peek
  match t.kind with
  | .keyword .functionWord | .keyword .asyncWord =>
    let f ← functionDeclaration self none
    return .function t.span f
  | _ =>
    let target ← instantiation self
    assignmentTo self target

/-! ## Statements -/

/-- The value of a `return`, after that word: `null` where the statement ends at once. -/
def returnedValue (span : Span) : Parse Expr := do
  let t ← peek
  match t.kind with
  | .sign .rightBrace | .sign .semicolon | .eof => return .null span
  | _ => self.expression

/-- A condition in parentheses and a block. -/
def conditional (word : Keyword) : Parse (Expr × List Stmt) := do
  let _ ← expect (.sign .leftParen) (.after (.keyword word))
  let condition ← self.expression
  let _ ← expect (.sign .rightParen) .conditionEnd
  let body ← block self .bodyStart
  return (condition, body)

/-- Is a declaration given a number? -/
def startsAtNumber (d : VariableDeclaration) : Bool :=
  match d.value with
  | some (.number _ _) => true
  | _ => false

/-- Does an expression assign to the variable `name`? -/
def steps (name : String) : Expr → Bool
  | .assign _ (.identifier _ target) _ => target = name
  | _ => false

/-- The declaration of a loop's counter: a number, by `let` or `const`. -/
def loopCounter : Parse VariableDeclaration := do
  let t ← peek
  match t.kind with
  | .keyword .letWord | .keyword .constWord =>
    let counter ← variableDeclaration self none
    if startsAtNumber counter then return counter
    else invalid t.span (.counterNotNumber counter.name)
  | _ => unexpected (.keyword .letWord) .loopVariable

/-- The iterator of a loop: an assignment to its counter. -/
def loopIterator (name : String) : Parse Expr := do
  let t ← expect .identifier .loopIterator
  let iterator ← assignmentTo self (.identifier t.span t.value)
  if steps name iterator then return iterator
  else invalid iterator.span (.iteratorNotStep name)

/-- A loop over a counter, after the word `for`. -/
def forLoop : Parse ForLoop := do
  let _ ← expect (.sign .leftParen) (.after (.keyword .forWord))
  let counter ← loopCounter self
  let _ ← expect (.sign .semicolon) .afterLoopVariable
  let condition ← self.expression
  let _ ← expect (.sign .semicolon) .afterLoopCondition
  let iterator ← loopIterator self counter.name
  let _ ← expect (.sign .rightParen) .loopHeaderEnd
  let body ← block self .loopBodyStart
  return ⟨counter, condition, iterator, body⟩

/-- A statement without the semicolon that may follow it. -/
def bareStatement : Parse Stmt := do
  let t ← peek
  match t.kind with
  | .keyword .letWord | .keyword .constWord => .variableDeclaration t.span <$> variableDeclaration self none
  | .keyword .functionWord | .keyword .asyncWord =>
    .functionDeclaration t.span <$> functionDeclaration self none
  | .keyword .classWord => .classDeclaration t.span <$> classDeclaration self
  | .keyword .publicWord | .keyword .privateWord => invalid t.span .visibilityOutsideClass
  | .keyword .returnWord =>
    let _ ← advance
    .returnValue t.span <$> returnedValue self t.span
  | .keyword .breakWord =>
    let _ ← advance
    return .breakLoop t.span
  | .keyword .ifWord =>
    let _ ← advance
    let (condition, body) ← conditional self .ifWord
    return .ifBlock t.span condition body
  | .keyword .whileWord =>
    let _ ← advance
    let (condition, body) ← conditional self .whileWord
    return .whileLoop t.span condition body
  | .keyword .forWord =>
    let _ ← advance
    .forLoop t.span <$> forLoop self
  | _ => .expression t.span <$> expression self

/-- A statement with the semicolon that may follow it. -/
def statement : Parse Stmt := do
  let s ← bareStatement self
  let _ ← accept (.sign .semicolon)
  return s

end Grammar

/-! ## Readers of bounded nesting -/

mutual

/-- An expression in which phrases nest less than `n` deep. -/
def readExpression : Nat → TokenStream → Except ParseError (Expr × TokenStream)
  | 0, s => Parse.tooDeep s
  | n + 1, s => Grammar.expression ⟨n + 1, readExpression n, readStatement n⟩ s

/-- A statement in which phrases nest less than `n` deep. -/
def readStatement : Nat → TokenStream → Except ParseError (Stmt × TokenStream)
  | 0, s => Parse.tooDeep s
  | n + 1, s => Grammar.statement ⟨n + 1, readExpression n, readStatement n⟩ s

end

namespace Program

/-- The program that tokens spell: statements up to the end token. -/
def ofTokens? (ts : List Token) : Except ParseError Program :=
  let s := TokenStream.ofList ts
  let n := s.tokens.length + 1
  Prod.fst <$> Grammar.phrasesToEnd (readStatement n) (· = .eof) n s

/-- The program that a source spells. -/
def ofSource? (source : String) : Except Error Program :=
  match Token.scan source with
  | .error e => .error (.scan e)
  | .ok ts =>
    match ofTokens? ts with
    | .error e => .error (.parse e)
    | .ok p => .ok p

end Program

end ScriptLang
