/-
# ScriptLang.Token — the words and signs of the language.

A token has a kind, the text it was written with, and its span.  Kinds are the signs, the reserved
words, three open classes (identifiers, strings, numbers) and the end of the source.  Each sign and each
reserved word has exactly one spelling.
-/
import ScriptLang.Span

namespace ScriptLang

/-- The signs: brackets, separators and operators. -/
inductive Sign where
  | leftParen | rightParen | leftBrace | rightBrace | leftBracket | rightBracket
  | comma | dot | colon | semicolon | bang | question | assign
  | plus | minus | star | slash | percent
  | equal | notEqual | greater | greaterEqual | less | lessEqual | nullish
  | plusPlus | minusMinus | plusEqual | minusEqual | starEqual | slashEqual | percentEqual
deriving DecidableEq, Repr

/-- The reserved words.  `true`, `false` and `null` are not among them: they are names of constants. -/
inductive Keyword where
  | letWord | constWord | functionWord | asyncWord | returnWord | whileWord | forWord | ifWord | breakWord
  | newWord | extendsWord | thisWord | classWord | publicWord | privateWord | superWord
deriving DecidableEq, Repr

/-- What a token is. -/
inductive Kind where
  | sign (s : Sign)
  | keyword (w : Keyword)
  | identifier
  | string
  | number
  | eof
deriving DecidableEq, Repr

/-- A token.  The value of a string is the text between its quotes; every other value is the text the
token was written with. -/
structure Token where
  kind : Kind
  value : String
  span : Span
deriving DecidableEq, Repr

namespace Sign

/-- How a sign is written. -/
def text : Sign → String
  | leftParen => "(" | rightParen => ")" | leftBrace => "\x7b" | rightBrace => "\x7d"
  | leftBracket => "[" | rightBracket => "]"
  | comma => "," | dot => "." | colon => ":" | semicolon => ";" | bang => "!" | question => "?"
  | assign => "="
  | plus => "+" | minus => "-" | star => "*" | slash => "/" | percent => "%"
  | equal => "==" | notEqual => "!=" | greater => ">" | greaterEqual => ">=" | less => "<"
  | lessEqual => "<=" | nullish => "??"
  | plusPlus => "++" | minusMinus => "--" | plusEqual => "+=" | minusEqual => "-="
  | starEqual => "*=" | slashEqual => "/=" | percentEqual => "%="

/-- The name of a sign. -/
def name : Sign → String
  | leftParen => "LeftParen" | rightParen => "RightParen" | leftBrace => "LeftBrace"
  | rightBrace => "RightBrace" | leftBracket => "LeftBracket" | rightBracket => "RightBracket"
  | comma => "Comma" | dot => "Dot" | colon => "Colon" | semicolon => "Semicolon" | bang => "Bang"
  | question => "Question" | assign => "Assign"
  | plus => "Plus" | minus => "Minus" | star => "Star" | slash => "Slash" | percent => "Percent"
  | equal => "Equal" | notEqual => "NotEqual" | greater => "Greater" | greaterEqual => "GreaterEqual"
  | less => "Less" | lessEqual => "LessEqual" | nullish => "Nullish"
  | plusPlus => "PlusPlus" | minusMinus => "MinusMinus" | plusEqual => "PlusEqual"
  | minusEqual => "MinusEqual" | starEqual => "StarEqual" | slashEqual => "SlashEqual"
  | percentEqual => "PercentEqual"

/-- Every sign. -/
def all : List Sign :=
  [leftParen, rightParen, leftBrace, rightBrace, leftBracket, rightBracket,
   comma, dot, colon, semicolon, bang, question, assign,
   plus, minus, star, slash, percent,
   equal, notEqual, greater, greaterEqual, less, lessEqual, nullish,
   plusPlus, minusMinus, plusEqual, minusEqual, starEqual, slashEqual, percentEqual]

/-- The sign that one character spells. -/
def ofChar? : Char → Option Sign
  | '(' => some leftParen | ')' => some rightParen | '\x7b' => some leftBrace
  | '\x7d' => some rightBrace | '[' => some leftBracket | ']' => some rightBracket
  | ',' => some comma | '.' => some dot | ':' => some colon | ';' => some semicolon
  | '!' => some bang | '?' => some question | '=' => some assign
  | '+' => some plus | '-' => some minus | '*' => some star | '/' => some slash | '%' => some percent
  | '>' => some greater | '<' => some less
  | _ => none

/-- The sign that two characters spell together. -/
def ofChars? : Char → Char → Option Sign
  | '=', '=' => some equal | '!', '=' => some notEqual
  | '>', '=' => some greaterEqual | '<', '=' => some lessEqual | '?', '?' => some nullish
  | '+', '+' => some plusPlus | '-', '-' => some minusMinus
  | '+', '=' => some plusEqual | '-', '=' => some minusEqual | '*', '=' => some starEqual
  | '/', '=' => some slashEqual | '%', '=' => some percentEqual
  | _, _ => none

end Sign

namespace Keyword

/-- How a reserved word is written. -/
def text : Keyword → String
  | letWord => "let" | constWord => "const" | functionWord => "function" | asyncWord => "async"
  | returnWord => "return" | whileWord => "while" | forWord => "for" | ifWord => "if"
  | breakWord => "break" | newWord => "new" | extendsWord => "extends" | thisWord => "this"
  | classWord => "class" | publicWord => "public" | privateWord => "private" | superWord => "super"

/-- The name of a reserved word. -/
def name : Keyword → String
  | letWord => "Let" | constWord => "Const" | functionWord => "Function" | asyncWord => "Async"
  | returnWord => "Return" | whileWord => "While" | forWord => "For" | ifWord => "If"
  | breakWord => "Break" | newWord => "New" | extendsWord => "Extends" | thisWord => "This"
  | classWord => "Class" | publicWord => "Public" | privateWord => "Private" | superWord => "Super"

/-- Every reserved word. -/
def all : List Keyword :=
  [letWord, constWord, functionWord, asyncWord, returnWord, whileWord, forWord, ifWord, breakWord,
   newWord, extendsWord, thisWord, classWord, publicWord, privateWord, superWord]

/-- The reserved word with a given spelling. -/
def ofText? (s : String) : Option Keyword := all.find? (fun w => w.text == s)

end Keyword

namespace Kind

/-- The kind of a run of letters and digits: a reserved word if it spells one, else an identifier. -/
def ofWord (s : String) : Kind :=
  match Keyword.ofText? s with
  | some w => .keyword w
  | none => .identifier

/-- How messages name a kind: what has one spelling is quoted. -/
def text : Kind → String
  | sign s => "'" ++ s.text ++ "'"
  | keyword w => "'" ++ w.text ++ "'"
  | identifier => "identifier"
  | string => "string"
  | number => "number"
  | eof => "end of file"

/-- The name of a kind in structured output. -/
def name : Kind → String
  | sign s => s.name
  | keyword w => w.name
  | identifier => "Identifier"
  | string => "String"
  | number => "Number"
  | eof => "Eof"

/-- Every kind. -/
def all : List Kind :=
  Sign.all.map sign ++ [identifier, string, number] ++ Keyword.all.map keyword ++ [eof]

/-- The kind with a given name. -/
def ofName? (s : String) : Option Kind := all.find? (fun k => k.name == s)

end Kind

end ScriptLang
