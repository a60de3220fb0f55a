/-
# ScriptLang.Console.Complete — when typed text is ready to run.

Text is ready when no bracket and no string is open in it.  The survey of a text keeps track of the
region it is in, code or a string or a comment, and of how many brackets are open.
-/
import ScriptLang.Token.Scan

namespace ScriptLang.Console

/-- What a place in a text is part of. -/
inductive Region where
  | code
  | string
  | comment
deriving DecidableEq, Repr

/-- How a character in code changes the number of open brackets. -/
def bracketChange (c : Char) : Int :=
  if c = '(' ∨ c = '[' ∨ c = '\x7b' then 1
  else if c = ')' ∨ c = ']' ∨ c = '\x7d' then -1
  else 0

/-- The region at the end of a text and the number of brackets that are open there, given both at its
start.  Closing brackets without a partner count below zero.  The count has no bound of its own; it
moves by at most one for each character, so that a signed count in 32 bits is the same for every text of
fewer than 2 ^ 31 characters. -/
def survey : Region → Int → List Char → Region × Int
  | region, depth, [] => (region, depth)
  | .string, depth, c :: cs => survey (if c = '"' then .code else .string) depth cs
  | .comment, depth, c :: cs => survey (if Token.endsComment c then .code else .comment) depth cs
  | .code, depth, c :: cs =>
    if c = '"' then survey .string depth cs
    else if c = '/' ∧ cs.head? = some '/' then survey .comment depth cs
    else survey .code (depth + bracketChange c) cs

/-- Is a text ready to run? -/
def isComplete (s : String) : Bool :=
  let (region, depth) := survey .code 0 s.toList
  depth ≤ 0 && region ≠ .string

end ScriptLang.Console
