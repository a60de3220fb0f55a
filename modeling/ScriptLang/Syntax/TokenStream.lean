/-
# ScriptLang.Syntax.TokenStream — tokens as a reader of phrases meets them.

A reader looks at one token at a time and never past the first end token, so a stream is the tokens
before that one and the end token itself.  A list without an end token gets one, at the span of its last
token.  A reader fails with a parse error or yields a phrase and the stream that is left.
-/
import ScriptLang.Syntax.Fault

namespace ScriptLang

/-- Tokens to be read, and the end token that is met after them. -/
structure TokenStream where
  tokens : List Token
  eof : Token
deriving Repr

namespace TokenStream

/-- The stream of a list: what stands before its first end token.  That no reader sees a token behind it
is settled here and not by the readers.  The stream is what a cursor at the front of the list sees
(`Token.closed_stands`), and a stream that is left by a reader is what the cursor sees further on
(`TokenStream.Stands.leave`). -/
def ofList (ts : List Token) : TokenStream :=
  match ts.dropWhile (·.kind ≠ .eof) with
  | eof :: _ => ⟨ts.takeWhile (·.kind ≠ .eof), eof⟩
  | [] => ⟨ts, ⟨.eof, "", (ts.getLast?.map Token.span).getD ⟨0, 0, 0⟩⟩⟩

/-- The token that is met next. -/
def peek (s : TokenStream) : Token := s.tokens.head?.getD s.eof

/-- The stream after the next token.  The end token stays. -/
def next (s : TokenStream) : TokenStream := { s with tokens := s.tokens.tail }

/-- The stream after the semicolons at its front. -/
def dropSemicolons (s : TokenStream) : TokenStream :=
  { s with tokens := s.tokens.dropWhile (·.kind = .sign .semicolon) }

@[simp] theorem next_eof (s : TokenStream) : s.next.eof = s.eof := rfl

theorem length_next (s : TokenStream) : s.next.tokens.length = s.tokens.length - 1 := by
  simp [next]

theorem length_dropSemicolons_le (s : TokenStream) :
    s.dropSemicolons.tokens.length ≤ s.tokens.length :=
  (List.dropWhile_suffix _).length_le

end TokenStream

/-- A reader of phrases. -/
abbrev Parse (α : Type) := StateT TokenStream (Except ParseError) α

namespace Parse

/-- The next token, which stays. -/
def peek : Parse Token := fun s => .ok (s.peek, s)

/-- The next token, which is taken. -/
def advance : Parse Token := fun s => .ok (s.peek, s.next)

/-- Takes all semicolons at the front. -/
def skipSemicolons : Parse Unit := fun s => .ok ((), s.dropSemicolons)

/-- Fails at a span, for a rule that is broken. -/
def invalid {α : Type} (span : Span) (breach : RuleBreach) : Parse α :=
  fun _ => .error ⟨span, .invalid breach⟩

/-- Fails at the next token, for the kind that is needed there. -/
def unexpected {α : Type} (expected : Kind) (place : Place) : Parse α :=
  fun s => .error ⟨s.peek.span, .unexpected expected s.peek.kind s.peek.value place⟩

/-- Fails at the next token, for the bound on nesting. -/
def tooDeep {α : Type} : Parse α := fun s => .error ⟨s.peek.span, .invalid .tooDeep⟩

/-- Takes the next token if it is of a given kind; tells whether it was. -/
def accept (kind : Kind) : Parse Bool :=
  fun s => if s.peek.kind = kind then .ok (true, s.next) else .ok (false, s)

/-- Takes the next token, which has to be of a given kind. -/
def expect (kind : Kind) (place : Place) : Parse Token :=
  fun s =>
    if s.peek.kind = kind then .ok (s.peek, s.next)
    else .error ⟨s.peek.span, .unexpected kind s.peek.kind s.peek.value place⟩

/-- Takes an identifier and yields its name. -/
def expectName (place : Place) : Parse String := do
  let t ← expect .identifier place
  return t.value

/-- A reader and what follows it, as one look at its result. -/
theorem bind_run {α β : Type} (p : Parse α) (c : α → Parse β) (s : TokenStream) :
    (p >>= c) s = match p s with
      | .ok (a, t) => c a t
      | .error e => .error e := by
  show StateT.bind p c s = _
  unfold StateT.bind
  rcases p s with e | ⟨a, t⟩ <;> rfl

/-- A reader and what follows it succeed together when each does. -/
theorem bind_eq_ok {α β : Type} {p : Parse α} {c : α → Parse β} {s u : TokenStream} {b : β} :
    (p >>= c) s = .ok (b, u) ↔ ∃ a t, p s = .ok (a, t) ∧ c a t = .ok (b, u) := by
  rw [bind_run]
  rcases p s with e | ⟨a, t⟩
  · exact ⟨nofun, fun ⟨_, _, h, _⟩ => nomatch h⟩
  · refine ⟨fun h => ⟨a, t, rfl, h⟩, fun ⟨_, _, first, h⟩ => ?_⟩
    cases first
    exact h

theorem map_run {α β : Type} (c : α → β) (p : Parse α) (s : TokenStream) :
    (c <$> p) s = match p s with
      | .ok (a, t) => .ok (c a, t)
      | .error e => .error e := by
  show StateT.map c p s = _
  unfold StateT.map
  rcases p s with e | ⟨a, t⟩ <;> rfl

end Parse

end ScriptLang
