/-
# ScriptLang.Token.Scan — tokens from text.

A source is cut from the left into pieces, each as long as it can be.  A piece is a gap (a blank or a
comment) or a lexeme, and the lexemes are the tokens; one end token closes the list.  A cut fails at
the first character that no piece can hold.
-/
import ScriptLang.Token
import ScriptLang.Text.Alphabetic

namespace ScriptLang

/-- Why a source cannot be cut. -/
inductive ScanFault where
  | unrecognized
  | secondPoint
  | unterminatedString
deriving DecidableEq, Repr

/-- What is said of a fault. -/
def ScanFault.text : ScanFault → String
  | unrecognized => "unrecognized character"
  | secondPoint => "numeric literal has more than one decimal point"
  | unterminatedString => "unterminated string literal"

/-- A fault, the character it was found at, and the place of that character. -/
structure ScanError where
  span : Span
  found : Char
  fault : ScanFault
deriving DecidableEq, Repr

namespace Token

/-- A piece cut from the front of `c :: cs`: `c :: taken` is the piece and `rest` is what follows it.
A gap has no kind. -/
structure Piece where
  kind : Option Kind
  taken : List Char
  rest : List Char

/-- A fault in a piece: the characters of the piece before it, and the character found. -/
structure Snag where
  before : List Char
  found : Char
  fault : ScanFault

/-- The blanks between lexemes. -/
def isGap (c : Char) : Bool := c = ' ' || c = '\t' || c = '\r' || c = '\n'

/-- Does a comment end before this character? -/
def endsComment (c : Char) : Bool := c = '\n' || c = '\r'

/-- The rest of a number that began with the digit `c`: digits, and at most one point among them. -/
def cutNumber (c : Char) (cs : List Char) : Except Snag Piece :=
  let whole := cs.takeWhile Char.isDigit
  match cs.dropWhile Char.isDigit with
  | '.' :: rest =>
    let fraction := rest.takeWhile Char.isDigit
    match rest.dropWhile Char.isDigit with
    | '.' :: _ => .error ⟨c :: (whole ++ '.' :: fraction), '.', .secondPoint⟩
    | rest => .ok ⟨some .number, whole ++ '.' :: fraction, rest⟩
  | rest => .ok ⟨some .number, whole, rest⟩

/-- The rest of a string: all up to the next quote, and that quote. -/
def cutString (cs : List Char) : Except Snag Piece :=
  match cs.dropWhile (· ≠ '"') with
  | [] => .error ⟨[], '"', .unterminatedString⟩
  | quote :: rest => .ok ⟨some .string, cs.takeWhile (· ≠ '"') ++ [quote], rest⟩

/-- The rest of a word that began with the letter `c`. -/
def cutWord (c : Char) (cs : List Char) : Piece :=
  let taken := cs.takeWhile Text.isWordChar
  ⟨some (Kind.ofWord (String.ofList (c :: taken))), taken, cs.dropWhile Text.isWordChar⟩

/-- The rest of a comment. -/
def cutComment (cs : List Char) : Piece :=
  ⟨none, cs.takeWhile (!endsComment ·), cs.dropWhile (!endsComment ·)⟩

/-- A sign that began with `c`: two characters if they spell one, else `c` alone. -/
def cutSign? (c : Char) (cs : List Char) : Option Piece :=
  match cs with
  | d :: rest =>
    match Sign.ofChars? c d with
    | some s => some ⟨some (.sign s), [d], rest⟩
    | none => (Sign.ofChar? c).map (fun s => ⟨some (.sign s), [], cs⟩)
  | [] => (Sign.ofChar? c).map (fun s => ⟨some (.sign s), [], cs⟩)

/-- The piece at the front of `c :: cs`. -/
def cut (c : Char) (cs : List Char) : Except Snag Piece :=
  if isGap c then .ok ⟨none, [], cs⟩
  else if c = '"' then cutString cs
  else if c.isDigit then cutNumber c cs
  else if Text.isAlphabetic c then .ok (cutWord c cs)
  else if c = '/' ∧ cs.head? = some '/' then .ok (cutComment cs)
  else
    match cutSign? c cs with
    | some piece => .ok piece
    | none => .error ⟨[], c, .unrecognized⟩

theorem cutNumber_append {c : Char} {cs : List Char} {p : Piece} (h : cutNumber c cs = .ok p) :
    p.taken ++ p.rest = cs := by
  have hd := @List.takeWhile_append_dropWhile _ Char.isDigit
  unfold cutNumber at h
  dsimp only at h
  split at h
  · next rest hr =>
    split at h
    · cases h
    · cases h
      simp only [List.append_assoc, List.cons_append]
      rw [hd, ← hr, hd]
  · cases h
    exact hd

theorem cutString_append {cs : List Char} {p : Piece} (h : cutString cs = .ok p) :
    p.taken ++ p.rest = cs := by
  unfold cutString at h
  split at h
  · cases h
  · next quote rest hr =>
    cases h
    simp only [List.append_assoc, List.singleton_append]
    rw [← hr, List.takeWhile_append_dropWhile]

theorem cutSign?_append {c : Char} {cs : List Char} {p : Piece} (h : cutSign? c cs = some p) :
    p.taken ++ p.rest = cs := by
  have single {cs : List Char} {p : Piece}
      (h : (Sign.ofChar? c).map (fun s => (⟨some (.sign s), [], cs⟩ : Piece)) = some p) :
      p.taken ++ p.rest = cs := by
    obtain ⟨s, -, rfl⟩ := Option.map_eq_some_iff.1 h
    rfl
  unfold cutSign? at h
  split at h
  · split at h
    · cases h
      rfl
    · exact single h
  · exact single h

/-- A piece and what follows it are the whole text. -/
theorem cut_append {c : Char} {cs : List Char} {p : Piece} (h : cut c cs = .ok p) :
    p.taken ++ p.rest = cs := by
  unfold cut at h
  split at h
  · cases h
    rfl
  · split at h
    · exact cutString_append h
    · split at h
      · exact cutNumber_append h
      · split at h
        · cases h
          exact List.takeWhile_append_dropWhile
        · split at h
          · cases h
            exact List.takeWhile_append_dropWhile
          · split at h
            · next hs => cases h; exact cutSign?_append hs
            · cases h

theorem cut_rest_length {c : Char} {cs : List Char} {p : Piece} (h : cut c cs = .ok p) :
    p.rest.length < cs.length + 1 := by
  have := congrArg List.length (cut_append h)
  simp only [List.length_append] at this
  omega

/-- The value of a lexeme: a string loses its quotes. -/
def valueOf (kind : Kind) (lexeme : List Char) : String :=
  match kind with
  | .string => String.ofList lexeme.tail.dropLast
  | _ => String.ofList lexeme

/-- The tokens of a text that begins at `here`. -/
def scanFrom (here : Cursor) : List Char → Except ScanError (List Token)
  | [] => .ok [⟨.eof, "", here.span 0⟩]
  | c :: cs =>
    match _h : cut c cs with
    | .error snag => .error ⟨(here.past snag.before).span 1, snag.found, snag.fault⟩
    | .ok piece =>
      match scanFrom (here.past (c :: piece.taken)) piece.rest with
      | .error e => .error e
      | .ok tokens =>
        match piece.kind with
        | none => .ok tokens
        | some kind =>
          .ok (⟨kind, valueOf kind (c :: piece.taken), here.span (piece.taken.length + 1)⟩ :: tokens)
termination_by cs => cs.length
decreasing_by
  simpa using cut_rest_length _h

/-- The tokens of a source, the last of them its end. -/
def scan (source : String) : Except ScanError (List Token) := scanFrom .start source.toList

end Token

end ScriptLang
