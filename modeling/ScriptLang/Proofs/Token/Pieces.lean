/-
# ScriptLang.Proofs.Token.Pieces — the pieces that a source is cut into.

A piece has one of a few shapes: a blank, a comment, a string, a number, a word, a sign of one character
or of two; and where none can be cut, one of three things is in the way.  A scan that succeeds cuts the whole
source into such pieces and tells each lexeme's place by the cursor before it.  The place is no more than a
line and a column, yet no other cursor of the source has the same, so a token stands at one offset only.
-/
import ScriptLang.Token.Scan
import Mathlib.Data.List.TakeWhile

namespace ScriptLang

/-! ## Signs and words -/

/-- A sign of two characters begins with a sign of one. -/
theorem Sign.ofChar?_isSome_of_ofChars? {c d : Char} {s : Sign} (h : ofChars? c d = some s) :
    (ofChar? c).isSome := by
  unfold ofChars? at h
  split at h <;> cases h <;> rfl

theorem Kind.ofWord_cases (s : String) :
    (∃ w, Kind.ofWord s = .keyword w) ∨ Kind.ofWord s = .identifier := by
  unfold Kind.ofWord
  split
  · next w _ => exact .inl ⟨w, rfl⟩
  · exact .inr rfl

namespace Token

/-! ## Shapes -/

/-- What a piece is made of, given its first character; and what may not stand after it, where that
decides how the piece is read. -/
inductive Shape : Char → Piece → Prop
  | blank {c : Char} {rest : List Char} : isGap c → Shape c ⟨none, [], rest⟩
  | comment {body rest : List Char} : (∀ x ∈ body, endsComment x = false) →
      (∀ x ∈ rest.head?, endsComment x) → Shape '/' ⟨none, '/' :: body, rest⟩
  | string {body rest : List Char} : (∀ x ∈ body, x ≠ '"') →
      Shape '"' ⟨some .string, body ++ ['"'], rest⟩
  | number {c : Char} {taken rest : List Char} : c.isDigit → (∀ x ∈ taken, x.isDigit ∨ x = '.') →
      Shape c ⟨some .number, taken, rest⟩
  | word {c : Char} {taken rest : List Char} : Text.isAlphabetic c → (∀ x ∈ taken, Text.isWordChar x) →
      Shape c ⟨some (.ofWord (String.ofList (c :: taken))), taken, rest⟩
  | sign {c : Char} {rest : List Char} {s : Sign} : Sign.ofChar? c = some s →
      (c = '/' → rest.head? ≠ some '/') → Shape c ⟨some (.sign s), [], rest⟩
  | twoChars {c d : Char} {rest : List Char} {s : Sign} : Sign.ofChars? c d = some s →
      Shape c ⟨some (.sign s), [d], rest⟩

theorem cutNumber_shape {c : Char} {cs : List Char} {piece : Piece} (digit : c.isDigit)
    (h : cutNumber c cs = .ok piece) : Shape c piece := by
  have digits (xs : List Char) : ∀ x ∈ xs.takeWhile Char.isDigit, x.isDigit := fun x hx =>
    List.mem_takeWhile_imp hx
  unfold cutNumber at h
  dsimp only at h
  split at h
  · next rest hr =>
    split at h
    · cases h
    · cases h
      refine .number digit fun x hx => ?_
      rcases List.mem_append.1 hx with whole | fraction
      · exact .inl (digits cs x whole)
      · rcases List.mem_cons.1 fraction with rfl | fraction
        · exact .inr rfl
        · exact .inl (digits rest x fraction)
  · cases h
    exact .number digit fun x hx => .inl (digits cs x hx)

/-- A string is cut at the first quote. -/
theorem cutString_closed {cs : List Char} {piece : Piece} (h : cutString cs = .ok piece) :
    ∃ body rest, (∀ x ∈ body, x ≠ '"') ∧ piece = ⟨some .string, body ++ ['"'], rest⟩ := by
  unfold cutString at h
  split at h
  · cases h
  · next quote rest found =>
    cases h
    -- what stopped the search is a quote
    have first := List.head?_dropWhile_not (· ≠ '"') cs
    rw [found] at first
    obtain rfl : quote = '"' := by simpa using first
    exact ⟨_, rest, fun x hx => of_decide_eq_true (List.mem_takeWhile_imp (p := (· ≠ '"')) hx), rfl⟩

theorem cutString_shape {cs : List Char} {piece : Piece} (h : cutString cs = .ok piece) :
    Shape '"' piece := by
  obtain ⟨body, rest, inside, rfl⟩ := cutString_closed h
  exact .string inside

theorem cutComment_shape {cs : List Char} (h : cs.head? = some '/') : Shape '/' (cutComment cs) := by
  obtain ⟨cs, rfl⟩ := List.head?_eq_some_iff.1 h
  have slash : (!endsComment '/') = true := rfl
  unfold cutComment
  rw [List.takeWhile_cons_of_pos (p := (!endsComment ·)) slash,
    List.dropWhile_cons_of_pos (p := (!endsComment ·)) slash]
  refine .comment (fun x hx => ?_) fun x hx => ?_
  · have inside := List.mem_takeWhile_imp hx
    simpa using inside
  · have first := List.head?_dropWhile_not (!endsComment ·) cs
    rw [Option.mem_def.1 hx] at first
    simpa using first

theorem cutSign?_shape {c : Char} {cs : List Char} {piece : Piece}
    (alone : c = '/' → cs.head? ≠ some '/') (h : cutSign? c cs = some piece) : Shape c piece := by
  have single (h : (Sign.ofChar? c).map (fun s => (⟨some (.sign s), [], cs⟩ : Piece)) = some piece) :
      Shape c piece := by
    obtain ⟨s, spelled, rfl⟩ := Option.map_eq_some_iff.1 h
    exact .sign spelled alone
  unfold cutSign? at h
  split at h
  · next d rest =>
    split at h
    · next s spelled =>
      cases h
      exact .twoChars spelled
    · exact single h
  · exact single h

/-- Every piece that is cut has a shape. -/
theorem cut_shape {c : Char} {cs : List Char} {piece : Piece} (h : cut c cs = .ok piece) :
    Shape c piece := by
  unfold cut at h
  split at h
  · next gap =>
    cases h
    exact .blank gap
  split at h
  · next quote =>
    subst quote
    exact cutString_shape h
  split at h
  · next digit => exact cutNumber_shape digit h
  split at h
  · next letter =>
    cases h
    exact .word letter fun x hx => List.mem_takeWhile_imp hx
  split at h
  · next slashes =>
    cases h
    rw [slashes.1]
    exact cutComment_shape slashes.2
  · next alone =>
    split at h
    · next piece' found =>
      cases h
      exact cutSign?_shape (fun slash next => alone ⟨slash, next⟩) found
    · cases h

/-! ## Snags -/

/-- A piece can begin with the character. -/
def BeginsPiece (c : Char) : Prop :=
  isGap c ∨ c = '"' ∨ c.isDigit ∨ Text.isAlphabetic c ∨ (Sign.ofChar? c).isSome

/-- What keeps a piece from being cut: a character that begins none, a second point in a number, or an
opening quote that no quote follows. -/
inductive Snags : Char → List Char → Snag → Prop
  | unrecognized {c : Char} {cs : List Char} (stranger : ¬BeginsPiece c) :
    Snags c cs ⟨[], c, .unrecognized⟩
  | secondPoint {c : Char} {ws fs more : List Char} (first : c.isDigit) (whole : ∀ x ∈ ws, x.isDigit)
    (places : ∀ x ∈ fs, x.isDigit) :
    Snags c (ws ++ '.' :: (fs ++ '.' :: more)) ⟨c :: (ws ++ '.' :: fs), '.', .secondPoint⟩
  | unterminated {cs : List Char} (unclosed : ∀ x ∈ cs, x ≠ '"') :
    Snags '"' cs ⟨[], '"', .unterminatedString⟩

/-- No sign is cut just where none begins. -/
theorem cutSign?_eq_none_iff {c : Char} (cs : List Char) : cutSign? c cs = none ↔ Sign.ofChar? c = none := by
  cases cs with
  | nil => simp [cutSign?]
  | cons d ds =>
    cases pair : Sign.ofChars? c d with
    | none => simp [cutSign?, pair]
    | some s =>
      have one := Sign.ofChar?_isSome_of_ofChars? pair
      simp [cutSign?, pair, Option.isSome_iff_ne_none.1 one]

theorem cutNumber_snags {c : Char} {cs : List Char} {snag : Snag} (digit : c.isDigit)
    (h : cutNumber c cs = .error snag) : Snags c cs snag := by
  have digits (xs : List Char) : ∀ x ∈ xs.takeWhile Char.isDigit, x.isDigit := fun x hx =>
    List.mem_takeWhile_imp hx
  unfold cutNumber at h
  dsimp only at h
  split at h
  · next rest point =>
    split at h
    · next more point' =>
      cases h
      have whole := List.takeWhile_append_dropWhile (p := Char.isDigit) (l := cs)
      have places := List.takeWhile_append_dropWhile (p := Char.isDigit) (l := rest)
      rw [point'] at places
      rw [point, ← places] at whole
      conv => arg 2; rw [← whole]
      exact .secondPoint digit (digits cs) (digits rest)
    · cases h
  · cases h

/-- Where no piece is cut, something snags. -/
theorem cut_snags {c : Char} {cs : List Char} {snag : Snag} (h : cut c cs = .error snag) :
    Snags c cs snag := by
  unfold cut at h
  split at h
  · cases h
  next noGap =>
  split at h
  · next quote =>
    subst quote
    unfold cutString at h
    split at h
    · next none =>
      cases h
      exact .unterminated fun x hx => of_decide_eq_true (List.dropWhile_eq_nil_iff.1 none x hx)
    · cases h
  next noQuote =>
  split at h
  · next digit => exact cutNumber_snags digit h
  next noDigit =>
  split at h
  · cases h
  next noLetter =>
  split at h
  · cases h
  split at h
  · cases h
  · next none =>
    cases h
    have noSign : ¬(Sign.ofChar? c).isSome := by simp [(cutSign?_eq_none_iff cs).1 none]
    exact .unrecognized (by simp [BeginsPiece, noGap, noQuote, noDigit, noLetter, noSign])

/-- Only an opening quote that no quote follows leaves a string unterminated. -/
theorem cut_unterminated {c : Char} {cs : List Char} {snag : Snag} (h : cut c cs = .error snag)
    (fault : snag.fault = .unterminatedString) : c = '"' ∧ ∀ x ∈ cs, x ≠ '"' := by
  cases cut_snags h with
  | unterminated unclosed => exact ⟨rfl, unclosed⟩
  | unrecognized | secondPoint => cases fault

/-! ## Scans -/

/-- The text from a cursor on is cut into pieces, and these are its tokens. -/
inductive Scans : Cursor → List Char → List Token → Prop
  | done (k : Cursor) : Scans k [] [⟨.eof, "", k.span 0⟩]
  | gap {k : Cursor} {c : Char} {piece : Piece} {ts : List Token} : Shape c piece → piece.kind = none →
      Scans (k.past (c :: piece.taken)) piece.rest ts → Scans k (c :: (piece.taken ++ piece.rest)) ts
  | lexeme {k : Cursor} {c : Char} {piece : Piece} {kind : Kind} {ts : List Token} : Shape c piece →
      piece.kind = some kind → Scans (k.past (c :: piece.taken)) piece.rest ts →
      Scans k (c :: (piece.taken ++ piece.rest))
        (⟨kind, valueOf kind (c :: piece.taken), k.span (piece.taken.length + 1)⟩ :: ts)

/-- A scan that succeeds cuts the text into pieces. -/
theorem scans_of_scanFrom {k : Cursor} {cs : List Char} {ts : List Token} (h : scanFrom k cs = .ok ts) :
    Scans k cs ts := by
  fun_induction scanFrom k cs generalizing ts with
  | case1 k =>
    cases h
    exact .done k
  | case2 | case3 => cases h
  | case4 k c cs piece cut _ scanned gap ih =>
    cases h
    rw [← cut_append cut]
    exact .gap (cut_shape cut) gap (ih scanned)
  | case5 k c cs piece cut _ scanned kind lexeme ih =>
    cases h
    rw [← cut_append cut]
    exact .lexeme (cut_shape cut) lexeme (ih scanned)

theorem Shape.kind_ne_eof {c : Char} {piece : Piece} {kind : Kind} (shape : Shape c piece)
    (h : piece.kind = some kind) : kind ≠ .eof := by
  cases shape with
  | blank | comment => cases h
  | word =>
    obtain rfl := Option.some.inj h
    rcases Kind.ofWord_cases _ with ⟨w, word⟩ | word <;> rw [word] <;> exact nofun
  | string | number | sign | twoChars =>
    obtain rfl := Option.some.inj h
    exact nofun

/-- The tokens of a text are its lexemes and one end token. -/
theorem Scans.ends {k : Cursor} {cs : List Char} {ts : List Token} (h : Scans k cs ts) :
    ∃ lexemes eof, ts = lexemes ++ [eof] ∧ eof.kind = .eof ∧ ∀ t ∈ lexemes, t.kind ≠ .eof := by
  induction h with
  | done k => exact ⟨[], _, rfl, rfl, nofun⟩
  | gap _ _ _ ih => exact ih
  | lexeme shape kind _ ih =>
    obtain ⟨lexemes, eof, rfl, last, inner⟩ := ih
    refine ⟨_ :: lexemes, eof, rfl, last, fun t ht => ?_⟩
    rcases List.mem_cons.1 ht with rfl | ht
    · exact shape.kind_ne_eof kind
    · exact inner t ht

theorem Scans.ne_nil {k : Cursor} {cs : List Char} {ts : List Token} (h : Scans k cs ts) : ts ≠ [] := by
  obtain ⟨lexemes, eof, rfl, -⟩ := h.ends
  simp

end Token

/-! ## Places -/

namespace Cursor

theorem past_offset (k : Cursor) (cs : List Char) : (k.past cs).offset = k.offset + cs.length := by
  induction cs generalizing k with
  | nil => rfl
  | cons c cs ih =>
    have step : (k.step c).offset = k.offset + 1 := by
      unfold step
      split <;> rfl
    rw [past_cons, ih, step, List.length_cons]
    omega

theorem line_past (k : Cursor) (cs : List Char) : (k.past cs).line = k.line + cs.count '\n' := by
  induction cs generalizing k with
  | nil => rfl
  | cons c cs ih =>
    rw [past_cons, ih, step]
    by_cases feed : c = '\n'
    · simp [feed]
      omega
    · simp [feed]

theorem line_le_past (k : Cursor) (cs : List Char) : k.line ≤ (k.past cs).line := by
  induction cs generalizing k with
  | nil => exact Nat.le_refl _
  | cons c cs ih =>
    have step : k.line ≤ (k.step c).line := by
      unfold step
      split
      · exact Nat.le_succ _
      · exact Nat.le_refl _
    exact Nat.le_trans step (ih _)

/-- On one line the start of the line stays. -/
theorem lineStart_past {k : Cursor} {cs : List Char} (h : (k.past cs).line = k.line) :
    (k.past cs).lineStart = k.lineStart := by
  induction cs generalizing k with
  | nil => rfl
  | cons c cs ih =>
    have later := line_le_past (k.step c) cs
    rw [past_cons] at h ⊢
    by_cases feed : c = '\n'
    · -- a line feed would leave the cursor on a later line
      have lower : (k.step c).line = k.line + 1 := by rw [step, if_pos feed]
      omega
    · have same : k.step c = { k with offset := k.offset + 1 } := if_neg feed
      rw [same] at h ⊢
      exact ih h

theorem lineStart_le_offset {k : Cursor} (h : k.lineStart ≤ k.offset) (cs : List Char) :
    (k.past cs).lineStart ≤ (k.past cs).offset := by
  induction cs generalizing k with
  | nil => exact h
  | cons c cs ih =>
    refine ih ?_
    unfold step
    split
    · exact Nat.le_refl _
    · exact Nat.le_succ_of_le h

/-- A cursor that has moved is at another line or column. -/
theorem eq_nil_of_span_past {k : Cursor} (hk : k.lineStart ≤ k.offset) {cs : List Char} {length : Nat}
    (h : (k.past cs).span length = k.span length) : cs = [] := by
  obtain ⟨line, col, -⟩ := Span.mk.inj h
  have lineStart := lineStart_past line
  have offset := past_offset k cs
  unfold Cursor.col at col
  exact List.length_eq_zero_iff.1 (by omega)

end Cursor

namespace Token

/-- A token stands in a source after its first `a` characters: its span is taken from the cursor
there. -/
def StandsAt (source : List Char) (t : Token) (a : Nat) : Prop :=
  a + t.span.length ≤ source.length ∧
    t.span = (Cursor.start.past (source.take a)).span t.span.length

theorem StandsAt.eq {source : List Char} {t : Token} {a b : Nat} (h : t.StandsAt source a)
    (h' : t.StandsAt source b) : a = b := by
  -- the cursors at both places agree in line and column, so nothing lies between them
  have forward {a n : Nat} (h : t.StandsAt source a) (h' : t.StandsAt source (a + n)) : n = 0 := by
    obtain ⟨-, here⟩ := h
    obtain ⟨bound, there⟩ := h'
    rw [List.take_add, Cursor.past_append, here] at there
    have start : Cursor.start.lineStart ≤ Cursor.start.offset := Nat.le_refl _
    have stays := Cursor.eq_nil_of_span_past (Cursor.lineStart_le_offset start _) there.symm
    have none := congrArg List.length stays
    simp only [List.length_take, List.length_drop, List.length_nil] at none
    omega
  rcases Nat.le_total a b with le | le
  · obtain ⟨n, rfl⟩ := Nat.exists_eq_add_of_le le
    rw [forward h h', Nat.add_zero]
  · obtain ⟨n, rfl⟩ := Nat.exists_eq_add_of_le le
    rw [forward h' h, Nat.add_zero]

/-- The token of a piece that is cut from the middle of a source stands there. -/
theorem standsAt_lexeme {before : List Char} {t : Token} (lexeme after : List Char)
    (h : t.span = (Cursor.start.past before).span lexeme.length) :
    t.StandsAt (before ++ (lexeme ++ after)) before.length := by
  have length : t.span.length = lexeme.length := by rw [h]; rfl
  refine ⟨?_, ?_⟩
  · simp only [List.length_append]
    omega
  · rw [List.take_left, length]
    exact h

/-- Every token of a text stands in it, and so not before it. -/
theorem Scans.standsAt {k : Cursor} {cs : List Char} {ts : List Token} (h : Scans k cs ts)
    {before : List Char} (hk : k = Cursor.start.past before) :
    ∀ t ∈ ts, ∃ a ≥ before.length, t.StandsAt (before ++ cs) a := by
  -- over the pieces; each piece moves from the text into `before`
  induction h generalizing before with
  | done k =>
    subst hk
    intro t ht
    obtain rfl := List.mem_singleton.1 ht
    exact ⟨_, Nat.le_refl _, standsAt_lexeme [] [] rfl⟩
  | @gap k c piece ts _ _ _ ih =>
    subst hk
    intro t ht
    obtain ⟨a, later, stands⟩ := ih (Cursor.past_append ..).symm t ht
    rw [List.append_assoc] at stands
    rw [List.length_append] at later
    exact ⟨a, Nat.le_of_add_right_le later, stands⟩
  | @lexeme k c piece kind ts _ _ _ ih =>
    subst hk
    intro t ht
    rcases List.mem_cons.1 ht with rfl | ht
    · exact ⟨_, Nat.le_refl _, standsAt_lexeme (c :: piece.taken) piece.rest rfl⟩
    · obtain ⟨a, later, stands⟩ := ih (Cursor.past_append ..).symm t ht
      rw [List.append_assoc] at stands
      rw [List.length_append] at later
      exact ⟨a, Nat.le_of_add_right_le later, stands⟩

end Token

end ScriptLang
