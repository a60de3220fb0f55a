/-
# ScriptLang.Proofs.Token.Recut — a piece is cut again where something else follows it.

How far a piece goes is decided by its own characters and by the one that comes next.  So the same piece is
cut again before any text that begins as the text behind it did, and also at the end of a text and before
a blank, with which no lexeme goes on; a comment goes on with blanks, but not with the end of a line.

A fault is decided earlier still.  Where a stranger or a second point keeps a piece from being cut, nothing
that comes after it is looked at; only an opening quote is a fault because of all that follows.
-/
import ScriptLang.Proofs.Token.Tiling

namespace ScriptLang.Token

/-! ## Runs -/

section

variable {p : Char → Bool} {cs after : List Char}

/-- A run of characters of one sort ends where something else follows. -/
theorem run_ends (all : ∀ x ∈ cs, p x) (stop : ∀ x ∈ after.head?, p x = false) :
    (cs ++ after).takeWhile p = cs ∧ (cs ++ after).dropWhile p = after := by
  rw [List.takeWhile_append_of_pos all, List.dropWhile_append_of_pos all]
  cases after with
  | nil => simp
  | cons x rest => simp [stop x rfl]

/-- A run that was taken from a text is taken again. -/
theorem run_again (cs : List Char) (stop : ∀ x ∈ after.head?, p x = false) :
    (cs.takeWhile p ++ after).takeWhile p = cs.takeWhile p ∧ (cs.takeWhile p ++ after).dropWhile p = after := by
  apply run_ends
  · intro x hx
    exact List.mem_takeWhile_imp hx
  · exact stop

/-- What is left behind a run does not go on with it. -/
theorem head_dropWhile : ∀ x ∈ (cs.dropWhile p).head?, p x = false := by
  intro x hx
  have first := List.head?_dropWhile_not p cs
  rw [Option.mem_def.1 hx] at first
  simpa using first

end

/-- What begins a word or a number is no blank and no quote. -/
theorem not_gap {c : Char} (h : Text.isWordChar c) : isGap c = false ∧ c ≠ '"' := by
  constructor
  · refine Bool.eq_false_iff.2 fun gap => ?_
    simp only [isGap, Bool.or_eq_true, decide_eq_true_eq] at gap
    rcases gap with ((rfl | rfl) | rfl) | rfl <;> exact absurd h (by decide)
  · rintro rfl
    exact absurd h (by decide)

theorem not_wordChar_of_gap {c : Char} (gap : isGap c) : Text.isWordChar c = false := by
  refine Bool.eq_false_iff.2 fun word => ?_
  simp [(not_gap word).1] at gap

/-- Can a character go on with a number? -/
def isNumberChar (c : Char) : Bool := c.isDigit || c = '.'

theorem not_numberChar_of_gap {c : Char} (gap : isGap c) : isNumberChar c = false := by
  have noWord := not_wordChar_of_gap gap
  simp only [Text.isWordChar, Bool.or_eq_false_iff] at noWord
  simp only [isNumberChar, noWord.2, Bool.false_or, decide_eq_false_iff_not]
  rintro rfl
  exact absurd gap (by decide)

/-! ## Pieces -/

/-- What may follow a piece that is cut again: what begins as the text behind it did, or nothing, or a
blank, which after a comment has to end the line. -/
def Piece.Admits (piece : Piece) (after : List Char) : Prop :=
  after.head? = piece.rest.head? ∨ ∀ x ∈ after.head?, isGap x ∧ (piece.kind = none → endsComment x)

variable {c : Char} {cs after : List Char} {piece : Piece}

/-- A lexeme that goes on neither with what is behind it nor with a blank goes on with nothing that it
admits. -/
theorem Piece.Admits.stops (h : piece.Admits after) {p : Char → Bool}
    (behind : ∀ x ∈ piece.rest.head?, p x = false) (blank : ∀ x, isGap x → p x = false) :
    ∀ x ∈ after.head?, p x = false := by
  intro x hx
  rcases h with same | gap
  · exact behind x (same ▸ hx)
  · exact blank x (gap x hx).1

/-! ### Numbers -/

/-- The digits of a number before its point. -/
theorem run_to_point {ws : List Char} (whole : ∀ x ∈ ws, x.isDigit) (rest : List Char) :
    (ws ++ '.' :: rest).takeWhile Char.isDigit = ws ∧
      (ws ++ '.' :: rest).dropWhile Char.isDigit = '.' :: rest := by
  apply run_ends whole
  intro x hx
  obtain rfl := Option.some.inj hx
  rfl

theorem digits_end {ws : List Char} (whole : ∀ x ∈ ws, x.isDigit)
    (stop : ∀ x ∈ after.head?, isNumberChar x = false) :
    (ws ++ after).takeWhile Char.isDigit = ws ∧ (ws ++ after).dropWhile Char.isDigit = after := by
  apply run_ends whole
  intro x hx
  have noNumber := stop x hx
  simp only [isNumberChar, Bool.or_eq_false_iff] at noNumber
  exact noNumber.1

theorem cutNumber_whole {ws : List Char} (whole : ∀ x ∈ ws, x.isDigit)
    (stop : ∀ x ∈ after.head?, isNumberChar x = false) :
    cutNumber c (ws ++ after) = .ok ⟨some .number, ws, after⟩ := by
  obtain ⟨taken, left⟩ := digits_end whole stop
  unfold cutNumber
  simp only [taken, left]
  split
  · exact absurd (stop '.' rfl) (by decide)
  · rfl

theorem cutNumber_fraction {ws fs : List Char} (whole : ∀ x ∈ ws, x.isDigit) (places : ∀ x ∈ fs, x.isDigit)
    (stop : ∀ x ∈ after.head?, isNumberChar x = false) :
    cutNumber c (ws ++ '.' :: (fs ++ after)) = .ok ⟨some .number, ws ++ '.' :: fs, after⟩ := by
  obtain ⟨taken, left⟩ := run_to_point whole (fs ++ after)
  obtain ⟨taken', left'⟩ := digits_end places stop
  unfold cutNumber
  simp only [taken, left, taken', left']
  split
  · exact absurd (stop '.' rfl) (by decide)
  · rfl

theorem cutNumber_secondPoint {ws fs : List Char} (whole : ∀ x ∈ ws, x.isDigit)
    (places : ∀ x ∈ fs, x.isDigit) (more : List Char) :
    cutNumber c (ws ++ '.' :: (fs ++ '.' :: more)) = .error ⟨c :: (ws ++ '.' :: fs), '.', .secondPoint⟩ := by
  obtain ⟨taken, left⟩ := run_to_point whole (fs ++ '.' :: more)
  obtain ⟨taken', left'⟩ := run_to_point places more
  unfold cutNumber
  simp only [taken, left, taken', left']

/-- A number is digits, or digits with a point among them, and stops before what is neither. -/
theorem cutNumber_parts (h : cutNumber c cs = .ok piece) :
    (∀ x ∈ piece.rest.head?, isNumberChar x = false) ∧ piece.kind = some .number ∧
      ((∀ x ∈ piece.taken, x.isDigit) ∨
        ∃ ws fs, piece.taken = ws ++ '.' :: fs ∧ (∀ x ∈ ws, x.isDigit) ∧ ∀ x ∈ fs, x.isDigit) := by
  have digits (xs : List Char) : ∀ x ∈ xs.takeWhile Char.isDigit, x.isDigit := fun x hx =>
    List.mem_takeWhile_imp hx
  have stops {xs : List Char} (noPoint : ∀ rest, xs.dropWhile Char.isDigit = '.' :: rest → False) :
      ∀ x ∈ (xs.dropWhile Char.isDigit).head?, isNumberChar x = false := by
    intro x hx
    simp only [isNumberChar, head_dropWhile x hx, Bool.false_or, decide_eq_false_iff_not]
    rintro rfl
    obtain ⟨rest, next⟩ := List.head?_eq_some_iff.1 hx
    exact noPoint rest next
  unfold cutNumber at h
  dsimp only at h
  split at h
  · next rest point =>
    split at h
    · cases h
    · next noPoint =>
      cases h
      exact ⟨stops noPoint, rfl, .inr ⟨_, _, rfl, digits cs, digits rest⟩⟩
  · next noPoint =>
    cases h
    exact ⟨stops noPoint, rfl, .inl (digits cs)⟩

theorem cutNumber_again (h : cutNumber c cs = .ok piece) (admits : piece.Admits after) :
    cutNumber c (piece.taken ++ after) = .ok { piece with rest := after } := by
  obtain ⟨behind, kind, parts⟩ := cutNumber_parts h
  have stop := admits.stops behind fun x => not_numberChar_of_gap
  obtain ⟨_, taken, rest⟩ := piece
  cases kind
  rcases parts with whole | ⟨ws, fs, rfl, whole, places⟩
  · exact cutNumber_whole whole stop
  · rw [List.append_assoc, List.cons_append]
    exact cutNumber_fraction whole places stop

/-! ### Strings, signs and words -/

theorem cutString_body {body : List Char} (inside : ∀ x ∈ body, x ≠ '"') :
    cutString ((body ++ ['"']) ++ after) = .ok ⟨some .string, body ++ ['"'], after⟩ := by
  have other : ∀ x ∈ body, decide (x ≠ '"') = true := fun x hx => decide_eq_true (inside x hx)
  have stop : ∀ x ∈ ('"' :: after).head?, decide (x ≠ '"') = false := by
    intro x hx
    obtain rfl := Option.some.inj hx
    rfl
  obtain ⟨taken, left⟩ := run_ends other stop
  rw [List.append_assoc, List.singleton_append]
  simp only [cutString, taken, left]

/-- No sign of two characters ends with a blank. -/
theorem ofChars?_gap {d : Char} (gap : isGap d) : Sign.ofChars? c d = none := by
  simp only [isGap, Bool.or_eq_true, decide_eq_true_eq] at gap
  unfold Sign.ofChars?
  split <;> first | rfl | simp at gap

theorem cutSign?_again (h : cutSign? c cs = some piece) (admits : piece.Admits after) :
    cutSign? c (piece.taken ++ after) = some { piece with rest := after } := by
  -- a sign of one character is cut before what makes no sign of two with it
  have single (h : (Sign.ofChar? c).map (fun s => (⟨some (.sign s), [], cs⟩ : Piece)) = some piece)
      (alone : ∀ x ∈ cs.head?, Sign.ofChars? c x = none) :
      cutSign? c (piece.taken ++ after) = some { piece with rest := after } := by
    obtain ⟨s, spelled, rfl⟩ := Option.map_eq_some_iff.1 h
    have stop : ∀ x ∈ after.head?, (Sign.ofChars? c x).isSome = false := by
      apply admits.stops
      · intro x hx
        simp [alone x hx]
      · intro x gap
        simp [ofChars?_gap gap]
    show cutSign? c after = some ⟨some (.sign s), [], after⟩
    cases after with
    | nil => simp [cutSign?, spelled]
    | cons x rest =>
      have none : Sign.ofChars? c x = none := by simpa using stop x rfl
      simp [cutSign?, none, spelled]
  unfold cutSign? at h
  split at h
  · next d rest =>
    split at h
    · next s pair =>
      cases h
      show cutSign? c (d :: after) = _
      simp only [cutSign?, pair]
    · next noPair => exact single h (by simpa using noPair)
  · exact single h (by simp)

theorem cutWord_again (admits : (cutWord c cs).Admits after) :
    cutWord c ((cutWord c cs).taken ++ after) = { cutWord c cs with rest := after } := by
  have stop := admits.stops (fun x hx => head_dropWhile x hx) fun x => not_wordChar_of_gap
  obtain ⟨taken, left⟩ := run_again cs stop
  show cutWord c (cs.takeWhile Text.isWordChar ++ after) = _
  simp only [cutWord, taken, left]

theorem cutComment_again (admits : (cutComment cs).Admits after) :
    cutComment ((cutComment cs).taken ++ after) = { cutComment cs with rest := after } := by
  have stop : ∀ x ∈ after.head?, (!endsComment x) = false := by
    intro x hx
    rcases admits with same | gap
    · exact head_dropWhile x (same ▸ hx)
    · simp [(gap x hx).2 rfl]
  obtain ⟨taken, left⟩ := run_again cs stop
  show cutComment (cs.takeWhile (!endsComment ·) ++ after) = _
  simp only [cutComment, taken, left]

/-! ### All pieces -/

/-- The same piece is cut before every text that it admits. -/
theorem cut_again (h : cut c cs = .ok piece) (admits : piece.Admits after) :
    cut c (piece.taken ++ after) = .ok { piece with rest := after } := by
  unfold cut at h ⊢
  by_cases gap : isGap c
  · rw [if_pos gap] at h ⊢
    cases h
    rfl
  rw [if_neg gap] at h ⊢
  by_cases quote : c = '"'
  · rw [if_pos quote] at h ⊢
    obtain ⟨body, rest, inside, rfl⟩ := cutString_closed h
    exact cutString_body inside
  rw [if_neg quote] at h ⊢
  by_cases digit : c.isDigit
  · rw [if_pos digit] at h ⊢
    exact cutNumber_again h admits
  rw [if_neg digit] at h ⊢
  by_cases letter : Text.isAlphabetic c
  · rw [if_pos letter] at h ⊢
    cases h
    rw [cutWord_again admits]
  rw [if_neg letter] at h ⊢
  by_cases comment : c = '/' ∧ cs.head? = some '/'
  · rw [if_pos comment] at h
    cases h
    -- the second slash is a part of the comment
    have slashes : c = '/' ∧ ((cutComment cs).taken ++ after).head? = some '/' := by
      obtain ⟨slash, next⟩ := comment
      obtain ⟨rest, rfl⟩ := List.head?_eq_some_iff.1 next
      exact ⟨slash, rfl⟩
    rw [if_pos slashes, cutComment_again admits]
  · rw [if_neg comment] at h
    split at h
    · next piece' sign =>
      cases h
      have alone : ¬(c = '/' ∧ (piece.taken ++ after).head? = some '/') := by
        rintro ⟨slash, next⟩
        refine comment ⟨slash, ?_⟩
        rw [← cutSign?_append sign]
        generalize piece.taken = taken at next ⊢
        cases taken with
        | cons d rest => exact next
        | nil =>
          rcases admits with same | gap
          · exact same.symm.trans next
          · exact absurd (gap '/' next).1 (by decide)
      rw [if_neg alone, cutSign?_again sign admits]
    · cases h

/-! ## Faults -/

variable {snag : Snag}

/-- No piece is cut where something snags. -/
theorem cut_of_snags (h : Snags c cs snag) : cut c cs = .error snag := by
  cases h with
  | unrecognized stranger =>
    simp only [BeginsPiece, not_or, Bool.not_eq_true] at stranger
    obtain ⟨noGap, noQuote, noDigit, noLetter, noSign⟩ := stranger
    have none : cutSign? c cs = none := (cutSign?_eq_none_iff cs).2 (by simpa using noSign)
    have noComment : ¬(c = '/' ∧ cs.head? = some '/') := by
      rintro ⟨rfl, -⟩
      cases noSign
    unfold cut
    rw [if_neg (by simp [noGap]), if_neg noQuote, if_neg (by simp [noDigit]), if_neg (by simp [noLetter]),
      if_neg noComment, none]
  | secondPoint first whole places =>
    obtain ⟨noGap, noQuote⟩ := not_gap (by simp [Text.isWordChar, first] : Text.isWordChar c)
    unfold cut
    rw [if_neg (by simp [noGap]), if_neg noQuote, if_pos first]
    exact cutNumber_secondPoint whole places _
  | unterminated unclosed =>
    have all : cs.dropWhile (· ≠ '"') = [] :=
      List.dropWhile_eq_nil_iff.2 fun x hx => decide_eq_true (unclosed x hx)
    show cutString cs = _
    unfold cutString
    rw [all]

/-- What follows a fault has no part in it, unless the fault is that a string is not closed. -/
theorem cut_snag_again (h : cut c cs = .error snag) (decided : snag.fault ≠ .unterminatedString)
    (more : List Char) :
    ∃ cs', snag.before ++ snag.found :: more = c :: cs' ∧ cut c cs' = .error snag := by
  cases cut_snags h with
  | unrecognized stranger => exact ⟨more, rfl, cut_of_snags (.unrecognized stranger)⟩
  | @secondPoint _ ws fs _ first whole places =>
    exact ⟨ws ++ '.' :: (fs ++ '.' :: more), by simp, cut_of_snags (.secondPoint first whole places)⟩
  | unterminated => exact absurd rfl decided

end ScriptLang.Token
