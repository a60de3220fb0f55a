/-
# ScriptLang.Proofs.Token.Tiling — tokens tile their source.

What a text spells as one lexeme can be said without a scanner, and so can what may stand in a gap and at
which line and column a text stands.  In these terms a source that can be cut is a gap, a lexeme, a gap, and
so on to a last gap; its tokens are the lexemes in order, each of the only kind that it spells and at its
place, and one end token.  No lexeme could have gone on with what follows it.
-/
import ScriptLang.Proofs.Token.Pieces
import Mathlib.Data.List.Induction

namespace ScriptLang

/-! ## Lexemes -/

/-- The text is one lexeme of the kind.  No text is a lexeme of the end of a source. -/
inductive Kind.Spells : Kind → List Char → Prop
  | sign (s : Sign) : Spells (.sign s) s.text.toList
  | keyword (w : Keyword) : Spells (.keyword w) w.text.toList
  | identifier {c : Char} {cs : List Char} (first : Text.isAlphabetic c)
    (rest : ∀ x ∈ cs, Text.isWordChar x) (free : ∀ w : Keyword, w.text.toList ≠ c :: cs) :
    Spells .identifier (c :: cs)
  | whole {c : Char} {cs : List Char} (first : c.isDigit) (rest : ∀ x ∈ cs, x.isDigit) :
    Spells .number (c :: cs)
  | fraction {c : Char} {cs ds : List Char} (first : c.isDigit) (rest : ∀ x ∈ cs, x.isDigit)
    (places : ∀ x ∈ ds, x.isDigit) : Spells .number (c :: (cs ++ '.' :: ds))
  | string {body : List Char} (inside : ∀ x ∈ body, x ≠ '"') : Spells .string ('"' :: (body ++ ['"']))

/-! ### Signs and words -/

namespace Sign

variable {c d : Char} {s s' : Sign}

theorem text_cases (s : Sign) :
    (∃ c, s.text.toList = [c] ∧ ofChar? c = some s) ∨
      ∃ c d, s.text.toList = [c, d] ∧ ofChars? c d = some s := by
  cases s
  all_goals first
    | exact .inl ⟨_, rfl, rfl⟩
    | exact .inr ⟨_, _, rfl, rfl⟩

theorem text_of_ofChar? (h : ofChar? c = some s) : s.text.toList = [c] := by
  unfold ofChar? at h
  split at h <;> cases h <;> rfl

theorem text_of_ofChars? (h : ofChars? c d = some s) : s.text.toList = [c, d] := by
  unfold ofChars? at h
  split at h <;> cases h <;> rfl

/-- What begins a sign begins nothing else. -/
theorem plain_of_ofChar? (h : (ofChar? c).isSome) :
    c.isDigit = false ∧ Text.isAlphabetic c = false ∧ c ≠ '"' := by
  unfold ofChar? at h
  split at h
  case h_21 => cases h
  all_goals decide

theorem begins (s : Sign) : ∃ c cs, s.text.toList = c :: cs ∧ (ofChar? c).isSome := by
  rcases s.text_cases with ⟨c, text, one⟩ | ⟨c, d, text, two⟩
  · exact ⟨c, [], text, by rw [one]; rfl⟩
  · exact ⟨c, [d], text, ofChar?_isSome_of_ofChars? two⟩

theorem text_injective (h : s.text.toList = s'.text.toList) : s = s' := by
  rcases s.text_cases with ⟨c, text, one⟩ | ⟨c, d, text, two⟩ <;>
    rcases s'.text_cases with ⟨c', text', one'⟩ | ⟨c', d', text', two'⟩ <;>
    rw [text, text'] at h
  · obtain ⟨rfl, -⟩ := List.cons.inj h
    exact Option.some.inj (one.symm.trans one')
  · simp at h
  · simp at h
  · obtain ⟨rfl, rest⟩ := List.cons.inj h
    obtain ⟨rfl, -⟩ := List.cons.inj rest
    exact Option.some.inj (two.symm.trans two')

end Sign

theorem Text.not_alphabetic_of_digit {c : Char} (h : c.isDigit) : isAlphabetic c = false := by
  have bounds := h
  simp only [Char.isDigit, Bool.and_eq_true, decide_eq_true_eq, UInt32.le_iff_toNat_le] at bounds
  change 48 ≤ c.toNat ∧ c.toNat ≤ 57 at bounds
  rw [isAlphabetic_ascii (by omega)]
  refine Bool.eq_false_iff.2 fun letter => ?_
  change (decide (65 ≤ c.val ∧ c.val ≤ 90) || (decide (97 ≤ c.val) && decide (c.val ≤ 122))) = true at letter
  simp only [Bool.or_eq_true, Bool.and_eq_true, decide_eq_true_eq, UInt32.le_iff_toNat_le] at letter
  change (65 ≤ c.toNat ∧ c.toNat ≤ 90) ∨ (97 ≤ c.toNat ∧ c.toNat ≤ 122) at letter
  omega

/-- A reserved word is made of letters. -/
theorem Keyword.letters (w : Keyword) :
    ∃ c cs, w.text.toList = c :: cs ∧ Text.isAlphabetic c ∧ ∀ x ∈ cs, Text.isWordChar x := by
  cases w
  all_goals exact ⟨_, _, rfl, by decide, List.all_eq_true.1 (by decide)⟩

theorem Keyword.ofText?_text (w : Keyword) : ofText? w.text = some w := by
  cases w <;> rfl

theorem Keyword.text_of_ofText? {text : String} {w : Keyword} (h : ofText? text = some w) :
    w.text = text := by
  have found := List.find?_some h
  exact eq_of_beq found

/-- A word is spelled by its own kind. -/
theorem Kind.spells_ofWord {c : Char} {cs : List Char} (first : Text.isAlphabetic c)
    (rest : ∀ x ∈ cs, Text.isWordChar x) : (Kind.ofWord (String.ofList (c :: cs))).Spells (c :: cs) := by
  unfold Kind.ofWord
  cases word : Keyword.ofText? (String.ofList (c :: cs)) with
  | some w =>
    have text : w.text.toList = c :: cs := by rw [Keyword.text_of_ofText? word, String.toList_ofList]
    rw [← text]
    exact .keyword w
  | none =>
    refine .identifier first rest fun w text => ?_
    rw [← text, String.ofList_toList, Keyword.ofText?_text] at word
    cases word

/-- A word that is not reserved is a name. -/
theorem Kind.identifier_spells {c : Char} {cs : List Char} (first : Text.isAlphabetic c)
    (rest : cs.all Text.isWordChar) (free : ofWord (String.ofList (c :: cs)) = identifier) :
    identifier.Spells (c :: cs) := by
  rw [← free]
  exact spells_ofWord first (List.all_eq_true.1 rest)

/-! ### What the first character tells -/

namespace Kind.Spells

variable {k k' : Kind} {c : Char} {cs : List Char}

/-- A lexeme begins as a sign, as a word, as a number or as a string. -/
theorem inversion (h : k.Spells (c :: cs)) :
    (∃ s, (Sign.ofChar? c).isSome ∧ k = .sign s ∧ s.text.toList = c :: cs) ∨
      (Text.isAlphabetic c ∧ k = .ofWord (String.ofList (c :: cs)) ∧ ∀ x ∈ cs, Text.isWordChar x) ∨
      (c.isDigit ∧ k = .number ∧ ∀ x ∈ cs, x.isDigit ∨ x = '.') ∨
      (c = '"' ∧ k = .string ∧ ∃ body, (∀ x ∈ body, x ≠ '"') ∧ cs = body ++ ['"']) := by
  generalize begins : c :: cs = text at h
  cases h with
  | sign s =>
    obtain ⟨d, ds, text, sign⟩ := s.begins
    obtain ⟨rfl, -⟩ := List.cons.inj (begins.trans text)
    exact .inl ⟨s, sign, rfl, rfl⟩
  | keyword w =>
    obtain ⟨d, ds, text, letter, letters⟩ := w.letters
    obtain ⟨rfl, rfl⟩ := List.cons.inj (begins.trans text)
    refine .inr (.inl ⟨letter, ?_, letters⟩)
    rw [String.ofList_toList, Kind.ofWord, Keyword.ofText?_text]
  | identifier first rest free =>
    obtain ⟨rfl, rfl⟩ := List.cons.inj begins
    refine .inr (.inl ⟨first, ?_, rest⟩)
    unfold Kind.ofWord
    split
    · next w word => exact absurd (by rw [Keyword.text_of_ofText? word, String.toList_ofList]) (free w)
    · rfl
  | whole first rest =>
    obtain ⟨rfl, rfl⟩ := List.cons.inj begins
    exact .inr (.inr (.inl ⟨first, rfl, fun x hx => .inl (rest x hx)⟩))
  | fraction first rest places =>
    obtain ⟨rfl, rfl⟩ := List.cons.inj begins
    refine .inr (.inr (.inl ⟨first, rfl, fun x hx => ?_⟩))
    simp only [List.mem_append, List.mem_cons] at hx
    rcases hx with hx | rfl | hx
    · exact .inl (rest x hx)
    · exact .inr rfl
    · exact .inl (places x hx)
  | string inside =>
    obtain ⟨rfl, rfl⟩ := List.cons.inj begins
    exact .inr (.inr (.inr ⟨rfl, rfl, _, inside, rfl⟩))

theorem of_digit (h : k.Spells (c :: cs)) (digit : c.isDigit) :
    k = .number ∧ ∀ x ∈ cs, x.isDigit ∨ x = '.' := by
  rcases h.inversion with ⟨s, sign, -⟩ | ⟨letter, -⟩ | ⟨-, kind, tail⟩ | ⟨rfl, -⟩
  · simp [(Sign.plain_of_ofChar? sign).1] at digit
  · simp [Text.not_alphabetic_of_digit digit] at letter
  · exact ⟨kind, tail⟩
  · simp at digit

theorem of_letter (h : k.Spells (c :: cs)) (letter : Text.isAlphabetic c) :
    k = .ofWord (String.ofList (c :: cs)) ∧ ∀ x ∈ cs, Text.isWordChar x := by
  rcases h.inversion with ⟨s, sign, -⟩ | ⟨-, kind, tail⟩ | ⟨digit, -⟩ | ⟨rfl, -⟩
  · simp [(Sign.plain_of_ofChar? sign).2.1] at letter
  · exact ⟨kind, tail⟩
  · simp [Text.not_alphabetic_of_digit digit] at letter
  · exact absurd letter (by decide)

theorem of_quote (h : k.Spells ('"' :: cs)) :
    k = .string ∧ ∃ body, (∀ x ∈ body, x ≠ '"') ∧ cs = body ++ ['"'] := by
  rcases h.inversion with ⟨s, sign, -⟩ | ⟨letter, -⟩ | ⟨digit, -⟩ | ⟨-, kind, tail⟩
  · exact absurd rfl (Sign.plain_of_ofChar? sign).2.2
  · exact absurd letter (by decide)
  · exact absurd digit (by decide)
  · exact ⟨kind, tail⟩

theorem of_sign (h : k.Spells (c :: cs)) (sign : (Sign.ofChar? c).isSome) :
    ∃ s, k = .sign s ∧ s.text.toList = c :: cs := by
  obtain ⟨noDigit, noLetter, noQuote⟩ := Sign.plain_of_ofChar? sign
  rcases h.inversion with ⟨s, -, spelled⟩ | ⟨letter, -⟩ | ⟨digit, -⟩ | ⟨quote, -⟩
  · exact ⟨s, spelled⟩
  · simp [noLetter] at letter
  · simp [noDigit] at digit
  · exact absurd quote noQuote

/-- No lexeme begins with a line feed. -/
theorem not_feed (h : k.Spells (c :: cs)) : c ≠ '\n' := by
  rintro rfl
  rcases h.inversion with ⟨s, sign, -⟩ | ⟨letter, -⟩ | ⟨digit, -⟩ | ⟨quote, -⟩
  · cases sign
  · exact absurd letter (by decide)
  · exact absurd digit (by decide)
  · cases quote

theorem ne_nil {lexeme : List Char} (h : k.Spells lexeme) : lexeme ≠ [] := by
  cases h with
  | sign s => obtain ⟨c, cs, text, -⟩ := s.begins; simp [text]
  | keyword w => obtain ⟨c, cs, text, -⟩ := w.letters; simp [text]
  | identifier | whole | fraction | string => exact List.cons_ne_nil _ _

theorem kind_ne_eof {lexeme : List Char} (h : k.Spells lexeme) : k ≠ .eof := by
  cases h <;> exact nofun

/-- A text is a lexeme of one kind at most. -/
theorem unique {lexeme : List Char} (h : k.Spells lexeme) (h' : k'.Spells lexeme) : k = k' := by
  obtain ⟨c, cs, rfl⟩ := List.exists_cons_of_ne_nil h.ne_nil
  rcases h.inversion with ⟨s, sign, rfl, text⟩ | ⟨letter, rfl, -⟩ | ⟨digit, rfl, -⟩ | ⟨rfl, rfl, -⟩
  · obtain ⟨s', rfl, text'⟩ := h'.of_sign sign
    rw [Sign.text_injective (text.trans text'.symm)]
  · exact (h'.of_letter letter).1.symm
  · exact (h'.of_digit digit).1.symm
  · exact h'.of_quote.1.symm

end Kind.Spells

/-! ## Tilings -/

/-- The run of `length` characters right behind the text: its line is one more than the line feeds of the
text, its column one more than the characters since the last of them. -/
def Span.behind (text : List Char) (length : Nat) : Span :=
  ⟨1 + text.count '\n', 1 + (text.reverse.takeWhile (· != '\n')).length, length⟩

namespace Token

/-- The text that a token stands for: its value, in quotes if it is a string. -/
def lexeme (t : Token) : List Char :=
  match t.kind with
  | .string => '"' :: (t.value.toList ++ ['"'])
  | _ => t.value.toList

/-- What follows a lexeme does not go on with it. -/
def Maximal (lexeme after : List Char) : Prop :=
  ∀ more, more ≠ [] → more <+: after → ∀ kind : Kind, ¬kind.Spells (lexeme ++ more)

/-- The text holds blanks and comments only.  A comment runs up to a line end or to the end of the source,
so what stands after the gap has a part in it. -/
inductive Gap : List Char → List Char → Prop
  | nil {after : List Char} : Gap [] after
  | blank {c : Char} {gap after : List Char} (one : c = ' ' ∨ c = '\t' ∨ c = '\r' ∨ c = '\n') :
    Gap gap after → Gap (c :: gap) after
  | comment {body gap after : List Char} (inside : ∀ x ∈ body, x ≠ '\r' ∧ x ≠ '\n')
    (stop : ∀ x ∈ (gap ++ after).head?, x = '\r' ∨ x = '\n') :
    Gap gap after → Gap ('/' :: '/' :: (body ++ gap)) after

/-- Behind `before`, the text is gaps and lexemes in turn, and the tokens are those lexemes and the end. -/
inductive Tiles : List Char → List Char → List Token → Prop
  | last {before gap : List Char} : Gap gap [] →
    Tiles before gap [⟨.eof, "", .behind (before ++ gap) 0⟩]
  | next {before gap after : List Char} {t : Token} {ts : List Token} :
    Gap gap (t.lexeme ++ after) → t.kind.Spells t.lexeme → Maximal t.lexeme after →
    t.span = .behind (before ++ gap) t.lexeme.length → Tiles (before ++ gap ++ t.lexeme) after ts →
    Tiles before (gap ++ (t.lexeme ++ after)) (t :: ts)

/-! ### Pieces as tiles -/

/-- A lexeme is maximal if it goes on with characters of one sort only, and none of that sort is next. -/
theorem Maximal.of_next {lexeme after : List Char} (goesOn : Char → Prop)
    (tail : ∀ (k : Kind) more, k.Spells (lexeme ++ more) → ∀ x ∈ more, goesOn x)
    (stop : ∀ x ∈ after.head?, ¬goesOn x) : Maximal lexeme after := by
  intro more ne here k spelled
  obtain ⟨x, xs, rfl⟩ := List.exists_cons_of_ne_nil ne
  obtain ⟨rest, rfl⟩ := here
  exact stop x rfl (tail k _ spelled x List.mem_cons_self)

variable {c : Char} {cs : List Char} {piece : Piece}

theorem cutNumber_lexeme (digit : c.isDigit) (h : cutNumber c cs = .ok piece) :
    piece.kind = some .number ∧ Kind.number.Spells (c :: piece.taken) ∧
      Maximal (c :: piece.taken) piece.rest := by
  have digits (xs : List Char) : ∀ x ∈ xs.takeWhile Char.isDigit, x.isDigit := fun x hx =>
    List.mem_takeWhile_imp hx
  -- a number goes on with digits and points, and neither is next
  have maximal {taken xs : List Char} (noPoint : ∀ rest, xs.dropWhile Char.isDigit = '.' :: rest → False) :
      Maximal (c :: taken) (xs.dropWhile Char.isDigit) := by
    refine .of_next (fun x => x.isDigit ∨ x = '.') (fun k more spelled x hx => ?_) fun x hx => ?_
    · exact (spelled.of_digit digit).2 x (List.mem_append_right _ hx)
    · have first := List.head?_dropWhile_not Char.isDigit xs
      obtain ⟨rest, next⟩ := List.head?_eq_some_iff.1 hx
      rw [next] at first
      rintro (another | rfl)
      · simp [another] at first
      · exact noPoint rest next
  unfold cutNumber at h
  dsimp only at h
  split at h
  · next rest point =>
    split at h
    · cases h
    · next noPoint =>
      cases h
      exact ⟨rfl, .fraction digit (digits cs) (digits rest), maximal noPoint⟩
  · next noPoint =>
    cases h
    exact ⟨rfl, .whole digit (digits cs), maximal noPoint⟩

theorem cutString_lexeme (h : cutString cs = .ok piece) :
    Kind.string.Spells ('"' :: piece.taken) ∧ Maximal ('"' :: piece.taken) piece.rest := by
  obtain ⟨body, rest, inside, rfl⟩ := cutString_closed h
  refine ⟨.string inside, .of_next (fun _ => False) (fun k more spelled => ?_) (by simp)⟩
  -- the quote that closes the lexeme would stand inside a longer one
  obtain ⟨-, body', free, same⟩ := spelled.of_quote
  rcases List.eq_nil_or_concat more with rfl | ⟨xs, x, rfl⟩
  · simp
  · have same : (body ++ ['"'] ++ xs) ++ [x] = body' ++ ['"'] := by simpa using same
    have whole : body ++ ['"'] ++ xs = body' := (List.append_inj' same rfl).1
    exact absurd rfl (free '"' (by simp [← whole]))

theorem cutWord_lexeme (letter : Text.isAlphabetic c) :
    (Kind.ofWord (String.ofList (c :: (cutWord c cs).taken))).Spells (c :: (cutWord c cs).taken) ∧
      Maximal (c :: (cutWord c cs).taken) (cutWord c cs).rest := by
  refine ⟨Kind.spells_ofWord letter fun x hx => List.mem_takeWhile_imp hx, ?_⟩
  refine .of_next (fun x => Text.isWordChar x) (fun k more spelled x hx => ?_) fun x hx => ?_
  · exact (spelled.of_letter letter).2 x (List.mem_append_right _ hx)
  · have first := List.head?_dropWhile_not Text.isWordChar cs
    rw [show (cs.dropWhile Text.isWordChar).head? = some x from hx] at first
    simpa using first

theorem cutSign?_lexeme (h : cutSign? c cs = some piece) :
    ∃ s, piece.kind = some (.sign s) ∧ (Kind.sign s).Spells (c :: piece.taken) ∧
      Maximal (c :: piece.taken) piece.rest := by
  -- a sign of one character goes on with one that makes a sign of two
  have single {xs : List Char} (noPair : ∀ x ∈ xs.head?, Sign.ofChars? c x = none)
      (h : (Sign.ofChar? c).map (fun s => (⟨some (.sign s), [], xs⟩ : Piece)) = some piece) :
      ∃ s, piece.kind = some (.sign s) ∧ (Kind.sign s).Spells (c :: piece.taken) ∧
        Maximal (c :: piece.taken) piece.rest := by
    obtain ⟨s, spelled, rfl⟩ := Option.map_eq_some_iff.1 h
    have text := Sign.text_of_ofChar? spelled
    refine ⟨s, rfl, text ▸ .sign s, ?_⟩
    refine .of_next (fun x => (Sign.ofChars? c x).isSome) (fun k more longer x hx => ?_)
      fun x hx => by simp [noPair x hx]
    obtain ⟨s', rfl, text'⟩ := longer.of_sign (by simp [spelled])
    rcases s'.text_cases with ⟨d, one, -⟩ | ⟨d, e, two, pair⟩
    · simp_all
    · rw [text'] at two
      obtain ⟨rfl, rfl⟩ : c = d ∧ more = [e] := by simpa using two
      obtain rfl := List.mem_singleton.1 hx
      simp [pair]
  unfold cutSign? at h
  split at h
  · next d rest =>
    split at h
    · next s pair =>
      cases h
      have text := Sign.text_of_ofChars? pair
      refine ⟨s, rfl, text ▸ .sign s, .of_next (fun _ => False) (fun k more longer => ?_) (by simp)⟩
      obtain ⟨s', rfl, text'⟩ := longer.of_sign (Sign.ofChar?_isSome_of_ofChars? pair)
      rcases s'.text_cases with ⟨e, one, -⟩ | ⟨e, f, two, -⟩
      · simp [one] at text'
      · rw [two] at text'
        simp_all
    · next noPair => exact single (by simpa using noPair) h
  · exact single (by simp) h

/-- What is cut as a lexeme is one, and as long as it can be. -/
theorem cut_lexeme {kind : Kind} (h : cut c cs = .ok piece) (lexeme : piece.kind = some kind) :
    kind.Spells (c :: piece.taken) ∧ Maximal (c :: piece.taken) piece.rest := by
  unfold cut at h
  split at h
  · cases h
    cases lexeme
  split at h
  · next quote =>
    subst quote
    obtain ⟨body, rest, -, rfl⟩ := cutString_closed h
    cases lexeme
    exact cutString_lexeme h
  split at h
  · next digit =>
    obtain ⟨number, spelled⟩ := cutNumber_lexeme digit h
    cases number.symm.trans lexeme
    exact spelled
  split at h
  · next letter =>
    cases h
    cases lexeme
    exact cutWord_lexeme letter
  split at h
  · cases h
    cases lexeme
  split at h
  · next piece' found =>
    cases h
    obtain ⟨s, sign, spelled⟩ := cutSign?_lexeme found
    cases sign.symm.trans lexeme
    exact spelled
  · cases h

/-- Only strings lose something of their text, and it is put back. -/
theorem lexeme_of_spells {kind : Kind} {text : List Char} (h : kind.Spells text) (span : Span) :
    lexeme ⟨kind, valueOf kind text, span⟩ = text := by
  cases h with
  | sign | keyword | identifier | whole | fraction => simp [lexeme, valueOf]
  | string => simp [lexeme, valueOf]

/-- A piece that is no lexeme goes to the gap before the first of those that follow. -/
theorem Gap.of_piece {after gap : List Char} (shape : Shape c piece) (none : piece.kind = none)
    (rest : piece.rest = gap ++ after) (h : Gap gap after) : Gap (c :: (piece.taken ++ gap)) after := by
  cases shape with
  | blank blank =>
    refine .blank ?_ h
    simpa [isGap, or_assoc] using blank
  | comment inside stop =>
    refine .comment (fun x hx => ?_) (fun x hx => ?_) h
    · have := inside x hx
      simp_all [endsComment]
    · subst rest
      have := stop x hx
      simp only [endsComment, Bool.or_eq_true, decide_eq_true_eq] at this
      exact this.symm
  | string | number | word | sign | twoChars => cases none

theorem Tiles.gap {before : List Char} {ts : List Token} (shape : Shape c piece)
    (none : piece.kind = none) (h : Tiles (before ++ c :: piece.taken) piece.rest ts) :
    Tiles before (c :: (piece.taken ++ piece.rest)) ts := by
  generalize rest : piece.rest = text at h
  cases h with
  | last hg =>
    have whole : Gap (c :: (piece.taken ++ text)) [] := .of_piece shape none (by simp [rest]) hg
    have tiles : Tiles before _ _ := .last whole
    rwa [← List.cons_append, ← List.append_assoc] at tiles
  | @next _ gap after t ts hg spelled maximal span tiles =>
    have whole : Gap (c :: (piece.taken ++ gap)) (t.lexeme ++ after) := .of_piece shape none rest hg
    have same : before ++ c :: (piece.taken ++ gap) = before ++ c :: piece.taken ++ gap := by simp
    rw [← same] at span tiles
    have whole := Tiles.next whole spelled maximal span tiles
    rwa [List.cons_append, List.append_assoc] at whole

theorem Tiles.lexeme {kind : Kind} {before text after : List Char} {ts : List Token}
    (spelled : kind.Spells text) (maximal : Maximal text after) (h : Tiles (before ++ text) after ts) :
    Tiles before (text ++ after) (⟨kind, valueOf kind text, .behind before text.length⟩ :: ts) := by
  have same := lexeme_of_spells spelled (.behind before text.length)
  generalize token : (⟨kind, valueOf kind text, .behind before text.length⟩ : Token) = t at same ⊢
  obtain ⟨rfl, span⟩ : t.kind = kind ∧ t.span = .behind before text.length := by simp [← token]
  clear token
  subst same
  show Tiles before ([] ++ (t.lexeme ++ after)) (t :: ts)
  exact .next .nil spelled maximal (by simpa using span) (by simpa using h)

/-- In a tiling each lexeme is of one kind only. -/
theorem Tiles.kind_unique {before text : List Char} {ts : List Token} (h : Tiles before text ts) :
    ∀ t ∈ ts, ∀ kind : Kind, kind.Spells t.lexeme → kind = t.kind := by
  induction h with
  | last =>
    intro t ht kind spelled
    obtain rfl := List.mem_singleton.1 ht
    exact absurd rfl spelled.ne_nil
  | next _ own _ _ _ ih =>
    intro t ht kind spelled
    rcases List.mem_cons.1 ht with rfl | later
    · exact spelled.unique own
    · exact ih t later kind spelled

/-- Each token stands behind the text before it; the end is where the text ends. -/
theorem Tiles.place {before text : List Char} {ts : List Token} (h : Tiles before text ts) :
    ∀ t ∈ ts, ∃ front after, before ++ text = front ++ (t.lexeme ++ after) ∧
      t.span = .behind front t.lexeme.length ∧
      (t.kind = .eof ∧ t.lexeme = [] ∧ after = [] ∨ t.kind.Spells t.lexeme) := by
  induction h with
  | @last before gap _ =>
    intro t ht
    obtain rfl := List.mem_singleton.1 ht
    exact ⟨before ++ gap, [], (List.append_nil _).symm, rfl, .inl ⟨rfl, rfl, rfl⟩⟩
  | @next before gap after t ts _ spelled _ span _ ih =>
    intro u hu
    rcases List.mem_cons.1 hu with rfl | later
    · exact ⟨before ++ gap, after, (List.append_assoc ..).symm, span, .inr spelled⟩
    · obtain ⟨front, after', whole, place⟩ := ih u later
      refine ⟨front, after', ?_, place⟩
      rw [← whole]
      simp only [List.append_assoc]

end Token

/-! ### Places -/

/-- A cursor that has walked over a text stands behind it. -/
theorem Cursor.span_past (text : List Char) (length : Nat) :
    (Cursor.start.past text).span length = .behind text length := by
  have place : (Cursor.start.past text).line = 1 + text.count '\n' ∧
      (Cursor.start.past text).offset - (Cursor.start.past text).lineStart =
        (text.reverse.takeWhile (· != '\n')).length := by
    induction text using List.reverseRecOn with
    | nil => exact ⟨rfl, rfl⟩
    | append_singleton text c ih =>
      obtain ⟨line, col⟩ := ih
      have inLine := lineStart_le_offset (k := .start) (Nat.le_refl _) text
      rw [past_append, past_cons, past_nil, step]
      by_cases feed : c = '\n'
      · subst feed
        simp [line]
        omega
      · simp [feed, line]
        omega
  obtain ⟨line, col⟩ := place
  rw [span, Cursor.col, line, col, Span.behind, Nat.add_comm 1 (List.length _)]

/-- Two parts of a text with the same line and column behind them are the same part. -/
theorem Span.behind_injective {a b a' b' : List Char} {n n' : Nat} (whole : a ++ b = a' ++ b')
    (h : Span.behind a n = .behind a' n') : a = a' := by
  -- nothing lies between the two places
  have between {a ds : List Char} {n n' : Nat} (h : Span.behind a n = .behind (a ++ ds) n') : ds = [] := by
    obtain rfl : n = n' := congrArg Span.length h
    rw [← Cursor.span_past, ← Cursor.span_past, Cursor.past_append] at h
    have start := Cursor.lineStart_le_offset (k := .start) (Nat.le_refl _) a
    exact Cursor.eq_nil_of_span_past start h.symm
  rcases List.append_eq_append_iff.1 whole with ⟨ds, rfl, -⟩ | ⟨ds, rfl, -⟩
  · rw [between h, List.append_nil]
  · rw [between h.symm, List.append_nil]

namespace Token

theorem tiles_of_scanFrom {k : Cursor} {cs : List Char} {ts : List Token} (h : scanFrom k cs = .ok ts)
    {before : List Char} (here : k = Cursor.start.past before) : Tiles before cs ts := by
  fun_induction scanFrom k cs generalizing ts before with
  | case1 k =>
    cases h
    have tiles : Tiles before [] _ := .last .nil
    rwa [List.append_nil, ← Cursor.span_past, ← here] at tiles
  | case2 | case3 => cases h
  | case4 k c cs piece cut _ scanned gap ih =>
    cases h
    subst here
    rw [← cut_append cut]
    exact .gap (cut_shape cut) gap (ih scanned (Cursor.past_append ..).symm)
  | case5 k c cs piece cut tokens scanned kind lexeme ih =>
    cases h
    subst here
    rw [← cut_append cut]
    obtain ⟨spelled, maximal⟩ := cut_lexeme cut lexeme
    rw [Cursor.span_past]
    exact .lexeme spelled maximal (ih scanned (Cursor.past_append ..).symm)

/-- The tokens of a source that can be cut tile it, and each is of the only kind that its lexeme spells. -/
theorem tokens_tile_source {source : String} {ts : List Token} (h : scan source = .ok ts) :
    Tiles [] source.toList ts ∧ ∀ t ∈ ts, ∀ kind : Kind, kind.Spells t.lexeme → kind = t.kind := by
  have tiles : Tiles [] source.toList ts := tiles_of_scanFrom h rfl
  exact ⟨tiles, tiles.kind_unique⟩

/-- A comment up to a carriage return, a string over two lines, a number with no places, a sign that is not
two, and blanks up to the end. -/
def tiledSource : String := "let s = // note\r\n  \"a\nb\"+ 1.;\t "

def tiledTokens : List Token :=
  [⟨.keyword .letWord, "let", ⟨1, 1, 3⟩⟩, ⟨.identifier, "s", ⟨1, 5, 1⟩⟩, ⟨.sign .assign, "=", ⟨1, 7, 1⟩⟩,
    ⟨.string, "a\nb", ⟨2, 3, 5⟩⟩, ⟨.sign .plus, "+", ⟨3, 3, 1⟩⟩, ⟨.number, "1.", ⟨3, 5, 2⟩⟩,
    ⟨.sign .semicolon, ";", ⟨3, 7, 1⟩⟩, ⟨.eof, "", ⟨3, 10, 0⟩⟩]

theorem tiledSource_tiled : scan tiledSource = .ok tiledTokens ∧ Tiles [] tiledSource.toList tiledTokens := by
  have scanned : scan tiledSource = .ok tiledTokens := by decide +kernel
  exact ⟨scanned, (tokens_tile_source scanned).1⟩

end Token

end ScriptLang
