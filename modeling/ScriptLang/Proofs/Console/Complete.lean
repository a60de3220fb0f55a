/-
# ScriptLang.Proofs.Console.Complete — typed text is run neither early nor late.

The survey of a text knows quotes, comment signs and brackets, but no tokens.  It agrees with the scan
all the same: over a whole piece it moves by the piece's change to the number of open brackets, and
within a piece it stands still, in a string exactly when the piece is one.  So at every prefix of a
source that scans, the survey counts the brackets among the tokens begun so far.  The tokens of a program
close their brackets, and there the count is positive exactly when a bracket waits for its partner.
-/
import ScriptLang.Console.Complete
import ScriptLang.Proofs.Syntax.Balance
import ScriptLang.Proofs.Token.Pieces
import Mathlib.Tactic.ByContra

namespace ScriptLang.Console

open Token (Piece Shape Scans endsComment)

/-! ## Surveys -/

/-- Two outcomes of a survey, one of which may be in a comment where the other is in code. -/
def Alike (x y : Region × Int) : Prop := (x.1 = .string ↔ y.1 = .string) ∧ x.2 = y.2

theorem Alike.refl (x : Region × Int) : Alike x x := ⟨Iff.rfl, rfl⟩

theorem Alike.trans {x y z : Region × Int} (h : Alike x y) (h' : Alike y z) : Alike x z :=
  ⟨h.1.trans h'.1, h.2.trans h'.2⟩

theorem isComplete_eq_false_iff (s : String) :
    isComplete s = false ↔ (survey .code 0 s.toList).1 = .string ∨ 0 < (survey .code 0 s.toList).2 := by
  unfold isComplete
  rcases survey .code 0 s.toList with ⟨region, depth⟩
  simp only [Bool.and_eq_false_iff, decide_eq_false_iff_not, Int.not_le, ne_eq, not_not]
  exact Or.comm

/-- A character of code that begins neither a string nor a comment. -/
theorem survey_code {c : Char} {cs : List Char} (quote : c ≠ '"')
    (comment : ¬(c = '/' ∧ cs.head? = some '/')) (depth : Int) :
    survey .code depth (c :: cs) = survey .code (depth + bracketChange c) cs := by
  rw [survey, if_neg quote, if_neg comment]

/-- The characters that mean something to the survey of code. -/
def loud : List Char := ['"', '/', '(', ')', '[', ']', '\x7b', '\x7d']

theorem survey_quiet {c : Char} (quiet : c ∉ loud) (cs : List Char) (depth : Int) :
    survey .code depth (c :: cs) = survey .code depth cs := by
  simp only [loud, List.mem_cons, List.not_mem_nil, or_false, not_or] at quiet
  obtain ⟨quote, slash, leftParen, rightParen, leftBracket, rightBracket, leftBrace, rightBrace⟩ := quiet
  have change : bracketChange c = 0 := by simp [bracketChange, *]
  rw [survey_code quote (fun h => slash h.1), change, Int.add_zero]

theorem survey_quiets {cs : List Char} (quiet : ∀ c ∈ cs, c ∉ loud) (rest : List Char) (depth : Int) :
    survey .code depth (cs ++ rest) = survey .code depth rest := by
  induction cs with
  | nil => rfl
  | cons c cs ih =>
    rw [List.cons_append, survey_quiet (quiet c List.mem_cons_self)]
    exact ih fun x hx => quiet x (List.mem_cons_of_mem c hx)

theorem survey_string {cs : List Char} (inside : ∀ c ∈ cs, c ≠ '"') (rest : List Char) (depth : Int) :
    survey .string depth (cs ++ rest) = survey .string depth rest := by
  induction cs with
  | nil => rfl
  | cons c cs ih =>
    rw [List.cons_append, survey, if_neg (inside c List.mem_cons_self)]
    exact ih fun x hx => inside x (List.mem_cons_of_mem c hx)

theorem survey_comment {cs : List Char} (inside : ∀ c ∈ cs, endsComment c = false) (rest : List Char)
    (depth : Int) : survey .comment depth (cs ++ rest) = survey .comment depth rest := by
  induction cs with
  | nil => rfl
  | cons c cs ih =>
    rw [List.cons_append, survey, inside c List.mem_cons_self]
    exact ih fun x hx => inside x (List.mem_cons_of_mem c hx)

theorem not_loud {c : Char} {p : Char → Bool} (h : p c) (none : loud.any p = false) : c ∉ loud :=
  fun member => List.any_eq_false.1 none c member h

/-- Where a comment ends it makes no difference to be in it. -/
theorem survey_commentEnd {rest : List Char} (ends : ∀ c ∈ rest.head?, endsComment c) (depth : Int) :
    Alike (survey .comment depth rest) (survey .code depth rest) := by
  cases rest with
  | nil => exact ⟨⟨nofun, nofun⟩, rfl⟩
  | cons c cs =>
    have ending : endsComment c := ends c rfl
    have quiet : c ∉ loud := not_loud ending rfl
    rw [survey_quiet quiet, survey, if_pos ending]
    exact .refl _

/-! ## Pieces -/

/-- The change that a piece makes to the number of open brackets. -/
def pieceChange (piece : Piece) : Int := (piece.kind.map Kind.change).getD 0

theorem bracketChange_sign {c : Char} {s : Sign} (h : Sign.ofChar? c = some s) :
    bracketChange c = (Kind.sign s).change := by
  unfold Sign.ofChar? at h
  split at h
  all_goals cases h
  all_goals rfl

theorem not_quote_of_sign {c : Char} {s : Sign} (h : Sign.ofChar? c = some s) : c ≠ '"' := by
  rintro rfl
  cases h

/-- A sign of two characters has no bracket in it, and its second character means nothing to the
survey. -/
theorem twoChars_quiet {c d : Char} {s : Sign} (h : Sign.ofChars? c d = some s) :
    c ≠ '"' ∧ d ∉ loud ∧ bracketChange c = 0 ∧ (Kind.sign s).change = 0 := by
  unfold Sign.ofChars? at h
  split at h
  all_goals cases h
  all_goals exact ⟨by decide, by simp [loud], rfl, rfl⟩

theorem not_loud_word {c : Char} (h : Text.isWordChar c) : c ∉ loud :=
  not_loud h rfl

theorem not_loud_number {c : Char} (h : c.isDigit ∨ c = '.') : c ∉ loud := by
  rcases h with digit | rfl
  · exact not_loud digit rfl
  · simp [loud]

/-- A word is no bracket and no string. -/
theorem ofWord_change (s : String) : (Kind.ofWord s).change = 0 ∧ Kind.ofWord s ≠ .string := by
  rcases Kind.ofWord_cases s with ⟨w, word⟩ | word <;> rw [word] <;> exact ⟨rfl, nofun⟩

/-- Over a whole piece the survey moves by the change of the piece. -/
theorem survey_piece {c : Char} {piece : Piece} (shape : Shape c piece) {rest : List Char}
    (next : rest <+: piece.rest) (depth : Int) :
    Alike (survey .code depth (c :: (piece.taken ++ rest)))
      (survey .code (depth + pieceChange piece) rest) := by
  have head {d : Char} (h : rest.head? = some d) : piece.rest.head? = some d := by
    obtain ⟨more, eq⟩ := next
    rw [← eq, List.head?_append, h]
    rfl
  -- every piece leaves the survey in code but a comment, which may be cut off before the line ends
  cases shape with
  | blank gap =>
    rw [List.nil_append, survey_quiet (not_loud gap rfl), pieceChange, Option.map_none,
      Option.getD_none, Int.add_zero]
    exact .refl _
  | comment inside after =>
    rw [List.cons_append, survey, if_neg (by decide), if_pos ⟨rfl, rfl⟩, survey, if_neg (by decide),
      survey_comment inside, pieceChange, Option.map_none, Option.getD_none, Int.add_zero]
    exact survey_commentEnd (fun x hx => after x (head hx)) depth
  | string inside =>
    rw [List.append_assoc, survey, if_pos rfl, survey_string inside, List.singleton_append, survey,
      if_pos rfl]
    rw [show pieceChange _ = 0 from rfl, Int.add_zero]
    exact .refl _
  | number first inside =>
    rw [survey_quiet (not_loud_number (.inl first)),
      survey_quiets fun x hx => not_loud_number (inside x hx)]
    rw [show pieceChange _ = 0 from rfl, Int.add_zero]
    exact .refl _
  | word first inside =>
    rw [survey_quiet (not_loud_word (by rw [Text.isWordChar, first]; rfl)),
      survey_quiets fun x hx => not_loud_word (inside x hx)]
    rw [pieceChange, Option.map_some, Option.getD_some, (ofWord_change _).1, Int.add_zero]
    exact .refl _
  | sign spelled alone =>
    rw [List.nil_append, survey_code (not_quote_of_sign spelled) fun h => alone h.1 (head h.2),
      bracketChange_sign spelled]
    exact .refl _
  | @twoChars c d tail s spelled =>
    obtain ⟨quote, quiet, change, none⟩ := twoChars_quiet spelled
    have slash : ¬(c = '/' ∧ ([d] ++ rest).head? = some '/') := by
      rintro ⟨rfl, second⟩
      rw [List.singleton_append, List.head?_cons] at second
      cases second
      cases spelled
    rw [survey_code quote slash, change, List.singleton_append, survey_quiet quiet, pieceChange,
      Option.map_some, Option.getD_some, none]
    exact .refl _

/-- Within a piece the survey stands still, in a string exactly when the piece is one. -/
theorem survey_within {c : Char} {piece : Piece} (shape : Shape c piece) {part : List Char}
    (begins : part <+: piece.taken) (short : part.length < piece.taken.length) (depth : Int) :
    (survey .code depth (c :: part)).2 = depth ∧
      ((survey .code depth (c :: part)).1 = .string ↔ piece.kind = some .string) ∧
      pieceChange piece = 0 := by
  have member {x : Char} (hx : x ∈ part) : x ∈ piece.taken := begins.subset hx
  cases shape with
  | blank | sign => exact absurd short (Nat.not_lt_zero _)
  | comment inside after =>
    cases part with
    | nil =>
      -- one slash alone is a sign so far
      rw [survey_code (by decide) (by rintro ⟨-, none⟩; cases none), show bracketChange '/' = 0 from rfl,
        Int.add_zero]
      exact ⟨rfl, ⟨nofun, nofun⟩, rfl⟩
    | cons x part =>
      obtain ⟨rfl, inner⟩ := List.cons_prefix_cons.1 begins
      rw [survey, if_neg (by decide), if_pos ⟨rfl, rfl⟩, survey, if_neg (by decide),
        ← List.append_nil part, survey_comment fun x hx => inside x (inner.subset hx)]
      exact ⟨rfl, ⟨nofun, nofun⟩, rfl⟩
  | string inside =>
    -- the closing quote is the last character, so the part has none
    rw [List.length_append, List.length_singleton] at short
    have body := List.prefix_of_prefix_length_le begins (List.prefix_append _ _) (Nat.le_of_lt_succ short)
    rw [survey, if_pos rfl, ← List.append_nil part,
      survey_string fun x hx => inside x (body.subset hx)]
    exact ⟨rfl, ⟨fun _ => rfl, fun _ => rfl⟩, rfl⟩
  | number first inside =>
    have quiet : ∀ x ∈ part, x ∉ loud := fun x hx => not_loud_number (inside x (member hx))
    rw [survey_quiet (not_loud_number (.inl first)), ← List.append_nil part, survey_quiets quiet]
    exact ⟨rfl, ⟨nofun, nofun⟩, rfl⟩
  | word first inside =>
    have quiet : ∀ x ∈ part, x ∉ loud := fun x hx => not_loud_word (inside x (member hx))
    rw [survey_quiet (not_loud_word (by rw [Text.isWordChar, first]; rfl)), ← List.append_nil part,
      survey_quiets quiet]
    obtain ⟨change, other⟩ := ofWord_change (String.ofList (c :: _))
    exact ⟨rfl, ⟨nofun, fun string => absurd (Option.some.inj string) other⟩, change⟩
  | twoChars spelled =>
    obtain rfl := List.length_eq_zero_iff.1 (Nat.lt_one_iff.1 short)
    obtain ⟨quote, -, change, none⟩ := twoChars_quiet spelled
    rw [survey_code quote (by rintro ⟨-, none⟩; cases none), change, Int.add_zero]
    exact ⟨rfl, ⟨nofun, nofun⟩, none⟩

/-! ## Prefixes of a source -/

/-- A token begins within the first `n` characters of a source. -/
def BeginsWithin (source : List Char) (n : Nat) (t : Token) : Prop := ∃ a < n, t.StandsAt source a

/-- The first `n` characters of a source end inside a token: after its first character and before its
last. -/
def EndsInside (source : List Char) (n : Nat) (t : Token) : Prop :=
  ∃ a < n, t.StandsAt source a ∧ n < a + t.span.length

/-- The first `n` characters of a source end inside a string literal. -/
def EndsInString (source : List Char) (ts : List Token) (n : Nat) : Prop :=
  ∃ t ∈ ts, t.kind = .string ∧ EndsInside source n t

/-- A bracket is opened in the first `n` characters of a source, and its partner is not among them. -/
def HasUnclosed (source : List Char) (ts : List Token) (n : Nat) : Prop :=
  ∃ i t, ts[i]? = some t ∧ t.kind.opens?.isSome ∧ BeginsWithin source n t ∧
    ¬∃ j u, ts[j]? = some u ∧ Partners (ts.map Token.kind) i j ∧ BeginsWithin source n u

theorem not_beginsWithin {source : List Char} {n a : Nat} {t : Token} (h : t.StandsAt source a)
    (le : n ≤ a) : ¬BeginsWithin source n t := by
  rintro ⟨b, lt, stands⟩
  rw [h.eq stands] at le
  omega

/-- A survey up to a place in a source counts the brackets that begin before it, and is in a string
exactly when the place is inside one. -/
structure Counts (source : List Char) (ts : List Token) (n : Nat) (depth : Int)
    (outcome : Region × Int) : Prop where
  string : outcome.1 = .string ↔ EndsInString source ts n
  brackets : ∃ begun waiting, ts = begun ++ waiting ∧ (∀ t ∈ begun, BeginsWithin source n t) ∧
    (∀ t ∈ waiting, ¬BeginsWithin source n t) ∧ outcome.2 = depth + netChange (begun.map Token.kind)

namespace Counts

variable {source : List Char} {ts : List Token} {n : Nat} {depth : Int} {outcome : Region × Int}

theorem alike {outcome' : Region × Int} (h : Counts source ts n depth outcome)
    (same : Alike outcome' outcome) : Counts source ts n depth outcome' where
  string := same.1.trans h.string
  brackets := by
    rw [same.2]
    exact h.brackets

/-- Where no token has begun, nothing is counted. -/
theorem none_begun (waiting : ∀ t ∈ ts, ¬BeginsWithin source n t) (region : outcome.1 ≠ .string)
    (stays : outcome.2 = depth) : Counts source ts n depth outcome where
  string := by
    refine ⟨fun h => absurd h region, ?_⟩
    rintro ⟨t, ht, -, a, lt, stands, -⟩
    exact absurd ⟨a, lt, stands⟩ (waiting t ht)
  brackets := ⟨[], ts, rfl, nofun, waiting, by rw [stays]; exact (Int.add_zero _).symm⟩

/-- Inside the first token only that one has begun. -/
theorem first_begun {t : Token} (inside : EndsInside source n t)
    (waiting : ∀ u ∈ ts, ¬BeginsWithin source n u) (plain : t.kind.change = 0)
    (region : outcome.1 = .string ↔ t.kind = .string) (stays : outcome.2 = depth) :
    Counts source (t :: ts) n depth outcome where
  string := by
    refine region.trans ⟨fun kind => ⟨t, List.mem_cons_self, kind, inside⟩, ?_⟩
    rintro ⟨u, hu, kind, a, lt, stands, -⟩
    rcases List.mem_cons.1 hu with rfl | hu
    · exact kind
    · exact absurd ⟨a, lt, stands⟩ (waiting u hu)
  brackets := by
    obtain ⟨a, lt, stands, -⟩ := inside
    refine ⟨[t], ts, rfl, fun u hu => ?_, waiting, ?_⟩
    · obtain rfl := List.mem_singleton.1 hu
      exact ⟨a, lt, stands⟩
    · rw [stays, List.map_singleton, netChange_cons, plain, netChange_nil]
      omega

/-- A token that has ended adds its change to what is counted after it. -/
theorem cons {t : Token} {a : Nat} (stands : t.StandsAt source a) (lt : a < n)
    (ended : a + t.span.length ≤ n) (h : Counts source ts n (depth + t.kind.change) outcome) :
    Counts source (t :: ts) n depth outcome where
  string := by
    refine h.string.trans ⟨fun ⟨u, hu, inside⟩ => ⟨u, List.mem_cons_of_mem t hu, inside⟩, ?_⟩
    rintro ⟨u, hu, kind, b, before, stands', within⟩
    rcases List.mem_cons.1 hu with rfl | hu
    · rw [stands.eq stands'] at ended
      omega
    · exact ⟨u, hu, kind, b, before, stands', within⟩
  brackets := by
    obtain ⟨begun, waiting, rfl, first, later, count⟩ := h.brackets
    refine ⟨t :: begun, waiting, rfl, fun u hu => ?_, later, ?_⟩
    · rcases List.mem_cons.1 hu with rfl | hu
      · exact ⟨a, lt, stands⟩
      · exact first u hu
    · rw [count, List.map_cons, netChange_cons]
      omega

end Counts

theorem not_begun_of_scans {k : Cursor} {cs : List Char} {ts : List Token} (h : Scans k cs ts)
    {before : List Char} (hk : k = Cursor.start.past before) {n : Nat} (le : n ≤ before.length) :
    ∀ t ∈ ts, ¬BeginsWithin (before ++ cs) n t := by
  intro t ht
  obtain ⟨a, later, stands⟩ := h.standsAt hk t ht
  exact not_beginsWithin stands (Nat.le_trans le later)

/-- Within a piece no token after it has begun. -/
theorem not_begun_within {k : Cursor} {c : Char} {piece : Piece} {ts : List Token}
    (rest : Scans (k.past (c :: piece.taken)) piece.rest ts) {before : List Char}
    (hk : k = Cursor.start.past before) {part : List Char} (short : part.length < piece.taken.length) :
    ∀ t ∈ ts, ¬BeginsWithin (before ++ c :: (piece.taken ++ piece.rest))
      (before.length + (c :: part).length) t := by
  have here : k.past (c :: piece.taken) = Cursor.start.past (before ++ c :: piece.taken) := by
    rw [hk, Cursor.past_append]
  have early : before.length + (c :: part).length ≤ (before ++ c :: piece.taken).length := by
    simp only [List.length_append, List.length_cons]
    omega
  have waiting := not_begun_of_scans rest here early
  rw [List.append_assoc] at waiting
  exact waiting

/-- A beginning of two texts in a row ends within the first or goes on into the second. -/
theorem prefix_append_cases {front first second : List Char} (h : front <+: first ++ second) :
    (front <+: first ∧ front.length < first.length) ∨
      ∃ part, front = first ++ part ∧ part <+: second := by
  rcases Nat.lt_or_ge front.length first.length with short | long
  · have begins := List.prefix_of_prefix_length_le h (List.prefix_append _ _) (Nat.le_of_lt short)
    exact .inl ⟨begins, short⟩
  · obtain ⟨part, rfl⟩ := List.prefix_of_prefix_length_le (List.prefix_append _ _) h long
    exact .inr ⟨part, rfl, (List.prefix_append_right_inj _).1 h⟩

/-- What is counted after a piece, seen from the start of the piece. -/
theorem counts_after {before : List Char} {c : Char} {taken rest part : List Char} {ts : List Token}
    {depth : Int} {outcome : Region × Int}
    (h : Counts ((before ++ c :: taken) ++ rest) ts ((before ++ c :: taken).length + part.length) depth
      outcome) :
    Counts (before ++ c :: (taken ++ rest)) ts (before.length + (c :: (taken ++ part)).length) depth
      outcome := by
  rw [List.append_assoc, List.length_append, Nat.add_assoc, ← List.length_append] at h
  exact h

section

variable {k : Cursor} {c : Char} {piece : Piece} {ts : List Token} (shape : Shape c piece)
  (rest : Scans (k.past (c :: piece.taken)) piece.rest ts)
  {before : List Char} (hk : k = Cursor.start.past before)
  (after : ∀ part, part <+: piece.rest → ∀ depth,
    Counts ((before ++ c :: piece.taken) ++ piece.rest) ts
      ((before ++ c :: piece.taken).length + part.length) depth (survey .code depth part))
  {front : List Char} (hp : front <+: piece.taken ++ piece.rest) (depth : Int)

include shape rest hk after hp

/-- A beginning that gets into a gap counts what it counts after the gap. -/
theorem counts_of_gap (gap : piece.kind = none) :
    Counts (before ++ c :: (piece.taken ++ piece.rest)) ts (before.length + (c :: front).length) depth
      (survey .code depth (c :: front)) := by
  rcases prefix_append_cases hp with ⟨within, short⟩ | ⟨part, rfl, next⟩
  · obtain ⟨stays, region, -⟩ := survey_within shape within short depth
    have code : (survey .code depth (c :: front)).1 ≠ .string := by
      rw [Ne, region, gap]
      exact nofun
    exact .none_begun (not_begun_within rest hk short) code stays
  · have same := survey_piece shape next depth
    rw [pieceChange, gap, Option.map_none, Option.getD_none, Int.add_zero] at same
    exact (counts_after (after part next depth)).alike same

/-- A beginning that gets into a lexeme counts its token and what it counts after it. -/
theorem counts_of_lexeme {kind : Kind} (found : piece.kind = some kind) :
    Counts (before ++ c :: (piece.taken ++ piece.rest))
      (⟨kind, Token.valueOf kind (c :: piece.taken), k.span (piece.taken.length + 1)⟩ :: ts)
      (before.length + (c :: front).length) depth (survey .code depth (c :: front)) := by
  have stands : Token.StandsAt (before ++ (c :: piece.taken ++ piece.rest))
      ⟨kind, Token.valueOf kind (c :: piece.taken), k.span (piece.taken.length + 1)⟩ before.length :=
    Token.standsAt_lexeme _ _ (by rw [hk]; rfl)
  have begun : before.length < before.length + (c :: front).length :=
    Nat.lt_add_of_pos_right (Nat.succ_pos _)
  have change : pieceChange piece = kind.change := by
    rw [pieceChange, found]
    rfl
  rcases prefix_append_cases hp with ⟨within, short⟩ | ⟨part, rfl, next⟩
  · -- the beginning ends inside the lexeme, so its token has begun and no other
    obtain ⟨stays, region, plain⟩ := survey_within shape within short depth
    have inside : before.length + (c :: front).length < before.length + (piece.taken.length + 1) := by
      rw [List.length_cons]
      omega
    refine .first_begun ⟨_, begun, stands, inside⟩ (not_begun_within rest hk short)
      (change.symm.trans plain) ?_ stays
    rw [region, found, Option.some.injEq]
  · have same := survey_piece shape next depth
    rw [change] at same
    have ended : before.length + (piece.taken.length + 1) ≤
        before.length + (c :: (piece.taken ++ part)).length := by
      rw [List.length_cons, List.length_append]
      omega
    exact .cons stands begun ended ((counts_after (after part next _)).alike same)

end

theorem counts_of_nil {k : Cursor} {cs : List Char} {ts : List Token} (h : Scans k cs ts)
    {before : List Char} (hk : k = Cursor.start.past before) (depth : Int) :
    Counts (before ++ cs) ts before.length depth (survey .code depth []) :=
  .none_begun (not_begun_of_scans h hk (Nat.le_refl _)) nofun rfl

/-- The survey of a beginning of a text that is cut into pieces counts its tokens. -/
theorem counts_of_scans {k : Cursor} {cs : List Char} {ts : List Token} (h : Scans k cs ts)
    {before : List Char} (hk : k = Cursor.start.past before) {front : List Char} (hp : front <+: cs)
    (depth : Int) :
    Counts (before ++ cs) ts (before.length + front.length) depth (survey .code depth front) := by
  -- over the pieces; what is read already moves from the text into `before`
  induction h generalizing before front depth with
  | done k =>
    obtain rfl := List.prefix_nil.1 hp
    exact counts_of_nil (.done k) hk depth
  | gap shape gap rest ih =>
    cases front with
    | nil => exact counts_of_nil (.gap shape gap rest) hk depth
    | cons x front =>
      obtain ⟨rfl, begins⟩ := List.cons_prefix_cons.1 hp
      have after := fun part (next : part <+: _) => ih (by rw [hk, Cursor.past_append]) next
      exact counts_of_gap shape rest hk after begins depth gap
  | lexeme shape found rest ih =>
    cases front with
    | nil => exact counts_of_nil (.lexeme shape found rest) hk depth
    | cons x front =>
      obtain ⟨rfl, begins⟩ := List.cons_prefix_cons.1 hp
      have after := fun part (next : part <+: _) => ih (by rw [hk, Cursor.past_append]) next
      exact counts_of_lexeme shape rest hk after begins depth found

/-! ## Whole sources -/

/-- A source whose scan stops in a string leaves the survey in one. -/
theorem survey_unterminated {k : Cursor} {cs : List Char} {e : ScanError}
    (h : Token.scanFrom k cs = .error e) (fault : e.fault = .unterminatedString) (depth : Int) :
    (survey .code depth cs).1 = .string := by
  fun_induction Token.scanFrom k cs generalizing depth with
  | case1 | case4 | case5 => cases h
  | case2 k c cs snag cut =>
    -- the scan stops here: all that is left is inside the string
    cases h
    obtain ⟨rfl, inside⟩ := Token.cut_unterminated cut fault
    rw [survey, if_pos rfl, ← List.append_nil cs, survey_string inside]
    rfl
  | case3 k c cs piece cut e' scanned ih =>
    cases h
    rw [← Token.cut_append cut]
    have same := survey_piece (Token.cut_shape cut) (List.prefix_refl _) depth
    exact same.1.2 (ih scanned _)

/-- The change that tokens make together is the difference of their opening and closing brackets. -/
theorem netChange_eq_countP (ts : List Token) :
    netChange (ts.map Token.kind) =
      (ts.countP (·.kind.opens?.isSome) : Int) - ts.countP (·.kind.closes?.isSome) := by
  induction ts with
  | nil => rfl
  | cons t ts ih =>
    rw [List.map_cons, netChange_cons, ih, List.countP_cons, List.countP_cons, Kind.change]
    -- no kind both opens and closes
    have apart (b : Bracket) (closes : t.kind.closes? = some b) := opens?_of_closes? closes
    rcases opens : t.kind.opens? with _ | a <;> rcases closes : t.kind.closes? with _ | b
    · simp
    · simp
      omega
    · simp
      omega
    · rw [apart b closes] at opens
      cases opens

/-- Over a whole text the survey moves by the change of its tokens, and ends in no string. -/
theorem survey_of_scans {k : Cursor} {cs : List Char} {ts : List Token} (h : Scans k cs ts) (depth : Int) :
    Alike (survey .code depth cs) (.code, depth + netChange (ts.map Token.kind)) := by
  induction h generalizing depth with
  | done k => exact ⟨Iff.rfl, (Int.add_zero depth).symm⟩
  | gap shape gap rest ih =>
    have same := survey_piece shape (List.prefix_refl _) depth
    rw [pieceChange, gap, Option.map_none, Option.getD_none, Int.add_zero] at same
    exact same.trans (ih depth)
  | lexeme shape found rest ih =>
    have same := survey_piece shape (List.prefix_refl _) depth
    rw [pieceChange, found, Option.map_some, Option.getD_some] at same
    rw [List.map_cons, netChange_cons, ← Int.add_assoc]
    exact same.trans (ih _)

theorem isComplete_iff_of_scan {source : String} {ts : List Token} (h : Token.scan source = .ok ts) :
    isComplete source ↔ netChange (ts.map Token.kind) ≤ 0 := by
  obtain ⟨region, depth⟩ := survey_of_scans (Token.scans_of_scanFrom h) 0
  have waits := isComplete_eq_false_iff source
  rw [region, depth, Int.zero_add] at waits
  rw [← Bool.not_eq_false, waits]
  constructor
  · exact fun h => Int.not_lt.1 fun positive => h (.inr positive)
  · rintro le (string | positive)
    · cases string
    · omega

/-- All brackets of a program close, those of its end token included, which has none. -/
theorem tokens_balanced {source : String} {ts : List Token} {program : Program}
    (scanned : Token.scan source = .ok ts) (read : Program.ofTokens? ts = .ok program) :
    openAfter [] (ts.map Token.kind) = some [] := by
  obtain ⟨lexemes, eof, rfl, last, inner⟩ := (Token.scans_of_scanFrom scanned).ends
  have balanced := Program.ofTokens?_balanced read
  -- the grammar is given the tokens before the end token
  have front : (lexemes ++ [eof]).takeWhile (·.kind ≠ .eof) = lexemes := by
    rw [List.takeWhile_append_of_pos fun t ht => decide_eq_true (inner t ht),
      List.takeWhile_cons_of_neg (by simp [last]), List.append_nil]
  rw [front] at balanced
  rw [List.map_append, openAfter_append, balanced, List.map_singleton, last]
  rfl

/-- At a place in a source whose brackets close, the brackets begun so far have an opening one too many
exactly when one of them is not closed yet. -/
theorem netChange_pos_iff {source : List Char} {begun waiting : List Token} {n : Nat}
    (balanced : openAfter [] ((begun ++ waiting).map Token.kind) = some [])
    (first : ∀ t ∈ begun, BeginsWithin source n t) (later : ∀ t ∈ waiting, ¬BeginsWithin source n t) :
    0 < netChange (begun.map Token.kind) ↔ HasUnclosed source (begun ++ waiting) n := by
  -- to have begun is to be among the first tokens
  have place {i : Nat} {t : Token} (h : (begun ++ waiting)[i]? = some t) :
      BeginsWithin source n t ↔ i < begun.length := by
    rcases Nat.lt_or_ge i begun.length with lt | ge
    · rw [List.getElem?_append_left lt] at h
      exact ⟨fun _ => lt, fun _ => first t (List.mem_of_getElem? h)⟩
    · rw [List.getElem?_append_right ge] at h
      exact ⟨fun within => absurd within (later t (List.mem_of_getElem? h)), fun lt => by omega⟩
  have count := netChange_take_pos_iff balanced (n := begun.length) (by simp)
  rw [List.map_append, ← List.length_map Token.kind, List.take_left, ← List.map_append, List.length_map]
    at count
  rw [count]
  constructor
  · rintro ⟨i, lt, ⟨k, at_i, opens⟩, outside⟩
    rw [List.getElem?_map, Option.map_eq_some_iff] at at_i
    obtain ⟨t, at_i, rfl⟩ := at_i
    refine ⟨i, t, at_i, opens, (place at_i).2 lt, ?_⟩
    rintro ⟨j, u, at_j, partners, within⟩
    have := outside j partners
    have := (place at_j).1 within
    omega
  · rintro ⟨i, t, at_i, opens, within, alone⟩
    refine ⟨i, (place at_i).1 within, ⟨t.kind, by rw [List.getElem?_map, at_i]; rfl, opens⟩, ?_⟩
    intro j partners
    by_contra lt
    have bound : j < (begun ++ waiting).length := by
      rw [List.length_append]
      omega
    have at_j := List.getElem?_eq_getElem bound
    exact alone ⟨j, _, at_j, partners, (place at_j).2 (by omega)⟩

/-- A beginning of a program is not ready exactly when it ends in a string or has a bracket whose partner
is still to come. -/
theorem isComplete_prefix_iff {source : String} {ts : List Token}
    (scanned : Token.scan source = .ok ts) (balanced : openAfter [] (ts.map Token.kind) = some [])
    {front : List Char} (begins : front <+: source.toList) :
    isComplete (String.ofList front) = false ↔
      EndsInString source.toList ts front.length ∨ HasUnclosed source.toList ts front.length := by
  have counts : Counts ([] ++ source.toList) ts ([].length + front.length) 0 (survey .code 0 front) :=
    counts_of_scans (Token.scans_of_scanFrom scanned) rfl begins 0
  rw [List.nil_append, List.length_nil, Nat.zero_add] at counts
  obtain ⟨begun, waiting, rfl, first, later, depth⟩ := counts.brackets
  rw [isComplete_eq_false_iff, String.toList_ofList, counts.string, depth, Int.zero_add,
    netChange_pos_iff balanced first later]

/-- Text is run neither early nor late.  A beginning of a program is not ready exactly when it ends
inside a string or has a bracket whose partner is still to come, so a program is ready.  Any text that
can be scanned is ready exactly when its tokens have no more opening brackets than closing ones, and a
text with a string that does not end is not ready. -/
theorem isComplete_iff_nothing_open (source : String) :
    (∀ program, Program.ofSource? source = .ok program →
      isComplete source ∧
        ∃ ts, Token.scan source = .ok ts ∧ ∀ front, front <+: source.toList →
          (isComplete (String.ofList front) = false ↔
            EndsInString source.toList ts front.length ∨ HasUnclosed source.toList ts front.length)) ∧
    (∀ ts, Token.scan source = .ok ts →
      (isComplete source ↔
        ts.countP (·.kind.opens?.isSome) ≤ ts.countP (·.kind.closes?.isSome))) ∧
    (∀ e, Token.scan source = .error e → e.fault = .unterminatedString → isComplete source = false) := by
  refine ⟨fun program h => ?_, fun ts scanned => ?_, fun e stopped fault => ?_⟩
  · unfold Program.ofSource? at h
    split at h
    · cases h
    · next ts scanned =>
      split at h
      · cases h
      · next read =>
        have balanced := tokens_balanced scanned read
        have level := length_openAfter balanced
        rw [List.length_nil] at level
        refine ⟨(isComplete_iff_of_scan scanned).2 (by omega), ts, scanned, fun front begins => ?_⟩
        exact isComplete_prefix_iff scanned balanced begins
  · rw [isComplete_iff_of_scan scanned, netChange_eq_countP]
    omega
  · exact (isComplete_eq_false_iff source).2 (.inl (survey_unterminated stopped fault 0))

example : isComplete "f(\")\"" = false := by decide

example : isComplete "f(1) // ( \"" = true := by decide

end ScriptLang.Console
