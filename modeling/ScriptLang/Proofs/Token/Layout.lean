/-
# ScriptLang.Proofs.Token.Layout — line ends and separators.

A line end outside strings ends every piece, so a source may be cut there: its tokens are those of both
parts, the second ones lower.  And what stands between lexemes has no part in the tokens.  Lexemes are cut
again wherever blanks keep them apart, whatever else they could be read as side by side.
-/
import ScriptLang.Proofs.Token.Fault

namespace ScriptLang.Token

/-! ## Line ends -/

/-- At a line end a source is scanned in two parts.  The first one gives its tokens but for the end, and
the second one gives its own tokens or its own fault, lower by the lines before it; but if the first part
has a fault, that fault is told, unless it is a string that goes on behind the line end. -/
theorem scan_splits_at_line_end (a b : String) :
    (∀ ts, scan a = .ok ts → (∃ eof, eof.kind = .eof ∧ ts = ts.dropLast ++ [eof]) ∧
      scan (a ++ "\n" ++ b) =
        (ts.dropLast ++ ·) <$> relocateScan (Span.lower (1 + a.toList.count '\n')) (scan b)) ∧
      ∀ e, scan a = .error e → e.fault ≠ .unterminatedString → scan (a ++ "\n" ++ b) = .error e := by
  have text : (a ++ "\n" ++ b).toList = a.toList ++ '\n' :: b.toList := by simp [String.toList_append]
  rw [scan, scan, text]
  constructor
  · intro ts scanned
    obtain ⟨lexemes, eof, rfl, ended, -⟩ := (scans_of_scanFrom scanned).ends
    refine ⟨⟨eof, ended, by rw [List.dropLast_concat]⟩, ?_⟩
    rw [scanFrom_feed b.toList scanned, scanFrom_line, Cursor.line_past]
    rfl
  · intro e failed decided
    obtain ⟨before, rest, whole, -, -, -, again⟩ := scanFrom_fault failed
    rw [whole, List.append_assoc, List.cons_append]
    exact again decided _

/-! ## Separators -/

/-- The lexemes of tokens, with a separator between each two of them. -/
def joinLexemes (separators : Nat → List Char) : List Token → List Char
  | [] => []
  | [t] => t.lexeme
  | t :: u :: ts => t.lexeme ++ separators 0 ++ joinLexemes (fun i => separators (i + 1)) (u :: ts)

variable {k : Cursor} {cs : List Char} {ts : List Token}

theorem scanFrom_gaps {gap : List Char} (blank : ∀ x ∈ gap, isGap x) (k : Cursor) (cs : List Char) :
    scanFrom k (gap ++ cs) = scanFrom (k.past gap) cs := by
  induction gap generalizing k with
  | nil => rfl
  | cons c gap ih =>
    obtain ⟨first, others⟩ := List.forall_mem_cons.1 blank
    rw [List.cons_append, scanFrom_gap k first, ih others, Cursor.past_cons]

/-- The end of a source has no lexeme. -/
theorem Scans.lexeme_of_singleton {t : Token} (h : Scans k cs [t]) : t.lexeme = [] := by
  generalize one : [t] = ts at h
  induction h with
  | done k =>
    obtain rfl := List.singleton_inj.1 one
    rfl
  | gap _ _ _ ih => exact ih one
  | lexeme _ _ rest =>
    obtain ⟨-, none⟩ := List.cons.inj one
    exact absurd none.symm rest.ne_nil

/-- Wherever it stands, a text is scanned as tokens that are these but for their places. -/
def ScannedAs (text : List Char) (ts : List Token) : Prop :=
  ∀ here, ∃ us, scanFrom here text = .ok us ∧
    us.map (fun t => (t.kind, t.value)) = ts.map (fun t => (t.kind, t.value))

theorem ScannedAs.gaps {gap text : List Char} (blank : ∀ x ∈ gap, isGap x) (h : ScannedAs text ts) :
    ScannedAs (gap ++ text) ts := by
  intro here
  rw [scanFrom_gaps blank]
  exact h _

theorem ScannedAs.lexeme {c : Char} {taken after : List Char} {kind : Kind}
    (found : cut c (taken ++ after) = .ok ⟨some kind, taken, after⟩) (span : Span) (h : ScannedAs after ts) :
    ScannedAs (c :: (taken ++ after)) (⟨kind, valueOf kind (c :: taken), span⟩ :: ts) := by
  intro here
  obtain ⟨us, scanned, alike⟩ := h (here.past (c :: taken))
  refine ⟨⟨kind, valueOf kind (c :: taken), here.span (taken.length + 1)⟩ :: us, ?_, ?_⟩
  · rw [scanFrom_cons here found, scanned]
    rfl
  · rw [List.map_cons, List.map_cons, alike]

/-- A lexeme may be followed by blanks or by the end. -/
theorem Piece.admits_blanks {piece : Piece} (lexeme : piece.kind ≠ none) {gap after : List Char}
    (blank : ∀ x ∈ gap, isGap x) (ends : gap ≠ [] ∨ after = []) : piece.Admits (gap ++ after) := by
  refine .inr fun x hx => ⟨?_, fun none => absurd none lexeme⟩
  rcases gap with _ | ⟨d, ds⟩
  · obtain rfl := ends.resolve_left (not_not_intro rfl)
    cases hx
  · obtain rfl := Option.some.inj hx
    exact blank d List.mem_cons_self

theorem joinLexemes_scannedAs (h : scanFrom k cs = .ok ts) (separators : Nat → List Char)
    (blank : ∀ i, ∀ x ∈ separators i, isGap x) (apart : ∀ i, i + 2 < ts.length → separators i ≠ []) :
    ScannedAs (joinLexemes separators ts) ts := by
  refine scanFrom_induction (motive := fun _ _ ts => ∀ separators : Nat → List Char,
    (∀ i, ∀ x ∈ separators i, isGap x) → (∀ i, i + 2 < ts.length → separators i ≠ []) →
      ScannedAs (joinLexemes separators ts) ts) ?_ ?_ h separators blank apart
  · intro k separators _ _ here
    exact ⟨[⟨.eof, "", here.span 0⟩], scanFrom.eq_1 here, rfl⟩
  · intro k c cs piece ts found scanned ih separators blank apart
    obtain ⟨kind, taken, rest⟩ := piece
    cases kind with
    | none => exact ih separators blank apart
    | some kind =>
      have scans := scans_of_scanFrom scanned
      obtain ⟨u, us, rfl⟩ := List.exists_cons_of_ne_nil scans.ne_nil
      have later : ScannedAs (joinLexemes (fun i => separators (i + 1)) (u :: us)) (u :: us) := by
        apply ih
        · intro i
          exact blank (i + 1)
        · intro i inner
          exact apart (i + 1) (Nat.succ_lt_succ inner)
      have ends : separators 0 ≠ [] ∨ joinLexemes (fun i => separators (i + 1)) (u :: us) = [] := by
        by_cases last : us = []
        · right
          subst last
          exact scans.lexeme_of_singleton
        · left
          apply apart
          have more := List.length_pos_iff.2 last
          simp only [Piece.tokens, List.length_append, List.length_cons, List.length_nil]
          omega
      have lexeme : (⟨some kind, taken, rest⟩ : Piece).kind ≠ none := Option.some_ne_none kind
      have admits := Piece.admits_blanks lexeme (blank 0) ends
      have text := lexeme_of_spells (cut_lexeme found rfl).1 (k.span (taken.length + 1))
      show ScannedAs (joinLexemes separators (⟨kind, valueOf kind (c :: taken), _⟩ :: u :: us)) _
      rw [joinLexemes, text, List.append_assoc, List.cons_append]
      exact .lexeme (cut_again found admits) _ (later.gaps (blank 0))

/-- The lexemes of a source, joined by any blanks, are scanned as tokens of the same kinds and values.  Only
the separator before the end may be empty. -/
theorem joined_lexemes_scanned_alike {source : String} {ts : List Token} (h : scan source = .ok ts)
    {separators : Nat → List Char} (blank : ∀ i, ∀ x ∈ separators i, x ∈ [' ', '\t', '\r', '\n'])
    (apart : ∀ i, i + 2 < ts.length → separators i ≠ []) :
    ∃ us, scan (String.ofList (joinLexemes separators ts)) = .ok us ∧
      us.map (fun t => (t.kind, t.value)) = ts.map (fun t => (t.kind, t.value)) := by
  have gaps : ∀ i, ∀ x ∈ separators i, isGap x := by
    intro i x hx
    simpa [isGap, or_assoc] using blank i x hx
  rw [scan, String.toList_ofList]
  exact joinLexemes_scannedAs h separators gaps apart .start

/-- A word and a number with a bare point next to it, a string that holds a comment mark and a line end, and
signs that would make others if nothing were between them. -/
def crowdedSource : String := "new 1.\"//\n\"/ /=+ +"

def crowdedTokens : List Token :=
  [⟨.keyword .newWord, "new", ⟨1, 1, 3⟩⟩, ⟨.number, "1.", ⟨1, 5, 2⟩⟩, ⟨.string, "//\n", ⟨1, 7, 5⟩⟩,
    ⟨.sign .slash, "/", ⟨2, 2, 1⟩⟩, ⟨.sign .slashEqual, "/=", ⟨2, 4, 2⟩⟩, ⟨.sign .plus, "+", ⟨2, 6, 1⟩⟩,
    ⟨.sign .plus, "+", ⟨2, 8, 1⟩⟩, ⟨.eof, "", ⟨2, 9, 0⟩⟩]

/-- Line ends in turn with tabs. -/
def lineEndsAndTabs (i : Nat) : List Char := if i % 2 = 0 then ['\r', '\n'] else ['\t']

theorem crowdedSource_spread : scan crowdedSource = .ok crowdedTokens ∧
    joinLexemes lineEndsAndTabs crowdedTokens =
      "new\r\n1.\t\"//\n\"\r\n/\t/=\r\n+\t+\r\n".toList ∧
    ∃ us, scan (String.ofList (joinLexemes lineEndsAndTabs crowdedTokens)) = .ok us ∧
      us.map (fun t => (t.kind, t.value)) = crowdedTokens.map (fun t => (t.kind, t.value)) := by
  have scanned : scan crowdedSource = .ok crowdedTokens := by decide +kernel
  refine ⟨scanned, by decide +kernel, joined_lexemes_scanned_alike scanned ?_ ?_⟩
  · intro i
    unfold lineEndsAndTabs
    split <;> simp
  · intro i _
    unfold lineEndsAndTabs
    split <;> exact List.cons_ne_nil _ _

end ScriptLang.Token
