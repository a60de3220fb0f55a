/-
# ScriptLang.Proofs.Token.Joined — the tokens of texts that are joined.

A line feed goes on with no piece but a string, so before one a text is cut as it is cut alone, if the
last of its strings is closed.  Where a text stands in a source has no part in how it is cut, and its
tokens carry the lines before it.  So two texts with a line that holds a semicolon between them have the
tokens of the one, a semicolon, and the tokens of the other some lines lower.
-/
import ScriptLang.Proofs.Syntax.Placement
import ScriptLang.Proofs.Token.Recut

namespace ScriptLang

namespace Token

/-! ## Pieces before a line feed -/

/-- A piece with a line feed and more behind what follows it. -/
def Piece.before (piece : Piece) (more : List Char) : Piece :=
  { piece with rest := piece.rest ++ '\n' :: more }

variable {c : Char} {cs : List Char} {piece : Piece} (more : List Char)

/-- Before a line feed the same piece is cut. -/
theorem cut_feed (h : cut c cs = .ok piece) : cut c (cs ++ '\n' :: more) = .ok (piece.before more) := by
  have admits : piece.Admits (piece.rest ++ '\n' :: more) := by
    cases ends : piece.rest with
    | cons d ds => exact .inl (by rw [ends]; rfl)
    | nil =>
      refine .inr fun x hx => ?_
      obtain rfl := Option.some.inj hx
      exact ⟨rfl, fun _ => rfl⟩
  have again := cut_again h admits
  rwa [← List.append_assoc, cut_append h] at again

/-! ## Scans -/

/-- The token of a piece that begins with a character at a cursor, if it is a lexeme. -/
def Piece.tokens (piece : Piece) (k : Cursor) (c : Char) : List Token :=
  match piece.kind with
  | none => []
  | some kind => [⟨kind, valueOf kind (c :: piece.taken), k.span (piece.taken.length + 1)⟩]

/-- A scan begins with the piece at the front. -/
theorem scanFrom_cons (k : Cursor) (h : cut c cs = .ok piece) :
    scanFrom k (c :: cs) = (piece.tokens k c ++ ·) <$> scanFrom (k.past (c :: piece.taken)) piece.rest := by
  rw [scanFrom]
  split
  · next snag failed => rw [h] at failed; cases failed
  · next piece' found =>
    rw [h] at found
    cases found
    unfold Piece.tokens
    cases scanFrom (k.past (c :: piece.taken)) piece.rest with
    | error e => rfl
    | ok ts => cases piece.kind <;> rfl

/-- A scan fails at the front where no piece can be cut. -/
theorem scanFrom_snag (k : Cursor) {snag : Snag} (h : cut c cs = .error snag) :
    scanFrom k (c :: cs) = .error ⟨(k.past snag.before).span 1, snag.found, snag.fault⟩ := by
  rw [scanFrom]
  split
  · next snag' failed =>
    rw [h] at failed
    cases failed
    rfl
  · next piece found => rw [h] at found; cases found

/-- What holds of the empty text, and of a text when it holds of what follows its first piece, holds of
every text that can be scanned. -/
theorem scanFrom_induction {motive : Cursor → List Char → List Token → Prop}
    (done : ∀ k : Cursor, motive k [] [⟨.eof, "", k.span 0⟩])
    (step : ∀ k c cs piece ts, cut c cs = .ok piece →
      scanFrom (k.past (c :: piece.taken)) piece.rest = .ok ts →
      motive (k.past (c :: piece.taken)) piece.rest ts → motive k (c :: cs) (piece.tokens k c ++ ts))
    {k : Cursor} {cs : List Char} {ts : List Token} (h : scanFrom k cs = .ok ts) : motive k cs ts := by
  fun_induction scanFrom k cs generalizing ts with
  | case1 k =>
    cases h
    exact done k
  | case2 | case3 => cases h
  | case4 k c cs piece found tokens scanned gap ih =>
    cases h
    have whole := step k c cs piece tokens found scanned (ih scanned)
    rwa [Piece.tokens, gap] at whole
  | case5 k c cs piece found tokens scanned kind lexeme ih =>
    cases h
    have whole := step k c cs piece tokens found scanned (ih scanned)
    rwa [Piece.tokens, lexeme] at whole

/-- A text with a line feed and more behind has its own lexemes, and then the tokens of what is behind. -/
theorem scanFrom_feed {k : Cursor} {ts : List Token} (h : scanFrom k cs = .ok ts) :
    scanFrom k (cs ++ '\n' :: more) = (ts.dropLast ++ ·) <$> scanFrom (k.past cs) ('\n' :: more) := by
  refine scanFrom_induction (motive := fun k cs ts =>
    scanFrom k (cs ++ '\n' :: more) = (ts.dropLast ++ ·) <$> scanFrom (k.past cs) ('\n' :: more)) ?_ ?_ h
  · intro k
    exact (id_map _).symm
  · intro k c cs piece ts found scanned ih
    obtain ⟨lexemes, eof, rfl, -⟩ := (scans_of_scanFrom scanned).ends
    have there : k.past (c :: cs) = (k.past (c :: piece.taken)).past piece.rest := by
      rw [← Cursor.past_append, List.cons_append, cut_append found]
    rw [List.cons_append, scanFrom_cons k (cut_feed more found), there]
    show (piece.tokens k c ++ ·) <$> scanFrom (k.past (c :: piece.taken)) (piece.rest ++ '\n' :: more) = _
    rw [ih, ← List.append_assoc, List.dropLast_concat, List.dropLast_concat, Functor.map_map]
    simp only [List.append_assoc]

end Token

/-! ## Places -/

namespace Cursor

/-- The same place with more lines and characters before the source. -/
def shift (chars lines : Nat) (k : Cursor) : Cursor :=
  ⟨k.offset + chars, k.line + lines, k.lineStart + chars⟩

variable (chars lines : Nat) (k : Cursor)

theorem step_shift (c : Char) : (k.shift chars lines).step c = (k.step c).shift chars lines := by
  by_cases feed : c = '\n'
  · rw [step, step, if_pos feed, if_pos feed]
    simp [shift, Nat.add_right_comm]
  · rw [step, step, if_neg feed, if_neg feed]
    simp [shift, Nat.add_right_comm]

theorem past_shift (cs : List Char) : (k.shift chars lines).past cs = (k.past cs).shift chars lines := by
  induction cs generalizing k with
  | nil => rfl
  | cons c cs ih => rw [past_cons, past_cons, step_shift, ih]

theorem span_shift (length : Nat) :
    (k.shift chars lines).span length = (k.span length).lower lines := by
  simp [span, shift, col, Span.lower, Nat.add_sub_add_right]

/-- A line feed leads to the start of a source, some lines lower. -/
theorem step_feed : k.step '\n' = start.shift (k.offset + 1) k.line := by
  simp [step, start, shift, Nat.add_comm]

end Cursor

namespace Token

/-- What a scan comes to, with every span sent through one function. -/
def relocateScan (f : Span → Span) : Except ScanError (List Token) → Except ScanError (List Token)
  | .ok ts => .ok (ts.map (Token.relocate f))
  | .error e => .error (e.relocate f)

theorem relocateScan_append (f : Span → Span) (front : List Token)
    (result : Except ScanError (List Token)) :
    relocateScan f ((front ++ ·) <$> result) = (front.map (Token.relocate f) ++ ·) <$> relocateScan f result := by
  cases result with
  | error e => rfl
  | ok ts => exact congrArg Except.ok List.map_append

/-- A text that stands lower in a source has the same tokens, lower by as many lines, or the same fault. -/
theorem scanFrom_shift (chars lines : Nat) (k : Cursor) (cs : List Char) :
    scanFrom (k.shift chars lines) cs = relocateScan (Span.lower lines) (scanFrom k cs) := by
  induction length : cs.length using Nat.strongRecOn generalizing k cs with
  | _ n ih =>
    cases cs with
    | nil =>
      rw [scanFrom, scanFrom, Cursor.span_shift]
      rfl
    | cons c cs =>
      cases found : cut c cs with
      | error snag =>
        rw [scanFrom_snag _ found, scanFrom_snag _ found, Cursor.past_shift, Cursor.span_shift]
        rfl
      | ok piece =>
        have tokens : piece.tokens (k.shift chars lines) c =
            (piece.tokens k c).map (Token.relocate (Span.lower lines)) := by
          unfold Piece.tokens
          cases piece.kind with
          | none => rfl
          | some kind =>
            rw [Cursor.span_shift]
            rfl
        have shorter : piece.rest.length < n := length ▸ cut_rest_length found
        rw [scanFrom_cons _ found, scanFrom_cons _ found, relocateScan_append, Cursor.past_shift,
          ih _ shorter _ _ rfl, tokens]

theorem scanFrom_gap (k : Cursor) (gap : isGap c) (cs : List Char) :
    scanFrom k (c :: cs) = scanFrom (k.step c) cs :=
  (scanFrom_cons k (if_pos gap : cut c cs = .ok ⟨none, [], cs⟩)).trans (id_map _)

/-- Behind a line feed a text is scanned as a source of its own that stands some lines lower. -/
theorem scanFrom_line (k : Cursor) (cs : List Char) :
    scanFrom k ('\n' :: cs) = relocateScan (Span.lower k.line) (scanFrom .start cs) := by
  rw [scanFrom_gap k rfl, Cursor.step_feed, scanFrom_shift]

/-- The tokens of semicolons that stand next to each other. -/
def semicolons (k : Cursor) : Nat → List Token
  | 0 => []
  | n + 1 => ⟨.sign .semicolon, ";", k.span 1⟩ :: semicolons (k.step ';') n

theorem semicolons_kind {k : Cursor} {n : Nat} : ∀ t ∈ semicolons k n, t.kind = .sign .semicolon := by
  induction n generalizing k with
  | zero => nofun
  | succ n ih => exact List.forall_mem_cons.2 ⟨rfl, ih⟩

theorem length_semicolons (k : Cursor) (n : Nat) : (semicolons k n).length = n := by
  induction n generalizing k with
  | zero => rfl
  | succ n ih => rw [semicolons, List.length_cons, ih]

theorem scanFrom_semicolons (k : Cursor) (n : Nat) (cs : List Char) :
    scanFrom k (List.replicate n ';' ++ '\n' :: cs) =
      (semicolons k n ++ ·) <$> scanFrom (k.past (List.replicate n ';')) ('\n' :: cs) := by
  induction n generalizing k with
  | zero => exact (id_map _).symm
  | succ n ih =>
    have sign : cut ';' (List.replicate n ';' ++ '\n' :: cs) =
        .ok ⟨some (.sign .semicolon), [], List.replicate n ';' ++ '\n' :: cs⟩ := by
      cases n <;> rfl
    rw [List.replicate_succ, List.cons_append, scanFrom_cons _ sign, Cursor.past_cons]
    show ([⟨.sign .semicolon, ";", k.span 1⟩] ++ ·) <$> scanFrom (k.step ';') _ = _
    rw [ih, Functor.map_map]
    rfl

end Token

/-- Two sources with a line that holds semicolons between them. -/
def joined (a : String) (n : Nat) (b : String) : String :=
  a ++ "\n" ++ String.ofList (List.replicate n ';') ++ "\n" ++ b

theorem joined_one (a b : String) : joined a 1 b = a ++ "\n;\n" ++ b := by
  have line : "\n" ++ (";" ++ "\n") = "\n;\n" := rfl
  show a ++ "\n" ++ ";" ++ "\n" ++ b = _
  rw [← line, ← String.append_assoc, ← String.append_assoc]

/-- The tokens of two sources with a line that holds semicolons between them: those of the first, the
semicolons, and those of the second, if it has any, as many lines lower as it stands. -/
theorem Token.scan_joined {a : String} {ts : List Token} (first : scan a = .ok ts) (n : Nat) (b : String) :
    ∃ k : Cursor, scan (joined a n b) = (ts.dropLast ++ semicolons k n ++ ·) <$>
      relocateScan (Span.lower (2 + a.toList.count '\n')) (scan b) := by
  have text : (joined a n b).toList = a.toList ++ '\n' :: (List.replicate n ';' ++ '\n' :: b.toList) := by
    simp [joined, String.toList_append]
  -- the second source stands below the line of the semicolons
  have line : (((Cursor.start.past a.toList).step '\n').past (List.replicate n ';')).line =
      2 + a.toList.count '\n' := by
    rw [Cursor.line_past, Cursor.step_feed, Cursor.shift, Cursor.line_past]
    simp [Cursor.start, List.count_replicate]
    omega
  have tokens := scanFrom_feed (List.replicate n ';' ++ '\n' :: b.toList) first
  rw [scanFrom_gap _ rfl, scanFrom_semicolons, scanFrom_line, line, Functor.map_map] at tokens
  refine ⟨(Cursor.start.past a.toList).step '\n', ?_⟩
  rw [scan, text, tokens]
  simp only [List.append_assoc]
  rfl

end ScriptLang
