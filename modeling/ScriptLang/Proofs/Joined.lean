/-
# ScriptLang.Proofs.Joined — a source below another one is read as it is read alone.

Where a source that can be read is followed by a line of semicolons and another source, the whole is read
as the program of the first and then that of the second, which stands as many lines lower as there are
above it.  If the second source cannot be read, then the whole fails as it does, in the scan or in the
readers, at a place that is lower by the same number of lines.
-/
import ScriptLang.Proofs.Program
import ScriptLang.Proofs.Syntax.Sequel
import ScriptLang.Proofs.Token.Joined
import Mathlib

namespace ScriptLang

namespace Program

/-- Statements and then what a source below them comes to. -/
def before (p : Program) (f : Span → Span) : Except Error Program → Except Error Program
  | .ok q => .ok (p ++ q.map (Stmt.relocate f))
  | .error e => .error (e.relocate f)

theorem ofSource?_joined {a : String} {p : Program} (read : ofSource? a = .ok p) {n : Nat} (positive : 1 ≤ n)
    (b : String) :
    ofSource? (joined a n b) = p.before (Span.lower (2 + a.toList.count '\n')) (ofSource? b) := by
  obtain ⟨ts, scanned, spelled⟩ := ofSource?_eq_ok read
  obtain ⟨lexemes, eof, rfl, ended, inner⟩ := (Token.scans_of_scanFrom scanned).ends
  obtain ⟨k, tokens⟩ := Token.scan_joined scanned n b
  rw [List.dropLast_concat] at tokens
  cases scanned' : Token.scan b with
  | error e =>
    unfold ofSource?
    rw [tokens, scanned']
    rfl
  | ok us =>
    obtain ⟨lexemes', eof', rfl, ended', inner'⟩ := (Token.scans_of_scanFrom scanned').ends
    have semicolons : Token.semicolons k n ≠ [] := by
      rw [← List.length_pos_iff, Token.length_semicolons]
      exact positive
    let lower := Token.relocate (Span.lower (2 + a.toList.count '\n'))
    have both : Token.scan (joined a n b) =
        .ok (lexemes ++ Token.semicolons k n ++ (lexemes' ++ [eof']).map lower) := by
      rw [tokens, scanned']
      rfl
    have whole : ofTokens? (lexemes ++ Token.semicolons k n ++ (lexemes' ++ [eof']).map lower) =
        (p ++ ·) <$> ofTokens? ((lexemes' ++ [eof']).map lower) := by
      rw [List.map_append, List.map_singleton]
      exact ofTokens?_append inner ended semicolons Token.semicolons_kind
        (by simpa [lower] using inner') (by simpa [lower] using ended') spelled
    rw [ofTokens?_relocate_of (by simp)] at whole
    unfold ofSource?
    rw [both, scanned']
    dsimp only
    rw [whole]
    cases ofTokens? (lexemes' ++ [eof']) <;> rfl

end Program

/-- For a source that can be read, and a line of one semicolon or more between it and another source: if
the other source can be read too, the joined source is read as the statements of both, those of the second
lower by the lines above it; and if the other source fails, the joined source fails with that error, lower
by as many lines. -/
theorem joined_source_read {a : String} {p : Program} {n : Nat} (positive : 1 ≤ n)
    (read : Program.ofSource? a = .ok p) (b : String) :
    (∀ q, Program.ofSource? b = .ok q → Program.ofSource? (joined a n b) =
      .ok (p ++ q.map (Stmt.relocate (Span.lower (2 + a.toList.count '\n'))))) ∧
    ∀ e, Program.ofSource? b = .error e → Program.ofSource? (joined a n b) =
      .error (e.relocate (Span.lower (2 + a.toList.count '\n'))) := by
  have whole := Program.ofSource?_joined read positive b
  constructor
  · intro q readToo
    rw [whole, readToo]
    rfl
  · intro e fails
    rw [whole, fails]
    rfl

/-- A `return` that ends with its source, with a comment after it. -/
def bareReturn : Program := [.returnValue ⟨1, 1, 6⟩ (.null ⟨1, 1, 6⟩)]

theorem bareReturn_joined :
    Program.ofSource? "return // [" = .ok bareReturn ∧
    Program.ofSource? (joined "return // [" 2 "x") =
      .ok (bareReturn ++ [.expression ⟨3, 1, 1⟩ (.identifier ⟨3, 1, 1⟩ "x")]) ∧
    Program.ofSource? (joined "return // [" 2 "[x") =
      .error (.parse ⟨⟨3, 3, 0⟩, .unexpected (.sign .comma) .eof "" .betweenElements⟩) := by
  have read : Program.ofSource? "return // [" = .ok bareReturn := by cbv
  exact ⟨read,
    (joined_source_read (by decide) read "x").1 [.expression ⟨1, 1, 1⟩ (.identifier ⟨1, 1, 1⟩ "x")] (by cbv),
    (joined_source_read (by decide) read "[x").2
      (.parse ⟨⟨1, 3, 0⟩, .unexpected (.sign .comma) .eof "" .betweenElements⟩) (by cbv)⟩

end ScriptLang
