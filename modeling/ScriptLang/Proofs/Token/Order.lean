/-
# ScriptLang.Proofs.Token.Order — tokens stand in the order of their places.

Behind a part of a text that is not empty the cursor stands further down or, on the same line, further right.
In a tiling a lexeme is not empty, so each token begins before all that come after it, and no two tokens have
the same line and column.
-/
import ScriptLang.Proofs.Token.Tiling

namespace ScriptLang

/-- A span begins before another one: on an earlier line, or on the same line and further left. -/
def Span.Before (s t : Span) : Prop := s.line < t.line ∨ s.line = t.line ∧ s.col < t.col

/-- A cursor that moves comes to a later place. -/
theorem Cursor.before_past {k : Cursor} (hk : k.lineStart ≤ k.offset) {cs : List Char} (some : cs ≠ [])
    (length length' : Nat) : (k.span length).Before ((k.past cs).span length') := by
  rcases Nat.lt_or_eq_of_le (line_le_past k cs) with lower | same
  · exact .inl lower
  · have start := lineStart_past same.symm
    have offset := past_offset k cs
    have moved := List.length_pos_iff.2 some
    refine .inr ⟨same, ?_⟩
    show k.col < (k.past cs).col
    unfold Cursor.col
    omega

theorem Span.behind_before {cs : List Char} (some : cs ≠ []) (text : List Char) (length length' : Nat) :
    (behind text length).Before (behind (text ++ cs) length') := by
  rw [← Cursor.span_past, ← Cursor.span_past, Cursor.past_append]
  exact Cursor.before_past (Cursor.lineStart_le_offset (k := .start) (Nat.le_refl _) text) some _ _

namespace Token

/-- The tokens behind a text stand behind all of it. -/
theorem Tiles.behind {before text : List Char} {ts : List Token} (h : Tiles before text ts) :
    ∀ t ∈ ts, ∃ more length, t.span = .behind (before ++ more) length := by
  induction h with
  | @last before gap _ =>
    intro t member
    obtain rfl := List.mem_singleton.1 member
    exact ⟨gap, 0, rfl⟩
  | @next before gap after t ts _ _ _ span _ ih =>
    intro u member
    rcases List.mem_cons.1 member with rfl | later
    · exact ⟨gap, _, span⟩
    · obtain ⟨more, length, place⟩ := ih u later
      refine ⟨gap ++ t.lexeme ++ more, length, ?_⟩
      rw [place]
      simp only [List.append_assoc]

/-- Each token of a tiling begins before all that come after it. -/
theorem Tiles.ordered {before text : List Char} {ts : List Token} (h : Tiles before text ts) :
    ts.Pairwise fun t u => t.span.Before u.span := by
  induction h with
  | last => exact List.pairwise_singleton _ _
  | @next before gap after t ts _ spelled _ span tiles ih =>
    refine List.pairwise_cons.2 ⟨fun u member => ?_, ih⟩
    obtain ⟨more, length, place⟩ := tiles.behind u member
    have some : t.lexeme ++ more ≠ [] := fun none => spelled.ne_nil (List.append_eq_nil_iff.1 none).1
    rw [span, place, List.append_assoc]
    exact Span.behind_before some _ _ _

end Token

end ScriptLang
