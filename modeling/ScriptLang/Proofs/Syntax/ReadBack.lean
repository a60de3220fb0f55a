/-
# ScriptLang.Proofs.Syntax.ReadBack — reading undoes writing.

The tokens that a well-formed tree is written with are read as that tree.  An induction on the bound of
the readers settles expressions and statements at once, since the phrases inside a phrase are read at a
smaller bound; and no bound is met where it is above the number of tokens.
-/
import ScriptLang.Proofs.Syntax.ReadBack.Statement
import ScriptLang.Proofs.Number.Numeral

namespace ScriptLang

/-! ## Programs -/

/-- The readers of nesting below `n` read every well-formed phrase of fewer than `n` tokens. -/
theorem readers_readBack (numerals : Numerals) (n : Nat) :
    Phrases.ReadsBack numerals ⟨n + 1, readExpression n, readStatement n⟩ n := by
  induction n with
  | zero =>
    -- no spelling is empty
    refine ⟨Nat.zero_lt_one, fun e wf small => ?_, fun s wf small => ?_⟩
    · exact absurd (List.eq_nil_of_length_eq_zero (Nat.le_zero.mp small))
        (e.begins_spelling numerals wf).ne_nil
    · exact absurd (List.eq_nil_of_length_eq_zero (Nat.le_zero.mp small))
        (Grammar.Stmt.beginsItem_spelling wf).ne_nil
  | succ n ih =>
    exact ⟨Nat.lt_succ_self _, fun e wf small => Grammar.expression_reads ih wf small,
      fun s wf small => Grammar.statement_reads ih wf small⟩

/-- Reading undoes writing, for tokens that stand nowhere. -/
theorem Program.reads_spelling (numerals : Numerals) {p : Program} (wf : p.isWellFormed)
    {eof : Token} (ended : eof.kind = .eof) {n : Nat} (enough : (p.spelling numerals).length < n) :
    Grammar.phrasesToEnd (readStatement n) (· = .eof) n ⟨p.spelling numerals, eof⟩ =
      .ok (p.bare, ⟨[], eof⟩) := by
  rw [Program.isWellFormed, stmtsAreWellFormed_eq_all] at wf
  rw [Program.spelling, stmtsSpelling_eq_flatMap] at enough ⊢
  have begin (s : Stmt) (hs : s ∈ p) : Grammar.BeginsItem (s.spelling numerals) :=
    Grammar.Stmt.beginsItem_spelling (List.all_eq_true.mp wf s hs)
  -- no statement is spelled with nothing, so the bound suffices for the list too
  have few : p.length ≤ (p.flatMap (Stmt.spelling numerals)).length :=
    length_le_length_flatMap fun s hs => (begin s hs).ne_nil
  have each (s : Stmt) (hs : s ∈ p) : Grammar.BeginsItem (s.spelling numerals) ∧
      Parse.Reads (readStatement n) (s.spelling numerals) s.bare Parse.anyKind := by
    have short := spelling_le_flatMap (Stmt.spelling numerals) hs
    refine ⟨begin s hs, ?_⟩
    exact (readers_readBack numerals n).statement s (List.all_eq_true.mp wf s hs) (by omega)
  have reads := Grammar.phrasesToEnd_reads (· = .eof)
    (fun kind h => by rw [of_decide_eq_true h]; rfl) p n (by omega) each
  have read := reads ⟨[], eof⟩ (decide_eq_true ended)
  rw [TokenStream.prepend, List.append_nil] at read
  exact read

theorem TokenStream.ofList_append {w tail : List Token} (inner : EndFree w)
    (ended : ∀ t ∈ tail.head?, t.kind = .eof) :
    ∃ eof : Token, eof.kind = .eof ∧ TokenStream.ofList (w ++ tail) = ⟨w, eof⟩ := by
  have goesOn : ∀ t ∈ w, decide (t.kind ≠ .eof) = true := fun t ht => decide_eq_true (inner t ht)
  unfold ofList
  rw [List.dropWhile_append_of_pos goesOn, List.takeWhile_append_of_pos goesOn]
  cases tail with
  | nil => exact ⟨_, rfl, by rw [List.dropWhile_nil, List.append_nil]⟩
  | cons eof rest =>
    have last := ended eof rfl
    have stops : decide (eof.kind ≠ .eof) = false := decide_eq_false fun h => h last
    refine ⟨eof, last, ?_⟩
    rw [List.dropWhile_cons, List.takeWhile_cons, stops]
    exact congrArg (TokenStream.mk · eof) (List.append_nil w)

/-- Reading undoes writing.  Tokens that spell a well-formed program, wherever they stand, with an end
token after them or with nothing after them, are read as that program with other spans at most. -/
theorem Program.spelling_reads_back (numerals : Numerals) (p : Program) (wf : p.isWellFormed)
    (ts tail : List Token) (spelled : ts.map Token.bare = p.spelling numerals)
    (ended : ∀ t ∈ tail.head?, t.kind = .eof) :
    ∃ q, Program.ofTokens? (ts ++ tail) = .ok q ∧ q.bare = p.bare := by
  have relocated := Program.ofTokens?_relocate (f := fun _ => Span.nowhere) rfl (ts ++ tail)
  have endedBare : ∀ t ∈ (tail.map Token.bare).head?, t.kind = .eof := by
    cases tail with
    | nil => exact fun _ h => nomatch h
    | cons eof rest =>
      rintro t ⟨⟩
      exact ended eof rfl
  obtain ⟨eof, last, stream⟩ :=
    TokenStream.ofList_append (endFree_stmtsSpelling numerals p) endedBare
  -- without their places the tokens are the ones that the program is written with
  have read : Program.ofTokens? ((ts ++ tail).map Token.bare) = .ok p.bare := by
    have reads := Program.reads_spelling numerals wf last (Nat.lt_succ_self _)
    rw [List.map_append, spelled, Program.ofTokens?]
    simp only [Program.spelling, stream]
    exact congrArg (Prod.fst <$> ·) reads
  change Program.ofTokens? ((ts ++ tail).map Token.bare) = _ at relocated
  rw [read] at relocated
  cases found : Program.ofTokens? (ts ++ tail) with
  | error e =>
    rw [found] at relocated
    cases relocated
  | ok q =>
    rw [found] at relocated
    exact ⟨q, rfl, (Except.ok.inj relocated).symm⟩

/-! ## Lone expressions -/

/-- What tokens are read as without their places is the shape of what they are read as. -/
theorem Program.reads_of_bare {ts : List Token} {p : Program}
    (h : Program.ofTokens? (ts.map Token.bare) = .ok p) :
    ∃ q, Program.ofTokens? ts = .ok q ∧ q.bare = p := by
  have relocated := Program.ofTokens?_relocate (f := fun _ => Span.nowhere) rfl ts
  change Program.ofTokens? (ts.map Token.bare) = _ at relocated
  rw [h] at relocated
  cases found : Program.ofTokens? ts with
  | error e =>
    rw [found] at relocated
    cases relocated
  | ok q =>
    rw [found] at relocated
    exact ⟨q, rfl, (Except.ok.inj relocated).symm⟩

/-- An expression is a program of its own.  The end of the tokens does for the semicolon. -/
theorem Program.expression_reads_back (numerals : Numerals) {e : Expr} (wf : e.isWellFormed)
    (noFunction : e.isFunction = false) {ts : List Token} (spelled : ts.map Token.bare = e.spelling numerals)
    {last : Token} (ended : last.kind = .eof) :
    ∃ q, Program.ofTokens? (ts ++ [last]) = .ok q ∧ q.bare = [.expression .nowhere e.bare] := by
  refine Program.reads_of_bare ?_
  generalize hw : e.spelling numerals = w at spelled
  have endFree : EndFree w := hw ▸ Expr.endFree_spelling numerals e
  have endedBare : ∀ t ∈ [last.bare].head?, t.kind = .eof := by
    rintro t ⟨⟩
    exact ended
  obtain ⟨eof, atEnd, stream⟩ := TokenStream.ofList_append endFree endedBare
  have begins : Begins 0 w := hw ▸ (e.begins_spelling numerals wf).of_le (Nat.zero_le _)
  obtain ⟨first, rest, shape, notSkipped, goesOn⟩ := Grammar.BeginsItem.of_begins begins
  have notEnd : ¬first.kind = .eof := endFree first (by rw [shape]; exact List.mem_cons_self)
  have ends : EndsAt 0 eof.kind := atEnd ▸ EndsAt.eof 0
  have reads := Grammar.expressionStatement_reads (readers_readBack numerals w.length) wf
    (by rw [noFunction, parenthesizedIf, if_neg Bool.false_ne_true, hw]; exact Nat.le_succ _)
  rw [noFunction, parenthesizedIf, if_neg Bool.false_ne_true, hw] at reads
  have atLast : (⟨[], eof⟩ : TokenStream).peek.kind = .eof := atEnd
  have noSemicolon : (⟨[], eof⟩ : TokenStream).peek.kind ≠ .sign .semicolon := by
    rw [atLast]
    decide
  have statement : readStatement (w.length + 1) ⟨w, eof⟩ = .ok (.expression .nowhere e.bare, ⟨[], eof⟩) := by
    have read := reads ⟨[], eof⟩ ends
    rw [TokenStream.prepend, List.append_nil] at read
    rw [readStatement, Grammar.statement, Parse.bind_of_ok read, Parse.accept_bind_of_ne noSemicolon]
    rfl
  have peek : (⟨w, eof⟩ : TokenStream).peek = first := by
    rw [shape]
    rfl
  have nothingMore : Grammar.phrasesToEnd (readStatement (w.length + 1)) (· = .eof) w.length ⟨[], eof⟩ =
      .ok ([], ⟨[], eof⟩) := by
    rw [shape, List.length_cons, Grammar.phrasesToEnd, Parse.skip_bind noSemicolon, Parse.peek_bind,
      if_pos (decide_eq_true atLast)]
    rfl
  rw [List.map_append, spelled, Program.ofTokens?, List.map_singleton]
  simp only [stream]
  rw [Grammar.phrasesToEnd, Parse.skip_bind (by rw [peek]; exact notSkipped), Parse.peek_bind, peek,
    if_neg (by simpa using notEnd), Parse.bind_of_ok statement, Parse.bind_of_ok nothingMore]
  rfl

/-- Numbers written as their exact values. -/
def Numerals.exact : Numerals := ⟨Number.numeral, Number.read?_numeral⟩

/-- An assignment of a difference with an instance on its left: `total.sum = (new (make())(1)) - 2;`. -/
def differenceProgram : Program :=
  [.expression .nowhere
    (.assign .nowhere (.member .nowhere (.identifier .nowhere "total") (.identifier .nowhere "sum") false)
      (.binary .nowhere
        (.instantiate .nowhere (.call .nowhere (.identifier .nowhere "make") []) [.number .nowhere 1.0])
        .subtract (.number .nowhere 2.0)))]

theorem differenceProgram_reads_back :
    ∃ q, Program.ofTokens? (differenceProgram.spelling .exact ++ [⟨.eof, "", ⟨1, 30, 0⟩⟩]) = .ok q ∧
      q.bare = Program.bare differenceProgram :=
  Program.spelling_reads_back .exact differenceProgram rfl (differenceProgram.spelling .exact) _ rfl
    (by simp)

end ScriptLang
