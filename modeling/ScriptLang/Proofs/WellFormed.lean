/-
# ScriptLang.Proofs.WellFormed — what is read never makes a rule fall back.

The reader keeps rules that the evaluator takes for granted: how a loop counts, what can be assigned to, what
a dot names.  Every program that is read keeps them, at every depth.  A session only ever holds code that was
read, so the branches that a few rules have for other trees can be replaced by anything.
-/
import ScriptLang.Proofs.WellFormed.Rules

namespace ScriptLang

/-- The counter of a loop that does not fall back starts at its numeral, in every state. -/
theorem Stmt.startNumber_of_not_fallsBack {span : Span} {loop : ForLoop}
    (h : (Stmt.forLoop span loop).fallsBack = false) :
    ∃ x, ∀ n strict m, Eval.startNumber (.bounded (n + 1)) loop.counter.value strict m = .ok x m := by
  have starts : Grammar.startsAtNumber loop.counter := by
    simp only [fallsBack, Bool.or_eq_false_iff, Bool.not_eq_false'] at h
    exact h.1
  unfold Grammar.startsAtNumber at starts
  split at starts
  · next numeral x given =>
    rw [given]
    exact ⟨x, fun _ _ _ => rfl⟩
  · cases starts

/-- A program that tokens spell keeps all rules of the reader, at every depth.  Run on a machine that holds
such code only, as the first machine does, it leaves one, and it never comes to a tree whose rule falls back:
an evaluator that leaves these trees to any other evaluator does the same. -/
theorem read_program_never_falls_back {ts : List Token} {p : Program} (h : Program.ofTokens? ts = .ok p) :
    p.isWellFormed ∧
    (∀ host, (Machine.initial host).Sound) ∧
    (∀ m : Machine, m.Sound → ∀ n scope,
      (Run.after (Run.inProgram scope (Eval.program (.bounded n) p)) m).Sound ∧
      ∀ other, Run.inProgram scope (Eval.program (.guarded other n) p) m =
        Run.inProgram scope (Eval.program (.bounded n) p) m) ∧
    (∀ s ∈ p, s.fallsBack = false ∧ ∀ span loop, s = .forLoop span loop →
      ∃ x, ∀ n strict m, Eval.startNumber (.bounded (n + 1)) loop.counter.value strict m = .ok x m) := by
  have wellFormed := Program.isWellFormed_of_tokens h
  have each : ∀ s ∈ p, s.fallsBack = false := by
    rw [Program.isWellFormed, stmtsAreWellFormed_eq_all, List.all_eq_true] at wellFormed
    exact fun s hs => Stmt.not_fallsBack (wellFormed s hs)
  refine ⟨wellFormed, Machine.initial_sound, fun m hm n scope => ?_, fun s hs => ⟨each s hs, ?_⟩⟩
  · have secure (other : Evaluator) :=
      (Eval.program_secure (Evaluator.bounded_secure other n) wellFormed).withFrame ⟨scope, 0⟩ m hm
    refine ⟨?_, fun other => (secure other).1⟩
    obtain ⟨-, secured⟩ := secure (.bounded n)
    unfold Run.after Run.inProgram
    generalize Run.withFrame _ _ m = r at secured
    cases secured with
    | ok _ hk => exact hk
    | error hk => exact hk
  · rintro span loop rfl
    exact Stmt.startNumber_of_not_fallsBack (each _ hs)

/-- The tokens of `for (let i = 0; i < 2; i++) { log.last = i; }`. -/
def countingTokens : List Token :=
  [.ofKeyword .forWord, .ofSign .leftParen, .ofKeyword .letWord, .ofName "i", .ofSign .assign,
    .ofNumeral "0", .ofSign .semicolon, .ofName "i", .ofSign .less, .ofNumeral "2", .ofSign .semicolon,
    .ofName "i", .ofSign .plusPlus, .ofSign .rightParen, .ofSign .leftBrace, .ofName "log", .ofSign .dot,
    .ofName "last", .ofSign .assign, .ofName "i", .ofSign .semicolon, .ofSign .rightBrace]

theorem countingTokens_never_fall_back :
    ∃ p, Program.ofTokens? countingTokens = .ok p ∧ p.length = 1 ∧ p.isWellFormed ∧
      ∀ host other n, Run.inProgram 0 (Eval.program (.guarded other n) p) (.initial host) =
        Run.inProgram 0 (Eval.program (.bounded n) p) (.initial host) := by
  have one : ((Program.ofTokens? countingTokens).map List.length).toOption = some 1 := by decide +kernel
  cases read : Program.ofTokens? countingTokens with
  | error e =>
    rw [read] at one
    cases one
  | ok p =>
    rw [read] at one
    obtain ⟨wellFormed, initial, same, -⟩ := read_program_never_falls_back read
    exact ⟨p, rfl, Option.some.inj one, wellFormed, fun host other n => (same _ (initial host) n 0).2 other⟩

end ScriptLang
