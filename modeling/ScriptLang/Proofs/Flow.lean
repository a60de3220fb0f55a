/-
# ScriptLang.Proofs.Flow — a `break` and a `return` keep to where they are written.

What a block can end with is read off its text, whatever the state, the mode and the depth of calls.  From
that follows where these two can fail: a program whose returns stand in functions and whose breaks stand in
loops or functions has none that is misplaced.  A `return` that the body of a call comes to ends the call,
through all blocks and loops around it; a constructor has none, since the reader of members refuses it.
-/
import ScriptLang.Proofs.Flow.Returns
import ScriptLang.Proofs.Syntax.WellFormed

namespace ScriptLang

/-- A block ends with a `return` or a `break` only if its text has one there; a loop takes each `break`, and
outside calls it lets no `return` pass; programs without misplaced ones never fail at one; and inside a call
the `return` that the body comes to settles the call. -/
theorem break_and_return_keep_to_structure :
    (∀ n body strict m v k, evalBlock n body strict m = .ok (.give v) k → returnsIn body) ∧
    (∀ n body strict m k, evalBlock n body strict m = .ok .leave k → breaksIn body) ∧
    (∀ n (s : Stmt) strict m k, s.isLoop → Eval.statement (.bounded n) s strict m ≠ .ok .leave k) ∧
    (∀ n (s : Stmt) strict m v k, s.isLoop → m.frame.depth = 0 →
      Eval.statement (.bounded n) s strict m ≠ .ok (.give v) k) ∧
    (∀ n p scope m span fault k, returnsIn p = false → breaksIn p = false →
      Run.inProgram scope (Eval.program (.bounded n) p) m ≠ .error (.raised ⟨span, .flow fault⟩) k) ∧
    (∀ n body strict m v k, 0 < m.frame.depth →
      (evalBlock (n + 1) body strict m = .ok (.give v) k ↔
        ∃ r, Reaches n strict (.block body) m r ∧ r.outcome Flow.give m.frame = .ok (.give v) k)) ∧
    (∀ n f args strict span m k r, Eval.EntersCall f args strict span m k →
      Reaches n strict (.block f.declaration.body) k r →
      Eval.callFunction (.bounded (n + 1)) f args strict span m = r.outcome id m.frame) ∧
    (∀ parts s t visibility d, Grammar.classMember parts s = .ok (.method visibility d, t) →
      d.name = some constructorName →
      ∀ n strict m v k, evalBlock n d.body strict m ≠ .ok (.give v) k) := by
  have ended {n : Nat} {body : List Stmt} {strict : Bool} {m k : Machine} {flow : Flow}
      (h : evalBlock n body strict m = .ok flow k) : flow.May (returnsIn body) (breaksIn body) :=
    (((Evaluator.bounded_orderly n).block body strict).of_ok h).2
  have loopEnded {n : Nat} {s : Stmt} {strict : Bool} {m k : Machine} {flow : Flow} (loop : s.isLoop)
      (h : Eval.statement (.bounded n) s strict m = .ok flow k) : flow.May (0 < m.frame.depth) False :=
    ((Eval.statement_of_isLoop (Evaluator.bounded_orderly n) loop strict).of_ok h).2
  refine ⟨fun n body strict m v k => ended, fun n body strict m k => ended, ?_, ?_, ?_, ?_, ?_, ?_⟩
  · intro n s strict m k loop
    exact loopEnded loop
  · intro n s strict m v k loop outside h
    have inside : 0 < m.frame.depth := loopEnded loop h
    exact absurd outside (Nat.pos_iff_ne_zero.1 inside)
  · intro n p scope m span fault k noReturn noBreak h
    have outcome := (Run.Orderly.withFrame (f := ⟨scope, 0⟩) (d := m.frame.depth)
      (Eval.program_orderly (Evaluator.bounded_orderly n) p)) m rfl
    change Run.withFrame ⟨scope, 0⟩ _ m = _ at h
    rw [h] at outcome
    cases outcome with
    | error _ only => simpa [noReturn, noBreak] using only trivial
  · intro n body strict m v k inside
    exact Eval.block_gives_iff inside
  · intro n f args strict span m k r enters reaches
    exact Eval.callFunction_of_reaches enters reaches
  · intro parts s t visibility d read isConstructor n strict m v k h
    have none := Grammar.classMember_constructor parts s _ t read visibility d rfl isConstructor
    have returned : returnsIn d.body := ended h
    simp [returned] at none

/-- A function that returns out of a condition inside a loop, with more of the loop and of the body behind. -/
def insistent : Function :=
  let here : Span := ⟨1, 1, 1⟩
  let always : Expr := .string here "on"
  ⟨0, ⟨some "insistent", [], [.whileLoop here always
    [.ifBlock here always [.returnValue here (.string here "found")], .breakLoop here],
    .returnValue here (.string here "missed")], false, none⟩, 0⟩

theorem insistent_call_settled :
    ∃ k r, Eval.EntersCall insistent [] false ⟨1, 1, 1⟩ (.blank (.closed [] [] 0.0)) k ∧
      Reaches 3 false (.block insistent.declaration.body) k r ∧ r.value = .string ⟨1, 1, 1⟩ "found" ∧
      Eval.callFunction (.bounded 4) insistent [] false ⟨1, 1, 1⟩ (.blank (.closed [] [] 0.0)) =
        r.outcome id ⟨0, 0⟩ := by
  obtain ⟨-, -, -, -, -, -, calls, -⟩ := break_and_return_keep_to_structure
  have enters : Eval.EntersCall insistent [] false ⟨1, 1, 1⟩ (.blank (.closed [] [] 0.0)) _ :=
    ⟨Nat.le_refl _, _, rfl, rfl⟩
  have reaches (m : Machine) : Reaches 3 false (.block insistent.declaration.body) m
      ⟨1, .string ⟨1, 1, 1⟩ "found", false, m.entered.entered⟩ :=
    .inWhile (k := m) rfl (.whileBody (.inIf (k := m.entered) rfl .here))
  exact ⟨_, _, enters, reaches _, rfl, calls _ _ _ _ _ _ _ _ enters (reaches _)⟩

end ScriptLang
