/-
# ScriptLang.Eval — evaluators, and runs of whole sources.

The rules are tied together by a bound on steps: an evaluator with the bound `n + 1` applies a rule whose
parts are evaluated with the bound `n`, and each loop may make as many passes.  With the bound zero a run
stops, which is no answer; every answer that a run gives is also given with any greater bound.
-/
import ScriptLang.Eval.Expression

namespace ScriptLang

mutual

/-- The value of an expression, in steps bounded by `n`. -/
def evalExpression : Nat → Expr → Bool → Machine → EStateM.Result Halt Machine Value
  | 0, _, _, m => Run.outOfFuel m
  | n + 1, e, strict, m => Eval.expression ⟨n, evalExpression n, evalBlock n⟩ e strict m

/-- How a block ends, in steps bounded by `n`. -/
def evalBlock : Nat → List Stmt → Bool → Machine → EStateM.Result Halt Machine Flow
  | 0, _, _, m => Run.outOfFuel m
  | n + 1, body, strict, m => Eval.block ⟨n, evalExpression n, evalBlock n⟩ body strict m

end

/-- A bound that no run reaches. -/
def ampleSteps : Nat := 0x4000000000000000

/-- The evaluator with a bound. -/
def Evaluator.bounded (n : Nat) : Evaluator := ⟨n, evalExpression n, evalBlock n⟩

/-- What comes of a source. -/
inductive Outcome where
  | value (v : Value)
  | failed (error : Error)
  | waiting (request : Request)
  | outOfFuel

namespace Machine

/-- Runs a source on a machine, in steps bounded by `n`. -/
def run (n : Nat) (source : String) (m : Machine) : Outcome × Machine :=
  match Program.ofSource? source with
  | .error e => (.failed e, m)
  | .ok p =>
    match Run.inProgram m.frame.scope (Eval.program (.bounded n) p) m with
    | .ok v after => (.value v, after)
    | .error (.raised e) after => (.failed e.toError, after)
    | .error (.waiting request) after => (.waiting request, after)
    | .error .outOfFuel after => (.outOfFuel, after)

end Machine

end ScriptLang
