/-
# ScriptLang.Proofs.Program — the statements of a program, one part after another.

A directive changes the strict mode of what follows it and nothing else.  So the statements of a program
can be run in two parts: the second part begins in the mode that the directives of the first lead to, and
with the value that the first came to.  A session is whole sources, each run on the machine that the one
before left.
-/
import ScriptLang.Eval
import ScriptLang.Proofs.Run

namespace ScriptLang

/-- The strict mode after statements that begin in a given mode: what the last directive says. -/
def Program.modeAfter (strict : Bool) (p : Program) : Bool :=
  p.foldl (fun mode s => (Eval.strictDirective? s).getD mode) strict

@[simp] theorem Program.modeAfter_cons (strict : Bool) (s : Stmt) (rest : Program) :
    modeAfter strict (s :: rest) = modeAfter ((Eval.strictDirective? s).getD strict) rest := rfl

/-- Is a statement a directive? -/
def Stmt.isDirective (s : Stmt) : Bool := (Eval.strictDirective? s).isSome

namespace Eval

open Run

variable (self : Evaluator) {s : Stmt} (rest : Program) (strict : Bool) (last : Value)

/-- The value of a statement at the top level, where nothing receives a `break` or a `return`. -/
def topStatement (s : Stmt) (strict : Bool) : Run Value :=
  match s with
  | .returnValue span _ => raise span (.flow .topLevelReturn)
  | .breakLoop span => raise span (.flow .topLevelBreak)
  | s => do
    match ← statement self s strict with
    | .value v => return v
    | .leave => raise s.span (.flow .topLevelBreak)
    | .give _ => raise s.span (.flow .topLevelReturn)

theorem programFrom_directive {mode : Bool} (h : strictDirective? s = some mode) :
    programFrom self (s :: rest) strict last = programFrom self rest mode last := by
  conv => lhs; unfold programFrom
  rw [h]

theorem programFrom_statement (h : strictDirective? s = none) :
    programFrom self (s :: rest) strict last =
      (topStatement self s strict >>= programFrom self rest strict) := by
  unfold programFrom topStatement
  rw [h]
  cases s with
  | returnValue | breakLoop => rfl
  | _ =>
    dsimp only
    rw [bind_assoc]
    congr 1
    funext flow
    cases flow <;> rfl

/-- The statements of a program in two parts. -/
theorem programFrom_append (p q : Program) :
    programFrom self (p ++ q) strict last =
      (programFrom self p strict last >>= programFrom self q (p.modeAfter strict)) := by
  induction p generalizing strict last with
  | nil => rfl
  | cons s rest ih =>
    rw [List.cons_append, Program.modeAfter_cons]
    cases h : strictDirective? s with
    | some mode =>
      rw [programFrom_directive self _ _ _ h, programFrom_directive self _ _ _ h]
      exact ih mode last
    | none =>
      rw [programFrom_statement self _ _ _ h, programFrom_statement self _ _ _ h, bind_assoc]
      exact congrArg _ (funext fun v => ih strict v)

/-- Directives alone leave the value that is there. -/
theorem programFrom_directives {ds : Program} (h : ∀ s ∈ ds, s.isDirective) :
    programFrom self ds strict last = pure last := by
  induction ds generalizing strict with
  | nil => rfl
  | cons s rest ih =>
    obtain ⟨mode, directive⟩ := Option.isSome_iff_exists.1 (h s List.mem_cons_self)
    rw [programFrom_directive self _ _ _ directive]
    exact ih mode fun t ht => h t (List.mem_cons_of_mem _ ht)

/-- Statements that end with an expression, but for directives after it, come to its value. -/
theorem programFrom_endsWith (init : Program) {directives : Program} {span : Span} {e : Expr}
    (valued : (Stmt.expression span e).isDirective = false) (tail : ∀ s ∈ directives, s.isDirective) :
    programFrom self (init ++ .expression span e :: directives) strict last = (do
      let _ ← programFrom self init strict last
      self.expression e (init.modeAfter strict)) := by
  have none : strictDirective? (.expression span e) = none := by
    simpa [Stmt.isDirective] using valued
  rw [programFrom_append]
  congr 1
  funext before
  rw [programFrom_statement self _ _ _ none]
  have rest : programFrom self directives (init.modeAfter strict) = (pure : Value → Run Value) :=
    funext fun v => programFrom_directives self _ v tail
  simp only [topStatement, statement, map_eq_pure_bind, bind_assoc, pure_bind, rest, bind_pure]

end Eval

/-! ## Results -/

/-- The result that a scope sees in the variable that programs set it in. -/
def Scopes.result? (s : Scopes) (id : ScopeId) : Option Value :=
  match s.value id Builtin.resultObject with
  | .ok (.object _ ps) => Properties.get? Builtin.resultKey ps
  | _ => none

namespace Eval

theorem exported_run (m : Machine) : exported m = .ok (m.scopes.result? m.frame.scope) m := by
  unfold exported Scopes.result?
  cases m.scopes.value m.frame.scope Builtin.resultObject with
  | error fault => rfl
  | ok v => cases v <;> rfl

/-- A program runs its statements, and then looks up its result. -/
theorem program_run (self : Evaluator) (p : Program) (m : Machine) :
    program self p m = match programFrom self p false .null m with
      | .ok last after => .ok ((after.scopes.result? after.frame.scope).getD last) after
      | .error halt after => .error halt after := by
  unfold program
  rw [Run.bind_run]
  cases programFrom self p false .null m with
  | error halt after => rfl
  | ok last after =>
    dsimp only
    rw [Run.bind_run, exported_run]
    dsimp only
    cases after.scopes.result? after.frame.scope <;> rfl

end Eval

/-! ## Sources -/

theorem Program.ofSource?_eq_ok {source : String} {p : Program} (h : Program.ofSource? source = .ok p) :
    ∃ ts, Token.scan source = .ok ts ∧ Program.ofTokens? ts = .ok p := by
  unfold Program.ofSource? at h
  split at h
  · cases h
  · next ts scanned =>
    split at h
    · cases h
    · next q spelled =>
      cases h
      exact ⟨ts, scanned, spelled⟩

/-- The program that a source spells; empty if it spells none. -/
def Program.spelledBy (source : String) : Program :=
  match Program.ofSource? source with
  | .ok p => p
  | .error _ => []

theorem Program.spelledBy_of_read {source : String} {p : Program} (h : Program.ofSource? source = .ok p) :
    Program.spelledBy source = p := by
  rw [spelledBy, h]

/-! ## Sessions -/

/-- The steps of a session: what comes of each source, run on the machine that the one before left. -/
def Machine.session (n : Nat) : List String → Machine → List (Outcome × Machine)
  | [], _ => []
  | source :: rest, m => m.run n source :: session n rest (m.run n source).2

end ScriptLang
