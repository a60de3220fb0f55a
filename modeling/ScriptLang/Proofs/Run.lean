/-
# ScriptLang.Proofs.Run — runs, one after another.

A run that is followed by another hands it the value and the machine it ended with; if it halts, so does
the whole.  These are the equations by which a proof takes a longer run apart.
-/
import ScriptLang.Machine

namespace ScriptLang.Run

variable {α β : Type}

/-- The machine after a run, however the run ends. -/
def after (x : Run α) (m : Machine) : Machine :=
  match x m with
  | .ok _ n => n
  | .error _ n => n

/-- Does a run end with a value? -/
def succeeds (x : Run α) (m : Machine) : Bool :=
  match x m with
  | .ok _ _ => true
  | .error _ _ => false

theorem succeeds_iff {x : Run α} {m : Machine} : x.succeeds m ↔ ∃ a n, x m = .ok a n := by
  unfold succeeds
  cases x m <;> simp

/-- The value that a run ends with, if it does. -/
def value? (x : Run α) (m : Machine) : Option α :=
  match x m with
  | .ok a _ => some a
  | .error _ _ => none

theorem value?_eq_some {x : Run α} {m : Machine} {a : α} : x.value? m = some a ↔ ∃ n, x m = .ok a n := by
  unfold value?
  cases x m <;> simp

/-- A run and what follows it, as one look at its outcome. -/
theorem bind_run (x : Run α) (f : α → Run β) (m : Machine) :
    (x >>= f) m = match x m with
      | .ok a n => f a n
      | .error e n => .error e n := by
  show EStateM.bind x f m = _
  unfold EStateM.bind
  cases x m <;> rfl

/-- Two runs come to the same if their first parts do, and what follows comes to the same after these. -/
theorem bind_congr_at {x y : Run α} {f g : α → Run β} {m : Machine} (h : x m = y m)
    (k : ∀ a n, y m = .ok a n → f a n = g a n) : (x >>= f) m = (y >>= g) m := by
  rw [bind_run, bind_run, h]
  cases hy : y m with
  | ok a n => exact k a n hy
  | error e n => rfl

/-- A run and what follows it succeed together when each does. -/
theorem bind_eq_ok {x : Run α} {f : α → Run β} {m k : Machine} {b : β} :
    (x >>= f) m = .ok b k ↔ ∃ a n, x m = .ok a n ∧ f a n = .ok b k := by
  rw [bind_run]
  constructor
  · intro h
    cases hx : x m with
    | ok a n => exact ⟨a, n, rfl, by simpa only [hx] using h⟩
    | error e n => simp only [hx, reduceCtorEq] at h
  · rintro ⟨a, n, hx, h⟩
    simpa only [hx] using h

/-- A run and what follows it halt together when one of them does. -/
theorem bind_eq_error {x : Run α} {f : α → Run β} {m k : Machine} {halt : Halt} :
    (x >>= f) m = .error halt k ↔ x m = .error halt k ∨ ∃ a n, x m = .ok a n ∧ f a n = .error halt k := by
  rw [bind_run]
  cases x m with
  | ok a n => simp [and_assoc]
  | error e n => simp

theorem bind_of_ok {x : Run α} {f : α → Run β} {m n : Machine} {a : α} (h : x m = .ok a n) :
    (x >>= f) m = f a n := by
  rw [bind_run, h]

theorem map_run (c : α → β) (x : Run α) (m : Machine) :
    (c <$> x) m = match x m with
      | .ok a n => .ok (c a) n
      | .error e n => .error e n := by
  show EStateM.map c x m = _
  unfold EStateM.map
  cases x m <;> rfl

theorem settle_eq_ok {span : Span} {x : Except RuntimeFault α} {m n : Machine} {a : α} :
    settle span x m = .ok a n ↔ x = .ok a ∧ n = m := by
  unfold settle
  cases x with
  | ok b => simp [eq_comm]
  | error fault => simp

theorem lookup_eq_ok {name : String} {span : Span} {m n : Machine} {v : Value} :
    lookup name span m = .ok v n ↔ m.scopes.value m.frame.scope name = .ok v ∧ n = m :=
  settle_eq_ok

theorem reassign_eq_ok {name : String} {span : Span} {v w : Value} {m n : Machine}
    (h : reassign name v span m = .ok w n) :
    ∃ owner, m.scopes.writable m.frame.scope name = .ok owner ∧
      n = m.mapScopes (·.setValue owner name v) := by
  unfold reassign at h
  cases hw : m.scopes.writable m.frame.scope name with
  | error fault => simp [hw] at h
  | ok owner =>
    simp only [hw] at h
    cases h
    exact ⟨owner, rfl, rfl⟩

theorem declareIn_eq_ok {scope : ScopeId} {name : String} {v w : Value} {constant strict : Bool} {span : Span}
    {m n : Machine} (h : declareIn scope name v constant strict span m = .ok w n) :
    n = m.mapScopes (·.bind scope name v constant) := by
  unfold declareIn at h
  split at h
  · cases h
  · cases h
    rfl

/-- Outside strict mode no scope refuses a declaration. -/
theorem declareIn_lenient (scope : ScopeId) (name : String) (v : Value) (constant : Bool) (span : Span)
    (m : Machine) :
    declareIn scope name v constant false span m = .ok v (m.mapScopes (·.bind scope name v constant)) := by
  rw [declareIn, m.scopes.refuses_lenient]
  rfl

/-! ## Frames given back -/

/-- An outcome with a frame given back. -/
def giveBack (f : Frame) : EStateM.Result Halt Machine α → EStateM.Result Halt Machine α
  | .ok a n => .ok a { n with frame := f }
  | .error halt n => .error halt { n with frame := f }

theorem withFrame_run (f : Frame) (x : Run α) (m : Machine) :
    withFrame f x m = giveBack m.frame (x { m with frame := f }) := by
  unfold withFrame giveBack
  cases x { m with frame := f } <;> rfl

theorem within_run (scope : ScopeId) (x : Run α) (m : Machine) :
    within scope x m = giveBack m.frame (x { m with frame := ⟨scope, m.frame.depth⟩ }) :=
  withFrame_run _ x m

theorem inCall_run (scope : ScopeId) (x : Run α) (m : Machine) :
    inCall scope x m = giveBack m.frame (x { m with frame := ⟨scope, m.frame.depth + 1⟩ }) :=
  withFrame_run _ x m

theorem within_eq_ok {scope : ScopeId} {x : Run α} {m k : Machine} {a : α} (h : within scope x m = .ok a k) :
    ∃ l, x { m with frame := ⟨scope, m.frame.depth⟩ } = .ok a l ∧ k = { l with frame := m.frame } := by
  rw [within_run] at h
  cases run : x { m with frame := ⟨scope, m.frame.depth⟩ } with
  | ok b l =>
    rw [run] at h
    cases h
    exact ⟨l, rfl, rfl⟩
  | error halt l =>
    rw [run] at h
    cases h

end ScriptLang.Run
