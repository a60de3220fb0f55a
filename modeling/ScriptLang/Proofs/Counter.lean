/-
# ScriptLang.Proofs.Counter — the counter of a loop is out of reach of its body.

A counter loop keeps its number outside all scopes.  Each pass has a new scope, in which the number is bound to
the counter's name before the condition is evaluated, and bound again before the iterator is, after the body.
So the numbers come from the header alone: if the condition and the iterator compute with the counter and with
literals only, two loops with one header count alike, whatever their bodies do to the name, and stop after as
many passes, as long as no pass fails or is left.
-/
import ScriptLang.Proofs.Flow.Returns
import ScriptLang.Proofs.Isolation
import ScriptLang.Proofs.Scope.Lookup
import ScriptLang.Proofs.Syntax.Spelling

namespace ScriptLang

/-! ## Passes -/

/-- The machine with the counter of a pass bound again, in the scope of the pass. -/
def Machine.pinned (m : Machine) (loop : ForLoop) (scope : ScopeId) (counter : Float) : Machine :=
  m.mapScopes (·.bind scope loop.counter.name (.number counter) false)

/-- A pass of a counter loop that completes, from the machine `m`: the condition holds, which leaves the machine
`checked`, the body ends with a value on the machine `done`, and in the scope of the pass, with the counter bound
to its number again, the iterator comes to the number `next` on the machine `stepped`. -/
structure CounterPass (n : Nat) (loop : ForLoop) (strict : Bool) (m : Machine) (counter : Float)
    (checked done : Machine) (next : Float) (stepped : Machine) : Prop where
  condition : Eval.holds (.bounded n) loop.condition strict (m.inPass loop counter) = .ok true checked
  body : ∃ v, evalBlock n loop.body strict checked = .ok (.value v) done
  step : evalExpression n (Eval.stepExpression loop.iterator) strict (done.pinned loop m.scopes.size counter) =
    .ok (.number next) stepped

/-- `Counts n loop strict m k c mk`: the loop, run from the machine `m`, comes to the pass with the number `k`,
which begins with the counter `c` on the machine `mk`.  All passes before it have completed. -/
inductive Counts (n : Nat) (loop : ForLoop) (strict : Bool) (m : Machine) : Nat → Float → Machine → Prop
  | start {c : Float} {mk : Machine} : Eval.startNumber (.bounded n) loop.counter.value strict m = .ok c mk →
    Counts n loop strict m 0 c mk
  | next {k : Nat} {c next : Float} {mk checked done stepped : Machine} : Counts n loop strict m k c mk →
    CounterPass n loop strict mk c checked done next stepped →
    Counts n loop strict m (k + 1) next { stepped with frame := mk.frame }

/-- The loop begins, and every pass that it comes to either completes or is not made, since its condition
fails. -/
structure CountsOn (n : Nat) (loop : ForLoop) (strict : Bool) (m : Machine) : Prop where
  begins : ∃ c mk, Counts n loop strict m 0 c mk
  completes : ∀ k c mk, Counts n loop strict m k c mk →
    (∃ ended, Eval.holds (.bounded n) loop.condition strict (mk.inPass loop c) = .ok false ended) ∨
      ∃ checked done next stepped, CounterPass n loop strict mk c checked done next stepped

/-! ## Headers that compute with the counter only -/

/-- Does an expression use only the variable `name`, numbers, texts and operators? -/
def Expr.isCounting (name : String) : Expr → Bool
  | .identifier _ x => x = name
  | .number _ _ | .string _ _ => true
  | .binary _ left _ right => left.isCounting name && right.isCounting name
  | _ => false

/-- What such an expression comes to where the variable is bound to the number `c`. -/
def Expr.counted (strict : Bool) (c : Float) : Expr → Except RuntimeFault Value
  | .number _ x => .ok (.number x)
  | .string _ text => .ok (.string text)
  | .binary _ left operator right => do
    let v ← left.counted strict c
    let w ← right.counted strict c
    operator.apply strict v w
  | _ => .ok (.number c)

/-- The header of a loop computes with its counter only. -/
structure ForLoop.CountsAlone (loop : ForLoop) : Prop where
  condition : loop.condition.isCounting loop.counter.name
  step : (Eval.stepExpression loop.iterator).isCounting loop.counter.name

namespace Eval

open Run

variable {n : Nat} {loop : ForLoop} {strict : Bool} {m k : Machine} {c : Float}

/-- An expression that computes with the counter changes nothing, and its value depends on the counter only. -/
theorem evaluated_counting {name : String} {e : Expr} {v : Value} (counting : e.isCounting name)
    (bound : m.scopes.value m.frame.scope name = .ok (.number c)) (h : evalExpression n e strict m = .ok v k) :
    e.counted strict c = .ok v ∧ k = m := by
  induction e using Expr.isCounting.induct generalizing n v k with
  | case1 span x =>
    cases n with
    | zero => cases h
    | succ n =>
      obtain rfl : x = name := by simpa [Expr.isCounting] using counting
      obtain ⟨found, same⟩ := lookup_eq_ok.1 h
      rw [bound] at found
      exact ⟨found, same⟩
  | case2 span x | case3 span text =>
    cases n with
    | zero => cases h
    | succ n =>
      cases h
      exact ⟨rfl, rfl⟩
  | case4 span left operator right ihl ihr =>
    simp only [Expr.isCounting, Bool.and_eq_true] at counting
    cases n with
    | zero => cases h
    | succ n =>
      obtain ⟨v₁, m₁, first, h₁⟩ := bind_eq_ok.1 h
      obtain ⟨counted₁, rfl⟩ := ihl counting.1 first
      obtain ⟨v₂, m₂, second, h₂⟩ := bind_eq_ok.1 h₁
      obtain ⟨counted₂, rfl⟩ := ihr counting.2 second
      obtain ⟨applied, same⟩ := settle_eq_ok.1 h₂
      refine ⟨?_, same⟩
      rw [Expr.counted, counted₁, counted₂]
      exact applied
  | case5 e => simp_all [Expr.isCounting]

theorem holds_counting {name : String} {e : Expr} {b : Bool} (counting : e.isCounting name)
    (bound : m.scopes.value m.frame.scope name = .ok (.number c)) (h : holds (.bounded n) e strict m = .ok b k) :
    (e.counted strict c).map Value.isTruthy = .ok b ∧ k = m := by
  obtain ⟨v, l, evaluated, truth⟩ := bind_eq_ok.1 h
  obtain ⟨counted, rfl⟩ := evaluated_counting counting bound evaluated
  cases truth
  exact ⟨by rw [counted]; rfl, rfl⟩

/-! ## Passes and the run of a loop -/

/-- In the scope of a new pass the counter is bound to its number. -/
theorem value_inPass (m : Machine) (loop : ForLoop) (c : Float) :
    (m.inPass loop c).scopes.value m.scopes.size loop.counter.name = .ok (.number c) := by
  have there : m.scopes.size < (m.scopes.push (some m.frame.scope)).size := by simp
  exact Scopes.value_of_own (Scopes.ownValue?_bind_self there _ _ _)

theorem size_inPass (m : Machine) (loop : ForLoop) (c : Float) :
    (m.inPass loop c).scopes.size = m.scopes.size + 1 := by
  simp [Machine.inPass, Machine.withPass, Machine.mapScopes]

/-- The condition and the body of a pass give its frame back, and take no scope away. -/
theorem forPass_keeps {flow : Flow} (h : forPass (.bounded n) loop strict (m.inPass loop c) = .ok flow k) :
    k.frame = ⟨m.scopes.size, m.frame.depth⟩ ∧ m.scopes.size < k.scopes.size := by
  have stays : (forPass (.bounded n) loop strict).Stays 0 m.scopes.size _ :=
    forPass_stays (Evaluator.bounded_stays 0 n) loop (List.subset_append_left _ _)
      (List.subset_append_right _ _) strict
  obtain ⟨frame, path⟩ := stays.of_ok h rfl (Nat.zero_le _)
  have size := path.size_le
  rw [size_inPass] at size
  exact ⟨frame, size⟩

/-- The step of a counter is the iterator's value in the scope of the pass, with the counter bound again. -/
theorem stepCounter_eq_ok {scope : ScopeId} {f : Frame} {next : Float} {after : Machine}
    (stands : k.frame = ⟨scope, f.depth⟩) :
    stepCounter (.bounded n) loop scope c strict { k with frame := f } = .ok next after ↔
      ∃ stepped, evalExpression n (stepExpression loop.iterator) strict (k.pinned loop scope c) =
        .ok (.number next) stepped ∧ after = { stepped with frame := f } := by
  have inside : ({ k.pinned loop scope c with frame := ⟨scope, f.depth⟩ } : Machine) = k.pinned loop scope c := by
    rw [← stands]
    rfl
  rw [stepCounter, bind_of_ok (declareIn_lenient _ _ _ _ _ _), bind_eq_ok]
  constructor
  · rintro ⟨v, l, stepped, h⟩
    obtain ⟨l, evaluated, rfl⟩ := within_eq_ok stepped
    cases v with
    | number x =>
      cases h
      exact ⟨l, inside ▸ evaluated, rfl⟩
    | _ => cases h
  · rintro ⟨stepped, evaluated, rfl⟩
    refine ⟨.number next, { stepped with frame := f }, ?_, rfl⟩
    rw [within_run]
    exact congrArg (giveBack f) (inside.symm ▸ evaluated)

end Eval

namespace CounterPass

variable {n : Nat} {loop : ForLoop} {strict : Bool} {m checked done stepped : Machine} {c next : Float}

theorem body_ends (pass : CounterPass n loop strict m c checked done next stepped) :
    ∃ v, Eval.forPass (.bounded n) loop strict (m.inPass loop c) = .ok (.value v) done := by
  obtain ⟨v, ended⟩ := pass.body
  refine ⟨v, ?_⟩
  rw [Eval.forPass, Run.bind_of_ok pass.condition]
  exact ended

theorem steps (pass : CounterPass n loop strict m c checked done next stepped) :
    Eval.stepCounter (.bounded n) loop m.scopes.size c strict { done with frame := m.frame } =
      .ok next { stepped with frame := m.frame } := by
  obtain ⟨v, ended⟩ := pass.body_ends
  exact (Eval.stepCounter_eq_ok (Eval.forPass_keeps ended).1).2 ⟨stepped, pass.step, rfl⟩

/-- What a counter loop does between the beginnings of two passes is a pass that completes. -/
theorem of_run {v : Value} {after : Machine}
    (ended : Eval.forPass (.bounded n) loop strict (m.inPass loop c) = .ok (.value v) done)
    (step : Eval.stepCounter (.bounded n) loop m.scopes.size c strict { done with frame := m.frame } =
      .ok next after) :
    ∃ checked stepped, CounterPass n loop strict m c checked done next stepped ∧
      after = { stepped with frame := m.frame } := by
  obtain ⟨stepped, evaluated, rfl⟩ := (Eval.stepCounter_eq_ok (Eval.forPass_keeps ended).1).1 step
  obtain ⟨b, checked, condition, body⟩ := Run.bind_eq_ok.1 ended
  cases b with
  | true => exact ⟨checked, stepped, ⟨condition, ⟨v, body⟩, evaluated⟩, rfl⟩
  | false => cases body

theorem size_lt (pass : CounterPass n loop strict m c checked done next stepped) :
    m.scopes.size < stepped.scopes.size := by
  obtain ⟨v, ended⟩ := pass.body_ends
  have before := (Eval.forPass_keeps ended).2
  have stays : Run.Stays 0 (done.pinned loop m.scopes.size c).frame.scope _
      ((Evaluator.bounded n).expression (Eval.stepExpression loop.iterator) strict) :=
    (Evaluator.bounded_stays 0 n).expression strict (List.Subset.refl _)
  have after := (stays.of_ok pass.step rfl (Nat.zero_le _)).2.size_le
  simp only [Machine.pinned, Machine.mapScopes, Scopes.size_bind] at after
  omega

/-- A pass can go on in one way only. -/
theorem unique {checked' done' stepped' : Machine} {next' : Float}
    (pass : CounterPass n loop strict m c checked done next stepped)
    (other : CounterPass n loop strict m c checked' done' next' stepped') :
    next = next' ∧ stepped = stepped' := by
  obtain ⟨v, body⟩ := pass.body
  obtain ⟨v', body'⟩ := other.body
  obtain ⟨-, rfl⟩ := EStateM.Result.ok.inj (pass.condition.symm.trans other.condition)
  obtain ⟨-, rfl⟩ := EStateM.Result.ok.inj (body.symm.trans body')
  obtain ⟨same, machines⟩ := EStateM.Result.ok.inj (pass.step.symm.trans other.step)
  exact ⟨Value.number.inj same, machines⟩

/-- The iterator is evaluated in the scope of the pass, where the counter is bound to its number. -/
theorem pinned (pass : CounterPass n loop strict m c checked done next stepped) :
    done.frame = ⟨m.scopes.size, m.frame.depth⟩ ∧
      (done.pinned loop m.scopes.size c).scopes.value done.frame.scope loop.counter.name = .ok (.number c) := by
  obtain ⟨v, ended⟩ := pass.body_ends
  obtain ⟨frame, there⟩ := Eval.forPass_keeps ended
  refine ⟨frame, ?_⟩
  rw [frame]
  exact Scopes.value_of_own (Scopes.ownValue?_bind_self there _ _ _)

/-- A pass whose header computes with the counter only: its condition changes nothing, its iterator comes to a
number that depends on the counter only, and leaves the counter bound. -/
theorem counted (pass : CounterPass n loop strict m c checked done next stepped) (alone : loop.CountsAlone) :
    (loop.condition.counted strict c).map Value.isTruthy = .ok true ∧ checked = m.inPass loop c ∧
      (Eval.stepExpression loop.iterator).counted strict c = .ok (.number next) ∧
      stepped = done.pinned loop m.scopes.size c := by
  obtain ⟨truth, same⟩ := Eval.holds_counting alone.condition (Eval.value_inPass m loop c) pass.condition
  obtain ⟨number, unchanged⟩ := Eval.evaluated_counting alone.step pass.pinned.2 pass.step
  exact ⟨truth, same, number, unchanged⟩

end CounterPass

namespace Counts

variable {n : Nat} {loop : ForLoop} {strict : Bool} {m mk : Machine} {k : Nat} {c : Float}

theorem frame (h : Counts n loop strict m k c mk) : mk.frame = m.frame := by
  induction h with
  | start started =>
    exact (Eval.startNumber_orderly (Evaluator.bounded_orderly n) _ strict).frame_of_value started
  | next _ _ ih => exact ih

theorem size_le (h : Counts n loop strict m k c mk) : m.scopes.size ≤ mk.scopes.size := by
  induction h with
  | start started =>
    have stays : (Eval.startNumber (.bounded n) loop.counter.value strict).Stays 0 m.frame.scope _ :=
      Eval.startNumber_stays (Evaluator.bounded_stays 0 n) (List.Subset.refl _) strict
    exact (stays.of_ok started rfl (Nat.zero_le _)).2.size_le
  | next _ pass ih => exact Nat.le_trans ih (Nat.le_of_lt pass.size_lt)

/-- From the machine on which a pass begins, the loop goes on with this pass. -/
theorem run (h : Counts n loop strict m k c mk) (span : Span) (within : k ≤ n) :
    Eval.forLoop (.bounded n) loop strict span m =
      Eval.forPasses (.bounded n) loop strict span (n - k) c mk := by
  induction h with
  | start started =>
    rw [Eval.forLoop, Run.bind_of_ok started]
    rfl
  | @next k c next mk checked done stepped _ pass ih =>
    obtain ⟨v, ended⟩ := pass.body_ends
    have left : n - k = n - (k + 1) + 1 := by omega
    rw [ih (Nat.le_of_succ_le within), left]
    exact Eval.forPasses_next ended pass.steps

theorem unique {c' : Float} {mk' : Machine} (h : Counts n loop strict m k c mk)
    (h' : Counts n loop strict m k c' mk') : c = c' ∧ mk = mk' := by
  induction h generalizing c' mk' with
  | start started =>
    cases h' with
    | start started' => exact EStateM.Result.ok.inj (started.symm.trans started')
  | next _ pass ih =>
    cases h' with
    | next earlier pass' =>
      obtain ⟨rfl, rfl⟩ := ih earlier
      obtain ⟨rfl, rfl⟩ := pass.unique pass'
      exact ⟨rfl, rfl⟩

theorem earlier (h : Counts n loop strict m k c mk) {j : Nat} (le : j ≤ k) :
    ∃ cj mj, Counts n loop strict m j cj mj := by
  induction h with
  | start started =>
    obtain rfl : j = 0 := Nat.le_zero.1 le
    exact ⟨_, _, .start started⟩
  | @next k c next mk checked done stepped before pass ih =>
    rcases Nat.lt_or_eq_of_le le with lt | rfl
    · exact ih (Nat.le_of_lt_succ lt)
    · exact ⟨_, _, .next before pass⟩

/-- A later pass begins with more scopes. -/
theorem size_lt (h : Counts n loop strict m k c mk) {j : Nat} {cj : Float} {mj : Machine} (lt : j < k)
    (hj : Counts n loop strict m j cj mj) : mj.scopes.size < mk.scopes.size := by
  induction h with
  | start _ => exact absurd lt (Nat.not_lt_zero j)
  | @next k c next mk checked done stepped before pass ih =>
    rcases Nat.lt_or_eq_of_le (Nat.le_of_lt_succ lt) with lt | rfl
    · exact Nat.lt_trans (ih lt) pass.size_lt
    · obtain ⟨-, rfl⟩ := hj.unique before
      exact pass.size_lt

/-- A loop that ends does so in one of its passes, after those before it have completed. -/
theorem exists_last {passes : Nat} {span : Span} {flow : Flow} {after : Machine}
    (h : Counts n loop strict m k c mk)
    (ran : Eval.forPasses (.bounded n) loop strict span passes c mk = .ok flow after) :
    ∃ j cj mj ended l, j < k + passes ∧ Counts n loop strict m j cj mj ∧
      Eval.forPass (.bounded n) loop strict (mj.inPass loop cj) = .ok ended l ∧ ∀ v, ended ≠ .value v := by
  induction passes generalizing k c mk with
  | zero => cases ran
  | succ passes ih =>
    rw [Eval.forPasses_succ] at ran
    obtain ⟨ended, l, pass, rest⟩ := Run.bind_eq_ok.1 ran
    obtain ⟨done, body, rfl⟩ := Run.within_eq_ok pass
    change Eval.forPass _ loop strict (mk.inPass loop c) = _ at body
    cases ended with
    | leave | give v => exact ⟨k, c, mk, _, done, by omega, h, body, nofun⟩
    | value v =>
      obtain ⟨next, l, stepped, rest⟩ := Run.bind_eq_ok.1 rest
      obtain ⟨checked, stepped, complete, rfl⟩ := CounterPass.of_run body stepped
      obtain ⟨j, cj, mj, ended, l, lt, counts, last⟩ := ih (.next h complete) rest
      exact ⟨j, cj, mj, ended, l, by omega, counts, last⟩

/-- If a counter comes back in a later pass, so do those after it. -/
theorem repeats (alone : loop.CountsAlone) {j : Nat} {mj : Machine} (hj : Counts n loop strict m j c mj)
    (hk : Counts n loop strict m k c mk) (t : Nat) {a b : Float} {ma mb : Machine}
    (ha : Counts n loop strict m (j + t) a ma) (hb : Counts n loop strict m (k + t) b mb) : a = b := by
  induction t generalizing a b ma mb with
  | zero => exact (ha.unique hj).1.trans (hk.unique hb).1
  | succ t ih =>
    cases ha with
    | next beforeA passA =>
      cases hb with
      | next beforeB passB =>
        obtain rfl := ih beforeA beforeB
        have same := (passA.counted alone).2.2.1.symm.trans (passB.counted alone).2.2.1
        exact Value.number.inj (Except.ok.inj same)

/-- A loop that counts alone and ends has no counter twice. -/
theorem ne_of_lt (alone : loop.CountsAlone) (h : Counts n loop strict m k c mk) {ended : Machine}
    (ends : Eval.holds (.bounded n) loop.condition strict (mk.inPass loop c) = .ok false ended) {i j : Nat}
    {ci cj : Float} {mi mj : Machine} (lt : i < j) (le : j ≤ k) (hi : Counts n loop strict m i ci mi)
    (hj : Counts n loop strict m j cj mj) : ci ≠ cj := by
  rintro rfl
  obtain ⟨t, rfl⟩ := Nat.exists_eq_add_of_le le
  -- as many passes after the first of the two the counter is the one with which the loop ends
  obtain ⟨b, mb, hb⟩ := h.earlier (j := i + t + 1) (by omega)
  cases hb with
  | @next _ a _ ma _ _ _ before pass =>
    obtain rfl : a = c := repeats alone hi hj t before h
    have goes := (pass.counted alone).1
    have stops := (Eval.holds_counting alone.condition (Eval.value_inPass mk loop a) ends).1
    rw [goes] at stops
    cases stops

/-- A loop that is read begins at its numeral. -/
theorem start_iff {span : Span} {c₀ : Float} (numeral : loop.counter.value = some (.number span c₀)) :
    Counts (n + 1) loop strict m 0 c mk ↔ c = c₀ ∧ mk = m := by
  have started : Eval.startNumber (.bounded (n + 1)) loop.counter.value strict m = .ok c₀ m := by
    rw [numeral]
    rfl
  constructor
  · intro h
    exact h.unique (.start started)
  · rintro ⟨rfl, rfl⟩
    exact .start started

theorem bound_pos {span : Span} {c₀ : Float} (numeral : loop.counter.value = some (.number span c₀))
    (h : Counts n loop strict m 0 c mk) : ∃ n', n = n' + 1 := by
  cases n with
  | succ n' => exact ⟨n', rfl⟩
  | zero =>
    cases h with
    | start started =>
      rw [numeral] at started
      cases started

/-- Two loops with one header, which computes with the counter only: where the one comes to a pass with some
counter, so does the other, if its passes complete. -/
theorem transfer (alone : loop.CountsAlone) {span : Span} {c₀ : Float}
    (numeral : loop.counter.value = some (.number span c₀)) {body body' : List Stmt} {n' : Nat} {m' : Machine}
    (h : Counts n { loop with body := body } strict m k c mk)
    (other : CountsOn n' { loop with body := body' } strict m') :
    ∃ mk', Counts n' { loop with body := body' } strict m' k c mk' := by
  have alike : ({ loop with body := body } : ForLoop).CountsAlone := ⟨alone.condition, alone.step⟩
  have alike' : ({ loop with body := body' } : ForLoop).CountsAlone := ⟨alone.condition, alone.step⟩
  have numeral' : ({ loop with body := body' } : ForLoop).counter.value = some (.number span c₀) := numeral
  induction h with
  | @start c mk started =>
    obtain ⟨c', mk', first⟩ := other.begins
    obtain ⟨n, rfl⟩ := bound_pos numeral (.start started)
    obtain ⟨n', rfl⟩ := bound_pos numeral' first
    obtain ⟨rfl, -⟩ := (start_iff numeral).1 (.start started)
    obtain ⟨rfl, -⟩ := (start_iff numeral').1 first
    exact ⟨mk', first⟩
  | @next k c next mk checked done stepped _ pass ih =>
    obtain ⟨mk', there⟩ := ih
    obtain ⟨goes, -, number, -⟩ := pass.counted alike
    rcases other.completes k c mk' there with ⟨ended, fails⟩ | ⟨_, _, next', _, pass'⟩
    · -- the condition depends on the counter only, and the one loop went on
      have stops := (Eval.holds_counting alike'.condition (Eval.value_inPass mk' _ c) fails).1
      change (loop.condition.counted strict c).map Value.isTruthy = _ at goes stops
      rw [goes] at stops
      cases stops
    · have number' := (pass'.counted alike').2.2.1
      change (Eval.stepExpression loop.iterator).counted strict c = _ at number number'
      obtain rfl := Value.number.inj (Except.ok.inj (number.symm.trans number'))
      exact ⟨_, .next there pass'⟩

end Counts

/-! ## The counter is out of reach -/

theorem ForLoop.numeral_of_isWellFormed {loop : ForLoop} (h : loop.isWellFormed) :
    ∃ span c₀, loop.counter.value = some (.number span c₀) := by
  obtain ⟨counter, condition, iterator, body⟩ := loop
  simp only [isWellFormed, Bool.and_eq_true] at h
  obtain ⟨⟨⟨⟨⟨-, starts⟩, -⟩, -⟩, -⟩, -⟩ := h
  unfold Grammar.startsAtNumber at starts
  split at starts
  · next span c₀ numeral => exact ⟨span, c₀, numeral⟩
  · cases starts

/-- For a loop that is read, in every state and mode:

The first counter is the numeral.  Each pass has a new scope, other than those of all earlier passes, in which
the counter is bound to its number when the condition is evaluated, and again, in this scope, when the iterator
is.  The whole loop comes to what comes of this pass and the ones that follow.  A loop that ends does so in a
pass that it comes to in this way.

If the header computes with the counter only, then each body begins with the counter bound to its number, the
scope of each completed pass is left with the counter bound to that number again, loops with other bodies, from
other states, come to the same passes with the same counters as long as their passes complete, and in a loop
that ends no two passes have the same counter. -/
theorem counter_out_of_reach {loop : ForLoop} (read : loop.isWellFormed) (strict : Bool) :
    (∃ span c₀, loop.counter.value = some (.number span c₀) ∧
      ∀ n m c mk, Counts (n + 1) loop strict m 0 c mk ↔ c = c₀ ∧ mk = m) ∧
    (∀ n m k c mk, Counts n loop strict m k c mk →
      mk.frame = m.frame ∧ m.scopes.size ≤ mk.scopes.size ∧
      (mk.inPass loop c).scopes.value mk.scopes.size loop.counter.name = .ok (.number c) ∧
      (∀ j cj mj, j < k → Counts n loop strict m j cj mj → mj.scopes.size < mk.scopes.size) ∧
      (∀ checked done next stepped, CounterPass n loop strict mk c checked done next stepped →
        done.frame = ⟨mk.scopes.size, mk.frame.depth⟩ ∧
        (done.pinned loop mk.scopes.size c).scopes.value done.frame.scope loop.counter.name = .ok (.number c)) ∧
      ∀ span, k < n → Eval.forLoop (.bounded n) loop strict span m =
        (Run.within mk.scopes.size (Eval.forPass (.bounded n) loop strict) >>=
          Eval.afterPass (.bounded n) loop strict span (n - (k + 1)) mk.scopes.size c) (mk.withPass loop c)) ∧
    (∀ n m span flow after, Eval.forLoop (.bounded n) loop strict span m = .ok flow after →
      ∃ k c mk ended l, k < n ∧ Counts n loop strict m k c mk ∧
        Eval.forPass (.bounded n) loop strict (mk.inPass loop c) = .ok ended l ∧ ∀ v, ended ≠ .value v) ∧
    (loop.CountsAlone →
      (∀ n m k c mk checked done next stepped, Counts n loop strict m k c mk →
        CounterPass n loop strict mk c checked done next stepped →
        checked.scopes.value checked.frame.scope loop.counter.name = .ok (.number c) ∧
        stepped.scopes.ownValue? mk.scopes.size loop.counter.name = some (.number c)) ∧
      (∀ body body' n n' m m', CountsOn n { loop with body := body } strict m →
        CountsOn n' { loop with body := body' } strict m' → ∀ k c,
          (∃ mk, Counts n { loop with body := body } strict m k c mk) ↔
            ∃ mk, Counts n' { loop with body := body' } strict m' k c mk) ∧
      (∀ n m k c mk ended, Counts n loop strict m k c mk →
        Eval.holds (.bounded n) loop.condition strict (mk.inPass loop c) = .ok false ended →
        ∀ i j ci cj mi mj, i < j → j ≤ k → Counts n loop strict m i ci mi → Counts n loop strict m j cj mj →
          ci ≠ cj)) := by
  obtain ⟨numeralSpan, c₀, numeral⟩ := ForLoop.numeral_of_isWellFormed read
  refine ⟨⟨numeralSpan, c₀, numeral, fun n m c mk => Counts.start_iff numeral⟩, ?_, ?_, ?_⟩
  · intro n m k c mk h
    refine ⟨h.frame, h.size_le, Eval.value_inPass mk loop c, fun j cj mj lt hj => h.size_lt lt hj,
      fun _ _ _ _ pass => pass.pinned, ?_⟩
    intro span lt
    have left : n - k = n - (k + 1) + 1 := by omega
    rw [h.run span (Nat.le_of_lt lt), left, Eval.forPasses_succ]
  · intro n m span flow after ran
    obtain ⟨c, mk, started, rest⟩ := Run.bind_eq_ok.1 ran
    obtain ⟨k, ck, mk, ended, l, lt, counts, last⟩ := (Counts.start started).exists_last rest
    exact ⟨k, ck, mk, ended, l, by simpa [Evaluator.bounded] using lt, counts, last⟩
  · intro alone
    refine ⟨?_, ?_, ?_⟩
    · intro n m k c mk checked done next stepped h pass
      obtain ⟨v, ended⟩ := pass.body_ends
      obtain ⟨-, rfl, -, rfl⟩ := pass.counted alone
      refine ⟨Eval.value_inPass mk loop c, ?_⟩
      exact Scopes.ownValue?_bind_self (Eval.forPass_keeps ended).2 _ _ _
    · intro body body' n n' m m' on on' k c
      constructor
      · rintro ⟨mk, h⟩
        exact h.transfer alone numeral on'
      · rintro ⟨mk, h⟩
        exact h.transfer alone numeral on
    · intro n m k c mk ended h ends i j ci cj mi mj lt le hi hj
      exact h.ne_of_lt alone ends lt le hi hj

/-- The loop `for (let i = 1; i; i = 0)`, which makes one pass. -/
def oncePassing (body : List Stmt) : ForLoop :=
  let here : Span := ⟨1, 1, 1⟩
  ⟨⟨"i", false, some (.number here 1.0), none⟩, .identifier here "i",
    .assign here (.identifier here "i") (.number here 0.0), body⟩

/-- The body `const i = 7`. -/
def redeclaringBody : List Stmt :=
  [.variableDeclaration ⟨2, 1, 5⟩ ⟨"i", true, some (.number ⟨2, 11, 1⟩ 7.0), none⟩]

/-- The loop counts on if its body ends in the one pass. -/
theorem oncePassing_countsOn {body : List Stmt} {v : Value} {done : Machine}
    (ended : evalBlock 3 body false ((Machine.blank .live).inPass (oncePassing body) 1.0) = .ok (.value v) done) :
    CountsOn 3 (oncePassing body) false (.blank .live) := by
  have holds (m : Machine) (c : Float) : Eval.holds (.bounded 3) (oncePassing body).condition false
      (m.inPass (oncePassing body) c) = .ok (c != 0.0) (m.inPass (oncePassing body) c) :=
    Run.bind_of_ok (Run.lookup_eq_ok.2 ⟨Eval.value_inPass m (oncePassing body) c, rfl⟩)
  have begins : Counts 3 (oncePassing body) false (.blank .live) 0 1.0 (.blank .live) := .start rfl
  have first : CounterPass 3 (oncePassing body) false (.blank .live) 1.0 _ done 0.0
      (done.pinned (oncePassing body) 1 1.0) := ⟨holds _ _, ⟨v, ended⟩, rfl⟩
  refine ⟨⟨1.0, _, begins⟩, fun k c mk h => ?_⟩
  match k with
  | 0 =>
    obtain ⟨rfl, rfl⟩ := h.unique begins
    exact .inr ⟨_, _, _, _, first⟩
  | 1 =>
    obtain ⟨rfl, rfl⟩ := h.unique (.next begins first)
    exact .inl ⟨_, holds _ _⟩
  | k + 2 =>
    -- the second pass is not made
    obtain ⟨c₂, m₂, second⟩ := h.earlier (j := 2) (by omega)
    cases second with
    | next before pass =>
      obtain ⟨rfl, rfl⟩ := before.unique (.next begins first)
      have goes := pass.condition
      rw [holds] at goes
      cases (EStateM.Result.ok.inj goes).1

theorem redeclaring_body_counts_alike :
    (oncePassing []).isWellFormed ∧ (oncePassing []).CountsAlone ∧
      CountsOn 3 (oncePassing []) false (.blank .live) ∧
      CountsOn 3 (oncePassing redeclaringBody) false (.blank .live) ∧
      ∀ k c, (∃ mk, Counts 3 (oncePassing []) false (.blank .live) k c mk) ↔
        ∃ mk, Counts 3 (oncePassing redeclaringBody) false (.blank .live) k c mk := by
  have read : (oncePassing []).isWellFormed := by decide
  have alone : (oncePassing []).CountsAlone := ⟨rfl, rfl⟩
  have on : CountsOn 3 (oncePassing []) false (.blank .live) := oncePassing_countsOn rfl
  have on' : CountsOn 3 (oncePassing redeclaringBody) false (.blank .live) := oncePassing_countsOn rfl
  obtain ⟨-, -, -, undisturbed⟩ := counter_out_of_reach read false
  obtain ⟨-, alike, -⟩ := undisturbed alone
  exact ⟨read, alone, on, on', alike [] redeclaringBody 3 3 _ _ on on'⟩

end ScriptLang
