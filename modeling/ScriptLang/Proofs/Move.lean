/-
# ScriptLang.Proofs.Move — what happens to a machine between two points of an evaluation.

From one point of a text the evaluation comes to the next by moves of the machine.  A part of the text is run, which
gives the frame back; or the machine enters a new scope inside the present one, declares a name in the present scope,
or begins a pass there.  So what each move keeps, holds at every point to which an evaluation comes.
-/
import ScriptLang.Proofs.Point

namespace ScriptLang

namespace Machine

/-- A move of a machine that declares some of the names `names` in its present scope, if any.  A run is one that does
so whatever scopes there are. -/
inductive Move (names : List String) : Machine → Machine → Prop
  | run {α : Type} {x : Run α} {a : α} {m k : Machine} (stays : ∀ base, x.Stays base m.frame.scope names)
    (ran : x m = .ok a k) : Move names m k
  | enter (m : Machine) : Move names m m.entered
  | declare (m : Machine) {name : String} (mem : name ∈ names) (v : Value) (constant : Bool) :
    Move names m (m.mapScopes (·.bind m.frame.scope name v constant))
  | beginPass (m : Machine) : Move names m (m.mapScopes (·.beginPass m.frame.scope))

/-- Any number of moves. -/
abbrev Moves (names : List String) : Machine → Machine → Prop := Relation.ReflTransGen (Move names)

variable {names names' : List String} {m k : Machine}

theorem Move.mono (h : Move names m k) (sub : names ⊆ names') : Move names' m k := by
  cases h with
  | run stays ran => exact .run (fun base => (stays base).mono sub) ran
  | enter => exact .enter m
  | declare _ mem v constant => exact .declare m (sub mem) v constant
  | beginPass => exact .beginPass m

theorem Moves.mono (h : Moves names m k) (sub : names ⊆ names') : Moves names' m k :=
  Relation.ReflTransGen.mono (fun _ _ move => Move.mono move sub) _ _ h

/-! ## Parts of a text -/

variable {n : Nat} {strict : Bool}

theorem Moves.expression {e : Expr} {v : Value} (ran : evalExpression n e strict m = .ok v k) :
    Moves e.declared m k :=
  .single (.run (fun base => (Evaluator.bounded_stays base n).expression strict (List.Subset.refl _)) ran)

theorem Moves.expressions {es : List Expr} {vs : List Value}
    (ran : Eval.expressions (.bounded n) es strict m = .ok vs k) : Moves (declaredInExprs es) m k :=
  .single (.run (fun base =>
    Eval.expressions_stays (Evaluator.bounded_stays base n) (List.Subset.refl _) strict) ran)

theorem Moves.holds {condition : Expr} {b : Bool} (ran : Eval.holds (.bounded n) condition strict m = .ok b k) :
    Moves condition.declared m k :=
  .single (.run (fun base => Eval.holds_stays (Evaluator.bounded_stays base n) (List.Subset.refl _) strict) ran)

theorem Moves.block {body : List Stmt} {flow : Flow} (ran : evalBlock n body strict m = .ok flow k) :
    Moves (boundInBlock body) m k :=
  .single (.run (fun base =>
    (Evaluator.bounded_stays base n).block strict (declaredInBlock_subset_bound body)) ran)

theorem Moves.statement {s : Stmt} {flow : Flow} (ran : Eval.statement (.bounded n) s strict m = .ok flow k) :
    Moves s.bound m k :=
  have stays base := Eval.statement_stays (Evaluator.bounded_stays base n) s.declared_subset_bound strict
  .single (.run stays ran)

/-- A loop begins a pass in a new scope, where it declares its counter. -/
theorem Moves.inPass (m : Machine) (loop : ForLoop) (c : Float) :
    Moves [loop.counter.name] m (m.inPass loop c) :=
  .tail (.single (.enter m))
    (.declare m.entered (List.mem_singleton_self _) (.number c) loop.counter.constant)

end Machine

open Machine (Moves Move)

variable {n : Nat} {strict : Bool} {m k : Machine}

/-- After the body of a `while` loop its scope is used for another pass. -/
theorem Machine.Moves.anotherPass {body : List Stmt} {flow : Flow} (ran : evalBlock n body strict m = .ok flow k) :
    Moves (boundInBlock body) m (k.mapScopes (·.beginPass m.frame.scope)) := by
  have stays : ((Evaluator.bounded n).block body strict).Stays 0 m.frame.scope _ :=
    (Evaluator.bounded_stays 0 n).block strict (List.Subset.refl _)
  have frame : k.frame = m.frame := (stays.of_ok ran rfl (Nat.zero_le _)).1
  refine (Moves.block ran).tail ?_
  rw [← frame]
  exact .beginPass k

/-- The passes of a `while` loop stand in one scope inside the one around the loop. -/
theorem Pass.moves {condition : Expr} {body : List Stmt} {names : List String}
    (pass : Pass n condition body strict m names k) : Moves (condition.declared ++ boundInBlock body) m k := by
  have left := List.subset_append_left condition.declared (boundInBlock body)
  have right := List.subset_append_right condition.declared (boundInBlock body)
  induction pass with
  | first held => exact .tail ((Moves.holds held).mono left) (.enter _)
  | next _ ran held ih => exact (ih.trans ((Moves.anotherPass ran).mono right)).trans ((Moves.holds held).mono left)

/-- Between the beginnings of two passes of a counter loop lies a run, which declares in scopes of its own only. -/
theorem CounterPass.move {loop : ForLoop} {c next : Float} {checked done stepped : Machine} (names : List String)
    (pass : CounterPass n loop strict m c checked done next stepped) :
    Move names m { stepped with frame := m.frame } := by
  obtain ⟨v, ended⟩ := pass.body_ends
  let run : Run Float := do
    let scope ← Run.newScope m.frame.scope
    let _ ← Run.declareIn scope loop.counter.name (.number c) loop.counter.constant false .nowhere
    let _ ← Run.within scope (Eval.forPass (.bounded n) loop strict)
    Eval.stepCounter (.bounded n) loop scope c strict
  have ran : run m = .ok next { stepped with frame := m.frame } := by
    refine (Run.bind_of_ok rfl).trans ((Run.bind_of_ok (Run.declareIn_lenient _ _ _ _ _ _)).trans ?_)
    refine Run.bind_eq_ok.2 ⟨.value v, { done with frame := m.frame }, ?_, pass.steps⟩
    rw [Run.within_run]
    exact congrArg (Run.giveBack m.frame) ended
  refine .run (fun base => .bind_newScope _ fun scope young => ?_) ran
  have parts := Evaluator.bounded_stays base n
  have inside : (Eval.forPass (.bounded n) loop strict).Stays base scope _ :=
    Eval.forPass_stays parts loop (List.subset_append_left _ _) (List.subset_append_right _ _) strict
  refine (Run.Stays.declareIn _ _ _ _ (.inl young)).bind fun _ => (inside.within young).bind fun _ => ?_
  exact Eval.stepCounter_stays parts loop young c strict

/-- A counter loop gives the scope around it back behind each pass. -/
theorem Counts.moves {loop : ForLoop} {i : Nat} {c : Float} (counts : Counts n loop strict m i c k) :
    Moves (declaredInValue loop.counter.value) m k := by
  induction counts with
  | start started =>
    exact .single (.run (fun base =>
      Eval.startNumber_stays (Evaluator.bounded_stays base n) (List.Subset.refl _) strict) started)
  | next _ pass ih => exact ih.tail (pass.move _)

theorem ForLoop.subset_bound (loop : ForLoop) :
    [loop.counter.name] ⊆ loop.bound ∧ declaredInValue loop.counter.value ⊆ loop.bound ∧
      loop.condition.declared ⊆ loop.bound ∧ loop.iterator.declared ⊆ loop.bound ∧
      boundInBlock loop.body ⊆ loop.bound := by
  obtain ⟨counter, condition, iterator, body⟩ := loop
  simp only [ForLoop.bound]
  refine ⟨?_, ?_, ?_, ?_, ?_⟩ <;> intro x hx <;> simp_all

/-- A counter loop up to the condition of one of its passes. -/
theorem Counts.inPass_moves {loop : ForLoop} {i : Nat} {c : Float} (counts : Counts n loop strict m i c k) :
    Moves loop.bound m (k.inPass loop c) := by
  obtain ⟨name, start, -⟩ := loop.subset_bound
  exact (counts.moves.mono start).trans ((Moves.inPass k loop c).mono name)

/-- A pass of a counter loop up to its iterator, for which the counter is bound again. -/
theorem Machine.Moves.pinned {loop : ForLoop} {c : Float} {flow : Flow} {done : Machine}
    (ran : Eval.forPass (.bounded n) loop strict (k.inPass loop c) = .ok flow done) :
    Moves loop.bound (k.inPass loop c) (done.pinned loop k.scopes.size c) := by
  obtain ⟨name, -, condition, -, body⟩ := loop.subset_bound
  have stays (base : Nat) : (Eval.forPass (.bounded n) loop strict).Stays base k.scopes.size loop.bound :=
    Eval.forPass_stays (Evaluator.bounded_stays base n) loop condition
      (List.Subset.trans (declaredInBlock_subset_bound _) body) strict
  have frame : done.frame.scope = k.scopes.size := congrArg Frame.scope (Eval.forPass_keeps ran).1
  refine .tail (.single (.run stays ran)) ?_
  rw [← frame]
  exact .declare done (name List.mem_cons_self) (.number c) false

/-! ## From point to point -/

/-- What a part of an expression declares, and what those before it declare, the expression declares. -/
theorem Expr.part_declared {e part : Expr} {before rest : List Expr} (split : e.parts = before ++ part :: rest) :
    declaredInExprs before ⊆ e.declared ∧ part.declared ⊆ e.declared := by
  have within {f : Expr} (mem : f ∈ e.parts) : f.declared ⊆ e.declared :=
    fun _ declared => e.parts_declared (mem_declaredInExprs.2 ⟨f, mem, declared⟩)
  constructor
  · intro x declared
    obtain ⟨f, mem, declared⟩ := mem_declaredInExprs.1 declared
    exact within (split ▸ List.mem_append_left _ mem) declared
  · exact within (split ▸ List.mem_append_right _ List.mem_cons_self)

theorem stepExpression_declared (e : Expr) : (Eval.stepExpression e).declared ⊆ e.declared := by
  cases e with
  | assign span target value =>
    rw [Expr.declared]
    exact List.subset_append_right _ _
  | _ => exact List.Subset.refl _

namespace Point

variable {p q : Point}

/-- One step in a text is made of moves that declare what the text binds. -/
theorem Next.moves (h : p.Next q) :
    Moves p.code.bound p.machine q.machine ∧ q.code.bound ⊆ p.code.bound := by
  have nothing (names : List String) : ([] : List String) ⊆ names := List.nil_subset _
  cases h with
  | part split ran =>
    obtain ⟨before, part⟩ := Expr.part_declared split
    exact ⟨(Moves.expressions ran).mono before, part⟩
  | identifier | container | function | functionDeclaration | superclass _ | classDeclaration =>
    exact ⟨.refl, nothing _⟩
  | @shorthand _ _ _ _ span _ _ before rest _ ran =>
    refine ⟨(Moves.expressions ran).mono fun x hx => ?_, nothing _⟩
    obtain ⟨e, mem, declared⟩ := mem_declaredInExprs.1 hx
    rw [Code.bound, Expr.declared, declaredInProperties_eq, List.filterMap_append, mem_declaredInExprs]
    exact ⟨e, List.mem_append_left _ mem, declared⟩
  | assigned ran => exact ⟨(Moves.expression ran).mono (List.subset_append_right _ _), nothing _⟩
  | @rebound n _ _ k l _ _ _ x property _ _ _ _ _ evaluated copied =>
    have copies : Moves property.declared k l := .single (.run (fun base =>
      Eval.withMember_stays (Evaluator.bounded_stays base n) _ (List.Subset.refl _) _ _ _ _) copied)
    refine ⟨.trans ((Moves.expression evaluated).mono fun y hy => ?_) (copies.mono fun y hy => ?_), nothing _⟩ <;>
      simp [Code.bound, Expr.declared, hy]
  | call ran | instantiation ran =>
    exact ⟨(Moves.expressions ran).mono fun _ hx => Expr.parts_declared _ hx, nothing _⟩
  | @begin _ _ s e there =>
    refine ⟨.refl, fun x hx => s.declared_subset_bound (s.parts_declared ?_)⟩
    exact mem_declaredInExprs.2 ⟨e, there, hx⟩
  | ifBody held =>
    exact ⟨.tail ((Moves.holds held).mono (List.subset_append_left _ _)) (.enter _), List.subset_append_right _ _⟩
  | whileBody pass => exact ⟨pass.moves, List.subset_append_right _ _⟩
  | whileCondition pass ran =>
    exact ⟨pass.moves.trans ((Moves.anotherPass ran).mono (List.subset_append_right _ _)),
      List.subset_append_left _ _⟩
  | forCondition counts => exact ⟨counts.inPass_moves, (ForLoop.subset_bound _).2.2.1⟩
  | @forBody _ _ _ _ _ _ _ loop _ counts held =>
    obtain ⟨-, -, condition, -, body⟩ := loop.subset_bound
    exact ⟨counts.inPass_moves.trans ((Moves.holds held).mono condition), body⟩
  | @forStep _ _ _ _ _ _ _ loop _ _ counts ran =>
    obtain ⟨-, -, -, iterator, -⟩ := loop.subset_bound
    exact ⟨counts.inPass_moves.trans (Moves.pinned ran), List.Subset.trans (stepExpression_declared _) iterator⟩
  | body => exact ⟨.refl, List.subset_append_right _ _⟩
  | first _ => exact ⟨.refl, List.subset_append_left _ _⟩
  | directive _ => exact ⟨.refl, List.subset_append_right _ _⟩
  | later _ ran =>
    exact ⟨(Moves.statement ran).mono (List.subset_append_left _ _), List.subset_append_right _ _⟩

/-- All points that an evaluation comes to, by induction on the steps. -/
theorem Comes.moves (h : p.Comes q) :
    Moves p.code.bound p.machine q.machine ∧ q.code.bound ⊆ p.code.bound := by
  induction h with
  | refl => exact ⟨.refl, List.Subset.refl _⟩
  | tail _ step ih =>
    obtain ⟨moves, sub⟩ := step.moves
    exact ⟨ih.1.trans (moves.mono ih.2), List.Subset.trans sub ih.2⟩

end Point

end ScriptLang
