/-
# ScriptLang.Proofs.Flow.Orderly — where a `break` and a `return` can come from.

A block ends with a `return` only if one is written in it outside nested functions, and with a `break` only
if one is written in it outside nested functions and loops.  A loop receives each `break` of its body.  A
`return` that leaves a loop goes on inside a call and fails outside one, and that is the only failure of its
kind below the top level: a call receives both, and the failure of another source is a fault of its own.

The rules of the evaluator are followed once, for runs at a given depth of calls.  A run is orderly if it
gives the frame back, ends only as it is allowed to, and fails with a misplaced `break` or `return` only where
that is allowed.
-/
import ScriptLang.Eval
import ScriptLang.Proofs.Run

namespace ScriptLang

/-! ## Breaks -/

mutual

/-- Does a statement break out of the loop that it stands in?  A nested loop receives the breaks of its own
body, and the body of a nested function is another function's. -/
def Stmt.breaks : Stmt → Bool
  | .breakLoop _ => true
  | .ifBlock _ _ body => breaksIn body
  | _ => false

/-- Does one of the statements break out of the loop that they stand in? -/
def breaksIn : List Stmt → Bool
  | [] => false
  | s :: rest => s.breaks || breaksIn rest

end

/-- Is a statement a loop? -/
def Stmt.isLoop : Stmt → Bool
  | .whileLoop _ _ _ | .forLoop _ _ => true
  | _ => false

/-! ## Ends -/

/-- A `break` or a `return` that nothing receives. -/
def RuntimeFault.IsMisplaced : RuntimeFault → Prop
  | .flow _ => True
  | _ => False

/-- A run that stops at a `break` or a `return` that nothing receives. -/
def Halt.IsMisplaced : Halt → Prop
  | .raised e => e.fault.IsMisplaced
  | _ => False

/-- The end of a statement, if it may return and if it may break. -/
def Flow.May (returns breaks : Prop) : Flow → Prop
  | .value _ => True
  | .leave => breaks
  | .give _ => returns

theorem Flow.May.mono {returns returns' breaks breaks' : Prop} {flow : Flow}
    (h : flow.May returns breaks) (hr : returns → returns') (hb : breaks → breaks') :
    flow.May returns' breaks' := by
  cases flow with
  | value v => trivial
  | leave => exact hb h
  | give v => exact hr h

/-- A fault that an operator or an index has with its values. -/
def RuntimeFault.IsOfValues : RuntimeFault → Prop
  | .type _ | .range _ | .divisionByZero _ => True
  | _ => False

/-- An operation that fails with no fault of a kind. -/
def Avoids {α : Type} (kind : RuntimeFault → Prop) (x : Except RuntimeFault α) : Prop :=
  ∀ fault, x = .error fault → ¬kind fault

/-- An operation that fails with no misplaced `break` or `return`. -/
def Placed {α : Type} (x : Except RuntimeFault α) : Prop := Avoids RuntimeFault.IsMisplaced x

namespace Run

variable {α β : Type}

/-- The outcome of a run that began in a frame: it gives the frame back, and either it ends as `ends` says or it
stops, at a misplaced `break` or `return` only if `slips`. -/
inductive Concluded (frame : Frame) (ends : α → Prop) (slips : Prop) : EStateM.Result Halt Machine α → Prop
  | ok {a : α} {n : Machine} : n.frame = frame → ends a → Concluded frame ends slips (.ok a n)
  | error {halt : Halt} {n : Machine} : n.frame = frame → (halt.IsMisplaced → slips) →
    Concluded frame ends slips (.error halt n)

/-- At the depth `d` the run gives the frame back and ends as `ends` says, and it stops at a misplaced `break`
or `return` only if `slips`. -/
def Orderly (d : Nat) (ends : α → Prop) (slips : Prop) (x : Run α) : Prop :=
  ∀ m, m.frame.depth = d → Concluded m.frame ends slips (x m)

namespace Orderly

variable {d : Nat} {ends : α → Prop} {slips : Prop}

theorem pure {a : α} (h : ends a) : Orderly d ends slips (Pure.pure a : Run α) :=
  fun _ _ => .ok rfl h

theorem raise (span : Span) {fault : RuntimeFault} (h : fault.IsMisplaced → slips) :
    Orderly d ends slips (Run.raise span fault : Run α) :=
  fun _ _ => .error rfl h

theorem outOfFuel : Orderly d ends slips (Run.outOfFuel : Run α) := fun _ _ => .error rfl False.elim

theorem mono {ends' : α → Prop} {slips' : Prop} {x : Run α} (h : Orderly d ends slips x)
    (he : ∀ a, ends a → ends' a) (hs : slips → slips') : Orderly d ends' slips' x := by
  intro m depth
  have outcome := h m depth
  generalize x m = r at outcome ⊢
  cases outcome with
  | ok frame ended => exact .ok frame (he _ ended)
  | error frame only => exact .error frame fun misplaced => hs (only misplaced)

theorem bind {ends' : β → Prop} {x : Run α} {f : α → Run β} (h : Orderly d ends slips x)
    (k : ∀ a, ends a → Orderly d ends' slips (f a)) : Orderly d ends' slips (x >>= f) := by
  intro m depth
  have outcome := h m depth
  rw [bind_run]
  generalize x m = r at outcome ⊢
  cases outcome with
  | error frame only => exact .error frame only
  | @ok a n frame ended =>
    -- the first part gave the frame back, so the second runs at the same depth
    have rest := k a ended n (by rw [frame, depth])
    rwa [frame] at rest

theorem map {ends' : β → Prop} (f : α → β) {x : Run α} (h : Orderly d ends slips x)
    (k : ∀ a, ends a → ends' (f a)) : Orderly d ends' slips (f <$> x) := by
  rw [map_eq_pure_bind]
  exact h.bind fun a ha => pure (k a ha)

theorem withFrame {f : Frame} {x : Run α} (h : Orderly f.depth ends slips x) :
    Orderly d ends slips (Run.withFrame f x) := by
  intro m _
  have outcome := h { m with frame := f } rfl
  unfold Run.withFrame
  dsimp only at outcome ⊢
  generalize x ⟨m.scopes, f, m.stamps, m.host⟩ = r at outcome ⊢
  cases outcome with
  | ok _ ended => exact .ok rfl ended
  | error _ only => exact .error rfl only

/-- The depth at which a run stands is the one it reads from the frame. -/
theorem bind_frame {f : Frame → Run α}
    (k : ∀ frame : Frame, frame.depth = d → Orderly d ends slips (f frame)) :
    Orderly d ends slips (Run.frame >>= f) := by
  intro m depth
  exact k m.frame depth m depth

theorem within {scope : ScopeId} {x : Run α} (h : Orderly d ends slips x) :
    Orderly d ends slips (Run.within scope x) := by
  refine bind_frame fun frame depth => withFrame ?_
  subst depth
  exact h

theorem inCall {scope : ScopeId} {x : Run α} (h : Orderly (d + 1) ends slips x) :
    Orderly d ends slips (Run.inCall scope x) := by
  refine bind_frame fun frame depth => withFrame ?_
  subst depth
  exact h

theorem settle (span : Span) {x : Except RuntimeFault α} (h : Placed x) :
    Orderly d (fun _ => True) slips (Run.settle span x) := by
  cases x with
  | ok a => exact pure trivial
  | error fault => exact raise span fun misplaced => (h fault rfl misplaced).elim

/-! ### The single operations -/

theorem here : Orderly d (fun _ => True) slips Run.here := fun _ _ => .ok rfl trivial

theorem newStamp : Orderly d (fun _ => True) slips Run.newStamp := fun _ _ => .ok rfl trivial

theorem newScope (parent : ScopeId) : Orderly d (fun _ => True) slips (Run.newScope parent) :=
  fun _ _ => .ok rfl trivial

theorem lookupFrom (scope : ScopeId) (name : String) (span : Span) :
    Orderly d (fun _ => True) slips (Run.lookupFrom scope name span) := by
  intro m depth
  refine settle span (fun fault failed => ?_) m depth
  unfold Scopes.value at failed
  split at failed <;> cases failed
  exact id

theorem lookup (name : String) (span : Span) : Orderly d (fun _ => True) slips (Run.lookup name span) :=
  fun m => lookupFrom m.frame.scope name span m

theorem declareIn (scope : ScopeId) (name : String) (v : Value) (constant strict : Bool) (span : Span) :
    Orderly d (fun _ => True) slips (Run.declareIn scope name v constant strict span) := by
  intro m _
  unfold Run.declareIn
  split
  · exact .error rfl False.elim
  · exact .ok rfl trivial

theorem reassign (name : String) (v : Value) (span : Span) :
    Orderly d (fun _ => True) slips (Run.reassign name v span) := by
  intro m _
  unfold Run.reassign
  split
  · exact .ok rfl trivial
  · next fault failed =>
    refine .error rfl fun misplaced => ?_
    unfold Scopes.writable at failed
    split at failed
    · cases failed
      exact misplaced.elim
    · split at failed <;> cases failed
      exact misplaced.elim

theorem beginPass (scope : ScopeId) : Orderly d (fun _ => True) slips (Run.beginPass scope) :=
  fun _ _ => .ok rfl trivial

theorem emit (e : Event) : Orderly d (fun _ => True) slips (Run.emit e) := fun _ _ => .ok rfl trivial

theorem newArray (vs : List Value) : Orderly d (fun _ => True) slips (Run.newArray vs) :=
  newStamp.bind fun _ _ => pure trivial

theorem newObject (ps : Properties) : Orderly d (fun _ => True) slips (Run.newObject ps) :=
  newStamp.bind fun _ _ => pure trivial

theorem answer : Orderly d (fun _ => True) slips Run.answer := by
  intro m _
  unfold Run.answer
  split
  · exact .ok rfl trivial
  · exact .error rfl False.elim

theorem file (path : String) : Orderly d (fun _ => True) slips (Run.file path) := by
  intro m _
  unfold Run.file
  split
  · exact .ok rfl trivial
  · exact .error rfl False.elim

theorem clock : Orderly d (fun _ => True) slips Run.clock := by
  intro m _
  unfold Run.clock
  split
  · exact .ok rfl trivial
  · exact .error rfl False.elim

/-- The failure of another source is no `break` or `return` of this one. -/
theorem fromSource (span : Span) {slips' : Prop} {x : Run α} (h : Orderly d ends slips' x) :
    Orderly d ends slips (Run.fromSource span x) := by
  intro m depth
  have outcome := h m depth
  unfold Run.fromSource
  generalize x m = r at outcome ⊢
  cases outcome with
  | ok frame ended => exact .ok frame ended
  | @error halt n frame _ => cases halt <;> exact .error frame False.elim

end Orderly

end Run

/-! ## Operations -/

namespace Avoids

variable {α β : Type} {kind : RuntimeFault → Prop}

theorem ok (a : α) : Avoids kind (.ok a) := fun _ failed => by cases failed

theorem error {fault : RuntimeFault} (h : ¬kind fault) : Avoids kind (.error fault : Except _ α) :=
  fun _ failed => by cases failed; exact h

theorem map (f : α → β) {x : Except RuntimeFault α} (h : Avoids kind x) : Avoids kind (x.map f) := by
  cases x with
  | ok a => exact ok _
  | error fault => exact error (h fault rfl)

theorem bind {f : α → Except RuntimeFault β} {x : Except RuntimeFault α} (h : Avoids kind x)
    (k : ∀ a, Avoids kind (f a)) : Avoids kind (x >>= f) := by
  cases x with
  | ok a => exact k a
  | error fault => exact error (h fault rfl)

end Avoids

section Values

variable {kind : RuntimeFault → Prop} (other : ∀ fault : RuntimeFault, fault.IsOfValues → ¬kind fault)

include other

theorem Operator.apply_avoids (operator : Operator) (strict : Bool) (v w : Value) :
    Avoids kind (operator.apply strict v w) := by
  have numbers (operator : Operator) (x y : Float) : Avoids kind (operator.applyNumbers strict x y) := by
    cases operator with
    | divide =>
      refine .map _ ?_
      unfold ScriptLang.divide
      repeat' split
      all_goals first
        | exact .ok _
        | exact .error (other _ trivial)
    | equal | notEqual | nullish => exact .error (other _ trivial)
    | _ => exact .ok _
  have ordinary (operator : Operator) : Avoids kind (operator.applyOrdinary strict v w) := by
    unfold applyOrdinary
    split
    · exact numbers operator _ _
    · split
      · exact .ok _
      · exact .error (other _ trivial)
    · split
      · exact .ok _
      · exact .error (other _ trivial)
    · exact .error (other _ trivial)
  have equality : Avoids kind (v.equal w) := by
    unfold Value.equal
    split
    · exact .error (other _ trivial)
    · exact .ok _
  cases operator with
  | equal | notEqual => exact .map _ equality
  | nullish => cases v <;> exact .ok _
  | _ => exact ordinary _

theorem elementPosition_avoids (index : Value) (length : Nat) (strict : Bool) :
    Avoids kind (elementPosition index length strict) := by
  unfold elementPosition placeOf
  repeat' split
  all_goals first
    | exact .ok _
    | exact .error (other _ trivial)

end Values

/-- The faults of operations on values are no misplaced `break` or `return`. -/
theorem RuntimeFault.IsOfValues.placed {fault : RuntimeFault} (h : fault.IsOfValues) : ¬fault.IsMisplaced := by
  cases fault <;> first | exact h.elim | exact id

theorem Operator.apply_placed (operator : Operator) (strict : Bool) (v w : Value) :
    Placed (operator.apply strict v w) :=
  operator.apply_avoids (fun _ => RuntimeFault.IsOfValues.placed) strict v w

theorem elementPosition_placed (index : Value) (length : Nat) (strict : Bool) :
    Placed (elementPosition index length strict) :=
  elementPosition_avoids (fun _ => RuntimeFault.IsOfValues.placed) index length strict

namespace Builtin

variable (n : Native)

theorem joined_placed (args : List Value) : Placed (joined n args) := by
  refine .map _ ?_
  induction args with
  | nil => exact .ok _
  | cons v rest ih =>
    cases v with
    | string s => exact .map _ ih
    | _ => exact .error id

theorem path_placed (args : List Value) : Placed (path n args) := by
  unfold path
  split
  all_goals first
    | exact .ok _
    | exact .error id

theorem key_placed (v : Value) : Placed (key n v) := by
  cases v with
  | string s => exact .ok _
  | _ => exact .error id

theorem properties_placed (v : Value) : Placed (properties n v) := by
  cases v with
  | object stamp ps => exact .ok _
  | _ => exact .error id

theorem oneObject_placed (args : List Value) : Placed (oneObject n args) := by
  unfold oneObject
  split
  · exact properties_placed n _
  · exact .error id

theorem allHave_placed (k : String) (args : List Value) : Placed (allHave n k args) := by
  induction args with
  | nil => exact .ok _
  | cons v rest ih =>
    refine (properties_placed n v).bind fun ps => ?_
    cases ps.has k with
    | true => exact ih
    | false => exact .ok _

theorem objectHas_placed (args : List Value) : Placed (objectHas args) := by
  unfold objectHas
  split
  · exact (key_placed _ _).bind fun k => (properties_placed _ _).bind fun ps => .ok _
  · exact .error id
  · exact .error id

theorem objectAllHas_placed (args : List Value) : Placed (objectAllHas args) := by
  cases args with
  | nil => exact .error id
  | cons k rest => exact (key_placed _ k).bind fun k => allHave_placed _ k rest

end Builtin

end ScriptLang
