/-
# ScriptLang.Proofs.Alike.Machine — machines that differ only in places, and runs that keep this up.

Machines are alike when they stand in the same frame, have given out as many stamps, have the same host,
and their scopes bind the same names to values that differ only in places.  Two runs are alike when from
machines that are alike they end in the same way, on machines that are alike: with related values, or with
errors that differ only in places.  Such runs compose, and every single operation on a machine is one.
-/
import ScriptLang.Proofs.Alike.Value
import ScriptLang.Proofs.Run
import ScriptLang.Proofs.Scope.Lookup
import ScriptLang.Proofs.Syntax.Spelling

namespace ScriptLang

/-! ## Errors without their places -/

mutual

/-- A fault without the places in the failure of another source. -/
def RuntimeFault.bare : RuntimeFault → RuntimeFault
  | .source error => .source error.bare
  | fault => fault

/-- The failure of a source when it runs, without its place. -/
def Error.bare : Error → Error
  | .runtime _ fault => .runtime .nowhere fault.bare
  | error => error

end

variable {L : Likeness}

/-! ## Scopes -/

/-- Bindings that differ only in places. -/
structure Binding.Alike (L : Likeness) (b b' : Binding) : Prop where
  value : b.value.Alike L b'.value
  constant : b'.constant = b.constant
  carried : b'.carried = b.carried

/-- The bindings of a name, if there are any, differ only in places. -/
abbrev Bindings.Alike (L : Likeness) (name : String) (bs bs' : Bindings) : Prop :=
  Option.Rel (Binding.Alike L) (bs.get? name) (bs'.get? name)

/-- Scopes with the same tree, whose bindings of the admitted names differ only in places. -/
structure Scopes.Alike (L : Likeness) (s s' : Scopes) : Prop where
  size : s'.size = s.size
  parent : ∀ id, s'.parent? id = s.parent? id
  own : ∀ id name, L.names name → Bindings.Alike L name (s.bindings id) (s'.bindings id)

namespace Scopes.Alike

variable {s s' : Scopes} {name : String}

theorem hasOwn (h : s.Alike L s') (hn : L.names name) (id : ScopeId) :
    s'.hasOwn id name = s.hasOwn id name := by
  have found := h.own id name hn
  unfold Bindings.Alike at found
  unfold Scopes.hasOwn own?
  generalize (s.bindings id).get? name = before, (s'.bindings id).get? name = after at found
  cases found <;> rfl

theorem owner? (h : s.Alike L s') (hn : L.names name) (id : ScopeId) :
    s'.owner? id name = s.owner? id name := by
  apply owner?_congr
  · exact fun id _ => h.parent id
  · exact fun id _ => h.hasOwn hn id
  · exact Nat.lt_succ_self id

theorem refuses (h : s.Alike L s') (hn : L.names name) (id : ScopeId) (strict : Bool) :
    s'.refuses id name strict = s.refuses id name strict := by
  have found := h.own id name hn
  unfold Bindings.Alike at found
  unfold Scopes.refuses own?
  generalize (s.bindings id).get? name = before, (s'.bindings id).get? name = after at found
  cases found with
  | none => rfl
  | some hb => simp only [hb.carried]

theorem value (h : s.Alike L s') (hn : L.names name) (id : ScopeId) :
    Settled (Value.Alike L) (s.value id name) (s'.value id name) := by
  unfold Scopes.value
  rw [h.owner? hn id]
  cases s.owner? id name with
  | none => exact .error _
  | some owner =>
    have found := h.own owner name hn
    unfold Bindings.Alike at found
    simp only [Option.bind_eq_bind, Option.bind_some, own?]
    generalize (s.bindings owner).get? name = before, (s'.bindings owner).get? name = after at found
    cases found with
    | none => exact .error _
    | some hb => exact .ok hb.value

theorem writable (h : s.Alike L s') (hn : L.names name) (id : ScopeId) :
    s'.writable id name = s.writable id name := by
  unfold Scopes.writable
  rw [h.owner? hn id]
  cases s.owner? id name with
  | none => rfl
  | some owner =>
    have constant : (s'.own? owner name).map Binding.constant =
        (s.own? owner name).map Binding.constant := by
      have found := h.own owner name hn
      unfold Bindings.Alike at found
      unfold own?
      generalize (s.bindings owner).get? name = before, (s'.bindings owner).get? name = after at found
      cases found with
      | none => rfl
      | some hb => exact congrArg some hb.constant
    dsimp only
    rw [constant]

theorem push (h : s.Alike L s') (parent : Option ScopeId) : (s.push parent).Alike L (s'.push parent) where
  size := by rw [size_push, size_push, h.size]
  parent id := by rw [parent?_push, parent?_push, h.size, h.parent]
  own id x hx := by
    rw [bindings_push, bindings_push]
    exact h.own id x hx

/-- Changes of one scope keep scopes alike if they keep its bindings alike. -/
theorem update (h : s.Alike L s') (id : ScopeId) {f f' : Bindings → Bindings}
    (hf : ∀ x, L.names x → Bindings.Alike L x (f (s.bindings id)) (f' (s'.bindings id))) :
    (s.update id f).Alike L (s'.update id f') where
  size := by rw [size_update, size_update, h.size]
  parent other := by rw [parent?_update, parent?_update, h.parent]
  own other x hx := by
    by_cases there : id < s.size
    · rw [bindings_update s id other f there, bindings_update s' id other f' (h.size ▸ there)]
      split
      · exact hf x hx
      · exact h.own other x hx
    · have missing : s.size ≤ id := Nat.le_of_not_lt there
      rw [bindings_update_of_le s missing, bindings_update_of_le s' (h.size.symm ▸ missing)]
      exact h.own other x hx

theorem bind (h : s.Alike L s') (id : ScopeId) (name : String) {v v' : Value} (hv : v.Alike L v')
    (constant : Bool) : (s.bind id name v constant).Alike L (s'.bind id name v' constant) := by
  refine h.update id fun x hx => ?_
  unfold Bindings.Alike
  rw [Bindings.get?_set, Bindings.get?_set]
  split
  · exact .some ⟨hv, rfl, rfl⟩
  · exact h.own id x hx

theorem setValue (h : s.Alike L s') (id : ScopeId) (name : String) {v v' : Value} (hv : v.Alike L v') :
    (s.setValue id name v).Alike L (s'.setValue id name v') := by
  refine h.update id fun x hx => ?_
  have found := h.own id x hx
  unfold Bindings.Alike at found ⊢
  rw [Bindings.get?_setValue, Bindings.get?_setValue]
  generalize (s.bindings id).get? x = before, (s'.bindings id).get? x = after at found
  split
  · cases found with
    | none => exact .none
    | some hb => exact .some ⟨hv, hb.constant, hb.carried⟩
  · exact found

theorem beginPass (h : s.Alike L s') (id : ScopeId) : (s.beginPass id).Alike L (s'.beginPass id) := by
  refine h.update id fun x hx => ?_
  have found := h.own id x hx
  unfold Bindings.Alike at found ⊢
  rw [Bindings.get?_carry, Bindings.get?_carry]
  generalize (s.bindings id).get? x = before, (s'.bindings id).get? x = after at found
  cases found with
  | none => exact .none
  | some hb => exact .some ⟨hb.value, hb.constant, rfl⟩

/-- A global binding of a name that is not spoken about may be anything. -/
theorem define (h : s.Alike L s') (id : ScopeId) (name : String) {v v' : Value}
    (hv : L.names name → v.Alike L v') (constant : Bool) :
    (s.define id name v constant).Alike L (s'.define id name v' constant) := by
  refine h.update id fun x hx => ?_
  have found := h.own id x hx
  unfold Bindings.Alike at found ⊢
  rw [Bindings.get?_set, Bindings.get?_set]
  split
  · next he =>
    subst he
    generalize (s.bindings id).get? x = before, (s'.bindings id).get? x = after at found
    cases found with
    | none => exact .some ⟨hv hx, rfl, rfl⟩
    | some hb => exact .some ⟨hv hx, rfl, hb.carried⟩
  · exact found

end Scopes.Alike

/-! ## Machines -/

/-- The files of a host hold sources that may be run. -/
def Host.Admits (L : Likeness) (h : Host) : Prop :=
  ∀ path text, h.file path = .ok (.ok text) → L.sources text

theorem Host.file_answer {h h' : Host} {line : Option String} (ha : h.answer = .ok (line, h'))
    (path : String) : h'.file path = h.file path := by
  unfold answer at ha
  split at ha <;> cases ha <;> rfl

theorem Host.file_clock {h h' : Host} {now : Float} (hc : h.clock = .ok (now, h')) (path : String) :
    h'.file path = h.file path := by
  unfold clock at hc
  split at hc <;> cases hc <;> rfl

/-- Machines that differ only in places. -/
structure Machine.Alike (L : Likeness) (m m' : Machine) : Prop where
  scopes : m.scopes.Alike L m'.scopes
  frame : m'.frame = m.frame
  stamps : m'.stamps = m.stamps
  host : m'.host = m.host
  admits : m.host.Admits L

/-- Halts that differ only in places. -/
inductive Halt.Alike (L : Likeness) : Halt → Halt → Prop
  | raised {s s' : Span} {fault fault' : RuntimeFault} (hs : L.spans s s')
    (hf : fault'.bare = fault.bare) : Halt.Alike L (.raised ⟨s, fault⟩) (.raised ⟨s', fault'⟩)
  | waiting (request : Request) : Halt.Alike L (.waiting request) (.waiting request)
  | outOfFuel : Halt.Alike L .outOfFuel .outOfFuel

/-! ## Runs -/

section

variable {α β γ δ : Type}

/-- Ends of runs that differ only in places. -/
inductive Ended (L : Likeness) (R : α → β → Prop) :
    EStateM.Result Halt Machine α → EStateM.Result Halt Machine β → Prop
  | ok {a : α} {b : β} {m m' : Machine} (h : R a b) (hm : m.Alike L m') :
    Ended L R (.ok a m) (.ok b m')
  | error {e e' : Halt} {m m' : Machine} (h : e.Alike L e') (hm : m.Alike L m') :
    Ended L R (.error e m) (.error e' m')

namespace Run

/-- Runs that end alike from machines that are alike. -/
def Alike (L : Likeness) (R : α → β → Prop) (x : Run α) (y : Run β) : Prop :=
  ∀ m m', m.Alike L m' → Ended L R (x m) (y m')

namespace Alike

variable {R : α → β → Prop} {S : γ → δ → Prop} {x : Run α} {y : Run β} {f : α → Run γ} {g : β → Run δ}

theorem pure {a : α} {b : β} (h : R a b) : Alike L R (Pure.pure a) (Pure.pure b) :=
  fun _ _ hm => .ok h hm

theorem raise {s s' : Span} (hs : L.spans s s') (fault : RuntimeFault) :
    Alike L R (Run.raise s fault) (Run.raise s' fault) :=
  fun _ _ hm => .error (.raised hs rfl) hm

theorem outOfFuel : Alike L R Run.outOfFuel Run.outOfFuel := fun _ _ hm => .error .outOfFuel hm

theorem settle {s s' : Span} (hs : L.spans s s') {u : Except RuntimeFault α} {w : Except RuntimeFault β}
    (h : Settled R u w) : Alike L R (Run.settle s u) (Run.settle s' w) := by
  intro m m' hm
  cases h with
  | ok h => exact .ok h hm
  | error fault => exact .error (.raised hs rfl) hm

theorem bind (h : Alike L R x y) (k : ∀ a b, R a b → Alike L S (f a) (g b)) :
    Alike L S (x >>= f) (y >>= g) := by
  intro m m' hm
  have first := h m m' hm
  rw [bind_run, bind_run]
  generalize x m = end₁, y m' = end₂ at first
  cases first with
  | ok h hn => exact k _ _ h _ _ hn
  | error h hn => exact .error h hn

/-- Runs that come to the same value go on with it. -/
theorem bind_eq {x y : Run α} {f : α → Run γ} {g : α → Run δ} (h : Alike L Eq x y)
    (k : ∀ a, Alike L S (f a) (g a)) : Alike L S (x >>= f) (y >>= g) := by
  refine h.bind ?_
  rintro a _ rfl
  exact k a

theorem map {c : α → γ} {d : β → δ} (h : Alike L R x y) (k : ∀ a b, R a b → S (c a) (d b)) :
    Alike L S (c <$> x) (d <$> y) := by
  rw [map_eq_pure_bind, map_eq_pure_bind]
  exact h.bind fun a b hab => pure (k a b hab)

theorem withFrame (f : Frame) (h : Alike L R x y) :
    Alike L R (Run.withFrame f x) (Run.withFrame f y) := by
  intro m m' hm
  have inner := h { m with frame := f } { m' with frame := f }
    ⟨hm.scopes, rfl, hm.stamps, hm.host, hm.admits⟩
  unfold Run.withFrame
  dsimp only
  generalize x { m with frame := f } = end₁, y { m' with frame := f } = end₂ at inner
  -- both machines get back the frame that they had in common
  cases inner with
  | ok h hn => exact .ok h ⟨hn.scopes, hm.frame, hn.stamps, hn.host, hn.admits⟩
  | error h hn => exact .error h ⟨hn.scopes, hm.frame, hn.stamps, hn.host, hn.admits⟩

theorem frame : Alike L Eq Run.frame Run.frame := fun _ _ hm => .ok hm.frame.symm hm

theorem here : Alike L Eq Run.here Run.here := fun _ _ hm => .ok (congrArg Frame.scope hm.frame.symm) hm

theorem within (scope : ScopeId) (h : Alike L R x y) :
    Alike L R (Run.within scope x) (Run.within scope y) :=
  frame.bind_eq fun f => h.withFrame { f with scope := scope }

theorem inCall (scope : ScopeId) (h : Alike L R x y) :
    Alike L R (Run.inCall scope x) (Run.inCall scope y) :=
  frame.bind_eq fun f => h.withFrame ⟨scope, f.depth + 1⟩

/-- A run of another source fails at the span where it was started, whatever its own places are. -/
theorem fromSource {s s' : Span} (hs : L.spans s s') (h : Alike L R x y) :
    Alike L R (Run.fromSource s x) (Run.fromSource s' y) := by
  intro m m' hm
  have inner := h m m' hm
  unfold Run.fromSource
  generalize x m = end₁, y m' = end₂ at inner
  cases inner with
  | ok h hn => exact .ok h hn
  | error h hn =>
    cases h with
    | raised _ hf =>
      refine .error (.raised hs ?_) hn
      simp only [RuntimeFault.bare, RuntimeError.toError, Error.bare, hf]
    | waiting request => exact .error (.waiting request) hn
    | outOfFuel => exact .error .outOfFuel hn

/-! ### The single operations -/

theorem newStamp : Alike L Eq Run.newStamp Run.newStamp := fun _ _ hm =>
  .ok hm.stamps.symm ⟨hm.scopes, hm.frame, congrArg (· + 1) hm.stamps, hm.host, hm.admits⟩

theorem newScope (parent : ScopeId) : Alike L Eq (Run.newScope parent) (Run.newScope parent) :=
  fun _ _ hm =>
    .ok hm.scopes.size.symm ⟨hm.scopes.push (some parent), hm.frame, hm.stamps, hm.host, hm.admits⟩

theorem lookupFrom (scope : ScopeId) {name : String} (hn : L.names name) {s s' : Span}
    (hs : L.spans s s') :
    Alike L (Value.Alike L) (Run.lookupFrom scope name s) (Run.lookupFrom scope name s') :=
  fun m m' hm => settle hs (hm.scopes.value hn scope) m m' hm

theorem lookup {name : String} (hn : L.names name) {s s' : Span} (hs : L.spans s s') :
    Alike L (Value.Alike L) (Run.lookup name s) (Run.lookup name s') := by
  intro m m' hm
  have found := lookupFrom m.frame.scope hn hs m m' hm
  unfold Run.lookup
  rw [hm.frame]
  exact found

theorem declareIn (scope : ScopeId) {name : String} (hn : L.names name) {v v' : Value}
    (hv : v.Alike L v') (constant strict : Bool) {s s' : Span} (hs : L.spans s s') :
    Alike L (Value.Alike L) (Run.declareIn scope name v constant strict s)
      (Run.declareIn scope name v' constant strict s') := by
  intro m m' hm
  unfold Run.declareIn
  rw [hm.scopes.refuses hn]
  split
  · exact .error (.raised hs rfl) hm
  · exact .ok hv ⟨hm.scopes.bind scope name hv constant, hm.frame, hm.stamps, hm.host, hm.admits⟩

theorem reassign {name : String} (hn : L.names name) {v v' : Value} (hv : v.Alike L v') {s s' : Span}
    (hs : L.spans s s') :
    Alike L (Value.Alike L) (Run.reassign name v s) (Run.reassign name v' s') := by
  intro m m' hm
  unfold Run.reassign
  rw [hm.frame, hm.scopes.writable hn]
  cases m.scopes.writable m.frame.scope name with
  | error fault => exact .error (.raised hs rfl) hm
  | ok owner => exact .ok hv ⟨hm.scopes.setValue owner name hv, hm.frame, hm.stamps, hm.host, hm.admits⟩

theorem beginPass (scope : ScopeId) : Alike L Eq (Run.beginPass scope) (Run.beginPass scope) :=
  fun _ _ hm => .ok rfl ⟨hm.scopes.beginPass scope, hm.frame, hm.stamps, hm.host, hm.admits⟩

theorem emit (e : Event) : Alike L Eq (Run.emit e) (Run.emit e) := fun _ _ hm =>
  .ok rfl ⟨hm.scopes, hm.frame, hm.stamps, congrArg (·.record e) hm.host, hm.admits⟩

theorem answer : Alike L Eq Run.answer Run.answer := by
  intro m m' hm
  unfold Run.answer
  rw [hm.host]
  cases ha : m.host.answer with
  | error request => exact .error (.waiting request) hm
  | ok found =>
    refine .ok rfl ⟨hm.scopes, hm.frame, hm.stamps, rfl, fun path text => ?_⟩
    rw [Host.file_answer ha]
    exact hm.admits path text

/-- What a file holds may be run. -/
theorem file (path : String) :
    Alike L (fun a b => a = b ∧ ∀ text, a = .ok text → L.sources text) (Run.file path)
      (Run.file path) := by
  intro m m' hm
  unfold Run.file
  rw [hm.host]
  cases hf : m.host.file path with
  | error request => exact .error (.waiting request) hm
  | ok found => exact .ok ⟨rfl, fun text he => hm.admits path text (he ▸ hf)⟩ hm

theorem clock : Alike L Eq Run.clock Run.clock := by
  intro m m' hm
  unfold Run.clock
  rw [hm.host]
  cases hc : m.host.clock with
  | error request => exact .error (.waiting request) hm
  | ok found =>
    refine .ok rfl ⟨hm.scopes, hm.frame, hm.stamps, rfl, fun path text => ?_⟩
    rw [Host.file_clock hc]
    exact hm.admits path text

theorem newArray {vs vs' : List Value} (h : List.Forall₂ (Value.Alike L) vs vs') :
    Alike L (Value.Alike L) (Run.newArray vs) (Run.newArray vs') :=
  newStamp.bind_eq fun _ => pure (.array h)

theorem newObject {ps ps' : Properties} (h : ps.Alike L ps') :
    Alike L (Value.Alike L) (Run.newObject ps) (Run.newObject ps') :=
  newStamp.bind_eq fun _ => pure (.object h)

end Alike

end Run

end

end ScriptLang
