/-
# ScriptLang.Proofs.Invariant.Upholds — runs that uphold an invariant of values.

An invariant says which values are good.  It may say so with regard to a world, which grows while a program runs, and
in a later world what was good is good.  Values without parts are good, so are the parts of good values, and what is
made of good parts is good in some later world.

A run upholds an invariant if from every machine that binds good values it comes to such a machine, however it ends,
and the value that it ends with is good.  On the way it is compared with the same run inside another number of calls:
as long as both numbers are zero or neither is, the two do the same.  Runs that uphold an invariant compose, and every
single operation on a machine is one.
-/
import ScriptLang.Proofs.Run
import ScriptLang.Proofs.Scope.Lookup

namespace ScriptLang

/-! ## Properties as lists -/

namespace Properties

theorem mem_insert {key : String} {v : Value} {ps : Properties} {p : String × Value} (h : p ∈ insert key v ps) :
    p = (key, v) ∨ p ∈ ps := by
  induction ps with
  | nil => exact .inl (List.mem_singleton.1 h)
  | cons q rest ih =>
    obtain ⟨other, w⟩ := q
    unfold insert at h
    split at h
    · exact (List.mem_cons.1 h).imp_right (List.mem_cons_of_mem _)
    · split at h
      · exact List.mem_cons.1 h
      · rcases List.mem_cons.1 h with rfl | h
        · exact .inr List.mem_cons_self
        · exact (ih h).imp_right (List.mem_cons_of_mem _)

theorem mem_of_get? {key : String} {v : Value} {ps : Properties} (h : get? key ps = some v) : (key, v) ∈ ps := by
  induction ps with
  | nil => cases h
  | cons q rest ih =>
    obtain ⟨other, w⟩ := q
    unfold get? at h
    split at h
    · next same =>
      cases h
      exact same ▸ List.mem_cons_self
    · exact List.mem_cons_of_mem _ (ih h)

end Properties

/-! ## Values that scopes bind -/

/-- The values that a scope binds have a property. -/
def Bindings.All (P : Value → Prop) (bs : Bindings) : Prop := ∀ x b, bs.get? x = some b → P b.value

namespace Bindings.All

variable {P : Value → Prop} {bs : Bindings}

theorem set (h : bs.All P) {b : Binding} (hb : P b.value) (name : String) : (bs.set name b).All P := by
  intro x c found
  rw [get?_set] at found
  split at found
  · exact Option.some.inj found ▸ hb
  · exact h x c found

theorem setValue (h : bs.All P) {v : Value} (hv : P v) (name : String) : (bs.setValue name v).All P := by
  intro x c found
  rw [get?_setValue] at found
  split at found
  · obtain ⟨b, -, rfl⟩ := Option.map_eq_some_iff.1 found
    exact hv
  · exact h x c found

theorem carry (h : bs.All P) : bs.carry.All P := by
  intro x c found
  rw [get?_carry] at found
  obtain ⟨b, before, rfl⟩ := Option.map_eq_some_iff.1 found
  exact h x b before

end Bindings.All

/-- The values that scopes bind have a property. -/
def Scopes.All (P : Value → Prop) (s : Scopes) : Prop := ∀ id, (s.bindings id).All P

namespace Scopes.All

variable {P : Value → Prop} {s : Scopes}

theorem push (h : s.All P) (parent : Option ScopeId) : (s.push parent).All P := by
  intro id
  rw [bindings_push]
  exact h id

theorem update (h : s.All P) {id : ScopeId} {f : Bindings → Bindings} (hf : (f (s.bindings id)).All P) :
    (s.update id f).All P := by
  intro other
  rcases Nat.lt_or_ge id s.size with there | missing
  · rw [bindings_update s id other f there]
    split
    · exact hf
    · exact h other
  · rw [bindings_update_of_le s missing]
    exact h other

theorem value (h : s.All P) {id : ScopeId} {name : String} {v : Value} (found : s.value id name = .ok v) : P v := by
  obtain ⟨owner, -, own⟩ := value_eq_ok_iff.1 found
  obtain ⟨b, bound, rfl⟩ := Option.map_eq_some_iff.1 own
  exact h owner name b bound

end Scopes.All

/-! ## Invariants -/

namespace Value

/-- A value that is not made, and so has neither a stamp nor parts. -/
def IsPlain : Value → Prop
  | null | number _ | string _ | bool _ => True
  | _ => False

/-- A value that is made of given parts, with the stamp `k`. -/
inductive Made (shape : Properties → Prop) (part : Value → Prop) (k : Stamp) : Value → Prop
  | array {vs : List Value} (parts : ∀ v ∈ vs, part v) : Made shape part k (array k vs)
  | object {ps : Properties} (shaped : shape ps) (parts : ∀ p ∈ ps, part p.2) : Made shape part k (object k ps)
  | function (d : FunctionDeclaration) (closure : ScopeId) : Made shape part k (function ⟨k, d, closure⟩)
  | native (n : Native) : Made shape part k (native k n)
  | classValue (d : ClassDeclaration) (closure : ScopeId) (above : List ClassLayer) :
    Made shape part k (classValue ⟨⟨k, d, closure⟩, above⟩)

end Value

/-- Which values are good in which worlds, which stamps are fresh there, and which properties an object may have. -/
structure Invariant (W : Type) where
  later : W → W → Prop
  value : W → Value → Prop
  fresh : W → Stamp → Prop
  shape : Properties → Prop
  refl : ∀ w, later w w
  trans : ∀ {u v w}, later u v → later v w → later u w
  mono : ∀ {w w' v}, later w w' → value w v → value w' v
  plain : ∀ {w v}, v.IsPlain → value w v
  elements : ∀ {w i vs}, value w (.array i vs) → ∀ v ∈ vs, value w v
  properties : ∀ {w i ps}, value w (.object i ps) → shape ps ∧ ∀ p ∈ ps, value w p.2
  empty : shape []
  insert : ∀ {ps} key v, shape ps → shape (ps.insert key v)
  make : ∀ {w k v}, fresh w k → v.Made shape (value w) k → ∃ w', later w w' ∧ value w' v ∧ fresh w' (k + 1)

namespace Invariant

variable {W : Type} (I : Invariant W)

/-- Good elements. -/
def Elements (w : W) (vs : List Value) : Prop := ∀ v ∈ vs, I.value w v

/-- Good properties, as an object may have them. -/
def Entries (w : W) (ps : Properties) : Prop := I.shape ps ∧ ∀ p ∈ ps, I.value w p.2

/-- The values that a machine binds are good, and its next stamp is fresh. -/
structure Holds (w : W) (m : Machine) : Prop where
  bound : m.scopes.All (I.value w)
  fresh : I.fresh w m.stamps

variable {I} {w w' : W} {vs : List Value} {ps : Properties} {v : Value}

theorem Elements.mono (h : I.Elements w vs) (later : I.later w w') : I.Elements w' vs :=
  fun v mem => I.mono later (h v mem)

theorem Elements.set (h : I.Elements w vs) (hv : I.value w v) (i : Nat) : I.Elements w (vs.set i v) :=
  fun _ mem => (List.mem_or_eq_of_mem_set mem).elim (h _) fun same => same ▸ hv

/-- The element at a place, or null where there is none. -/
theorem Elements.get (h : I.Elements w vs) (place : Option Nat) :
    I.value w ((place.bind (vs[·]?)).getD .null) := by
  cases found : place.bind (vs[·]?) with
  | none => exact I.plain trivial
  | some v =>
    obtain ⟨i, -, there⟩ := Option.bind_eq_some_iff.1 found
    exact h v (List.mem_of_getElem? there)

theorem Entries.nil : I.Entries w [] := ⟨I.empty, nofun⟩

theorem Entries.mono (h : I.Entries w ps) (later : I.later w w') : I.Entries w' ps :=
  ⟨h.1, fun p mem => I.mono later (h.2 p mem)⟩

theorem Entries.insert (h : I.Entries w ps) (key : String) (hv : I.value w v) : I.Entries w (ps.insert key v) := by
  refine ⟨I.insert key v h.1, fun p mem => ?_⟩
  rcases Properties.mem_insert mem with rfl | mem
  · exact hv
  · exact h.2 p mem

theorem Entries.ofList {entries : List (String × Value)} (h : ∀ p ∈ entries, I.value w p.2) :
    I.Entries w (.ofList entries) := by
  have onto {done : Properties} (hd : I.Entries w done) :
      I.Entries w (entries.foldl (fun ps entry => ps.insert entry.1 entry.2) done) := by
    induction entries generalizing done with
    | nil => exact hd
    | cons p rest ih =>
      obtain ⟨first, others⟩ := List.forall_mem_cons.1 h
      exact ih others (hd.insert p.1 first)
  exact onto .nil

theorem Entries.get? {key : String} (h : I.Entries w ps) (found : ps.get? key = some v) : I.value w v :=
  h.2 _ (Properties.mem_of_get? found)

end Invariant

/-- The machine inside another number of calls. -/
def Machine.atDepth (m : Machine) (d : Nat) : Machine := { m with frame := ⟨m.frame.scope, d⟩ }

namespace Machine

variable (m : Machine) (d : Nat)

@[simp] theorem scopes_atDepth : (m.atDepth d).scopes = m.scopes := rfl

@[simp] theorem scope_atDepth : (m.atDepth d).frame.scope = m.frame.scope := rfl

@[simp] theorem host_atDepth : (m.atDepth d).host = m.host := rfl

end Machine

variable {W : Type} {I : Invariant W} {w w' : W} {α β : Type}

/-- Two runs end alike inside different numbers of calls, and the invariant holds after them, in a later world. -/
inductive Invariant.Ended (I : Invariant W) (w : W) (R : W → α → Prop) (d : Nat) :
    EStateM.Result Halt Machine α → EStateM.Result Halt Machine α → Prop
  | ok {w' : W} {a : α} {n : Machine} (later : I.later w w') (good : R w' a) (holds : I.Holds w' n)
    (level : 0 < d ↔ 0 < n.frame.depth) : Ended I w R d (.ok a n) (.ok a (n.atDepth d))
  | error {w' : W} {halt : Halt} {n : Machine} (later : I.later w w') (holds : I.Holds w' n)
    (level : 0 < d ↔ 0 < n.frame.depth) : Ended I w R d (.error halt n) (.error halt (n.atDepth d))

namespace Run

/-- A run upholds an invariant in a world. -/
def Upholds (I : Invariant W) (w : W) (R : W → α → Prop) (x : Run α) : Prop :=
  ∀ m d, I.Holds w m → (0 < d ↔ 0 < m.frame.depth) → I.Ended w R d (x m) (x (m.atDepth d))

namespace Upholds

variable {R : W → α → Prop} {S : W → β → Prop} {x : Run α} {f : α → Run β} {v : Value}

theorem pure {a : α} (h : R w a) : Upholds I w R (Pure.pure a) := fun _ _ hm level => .ok (I.refl _) h hm level

/-- After a run that upholds the invariant it holds, in a later world, however the run ends. -/
theorem after (h : x.Upholds I w R) {m : Machine} (hm : I.Holds w m) :
    ∃ w', I.later w w' ∧ I.Holds w' (x.after m) ∧ ∀ a n, x m = .ok a n → R w' a := by
  have ended := h m m.frame.depth hm Iff.rfl
  unfold Run.after
  generalize x m = end₁, x (m.atDepth m.frame.depth) = end₂ at ended
  cases ended with
  | @ok w' a n later good hn _ =>
    refine ⟨w', later, hn, ?_⟩
    rintro _ _ ⟨⟩
    exact good
  | @error w' halt n later hn _ => exact ⟨w', later, hn, nofun⟩

theorem raise (span : Span) (fault : RuntimeFault) : Upholds I w R (Run.raise span fault) :=
  fun _ _ hm level => .error (I.refl _) hm level

theorem outOfFuel : Upholds I w R Run.outOfFuel := fun _ _ hm level => .error (I.refl _) hm level

theorem bind (h : x.Upholds I w R) (k : ∀ {w'}, I.later w w' → ∀ a, R w' a → (f a).Upholds I w' S) :
    (x >>= f).Upholds I w S := by
  intro m d hm level
  have first := h m d hm level
  rw [bind_run, bind_run]
  generalize x m = end₁, x (m.atDepth d) = end₂ at first
  cases first with
  | @ok w' a n le good hn level =>
    have second := k le a good n d hn level
    dsimp only
    generalize f a n = end₁, f a (n.atDepth d) = end₂ at second
    cases second with
    | ok le' good hn level => exact .ok (I.trans le le') good hn level
    | error le' hn level => exact .error (I.trans le le') hn level
  | error le hn level => exact .error le hn level

theorem map {c : α → β} (h : x.Upholds I w R) (k : ∀ {w'} a, R w' a → S w' (c a)) :
    (c <$> x).Upholds I w S := by
  rw [map_eq_pure_bind]
  exact h.bind fun _ a good => pure (k a good)

/-- A run in a frame that depends on the present one only by the number of calls, and on this only as far as it is
zero or not. -/
theorem giveBack {y : Run α} {scope : ScopeId} (depth : Nat → Nat) (h : x.Upholds I w R)
    (level : ∀ {d d'}, (0 < d ↔ 0 < d') → (0 < depth d ↔ 0 < depth d'))
    (run : ∀ m, y m = Run.giveBack m.frame (x { m with frame := ⟨scope, depth m.frame.depth⟩ })) :
    y.Upholds I w R := by
  intro m d hm same
  let inside : Machine := { m with frame := ⟨scope, depth m.frame.depth⟩ }
  have inner := h inside (depth d) ⟨hm.bound, hm.fresh⟩ (level same)
  rw [run, run]
  change I.Ended w R d (Run.giveBack m.frame (x inside))
    (Run.giveBack (m.atDepth d).frame (x (inside.atDepth (depth d))))
  generalize x inside = end₁, x (inside.atDepth (depth d)) = end₂ at inner
  cases inner with
  | ok le good hn _ => exact .ok le good ⟨hn.bound, hn.fresh⟩ same
  | error le hn _ => exact .error le ⟨hn.bound, hn.fresh⟩ same

theorem withFrame (frame : Frame) (h : x.Upholds I w R) : (Run.withFrame frame x).Upholds I w R :=
  h.giveBack (fun _ => frame.depth) (fun _ => Iff.rfl) (withFrame_run frame x)

theorem within (scope : ScopeId) (h : x.Upholds I w R) : (Run.within scope x).Upholds I w R :=
  h.giveBack id id (within_run scope x)

theorem inCall (scope : ScopeId) (h : x.Upholds I w R) : (Run.inCall scope x).Upholds I w R :=
  h.giveBack (· + 1) (fun _ => by simp) (inCall_run scope x)

theorem fromSource (span : Span) (h : x.Upholds I w R) : (Run.fromSource span x).Upholds I w R := by
  intro m d hm level
  have inner := h m d hm level
  unfold Run.fromSource
  generalize x m = end₁, x (m.atDepth d) = end₂ at inner
  cases inner with
  | ok le good hn level => exact .ok le good hn level
  | @error _ halt _ le hn level => cases halt <;> exact .error le hn level

/-! ### The single operations -/

/-- What comes of an operation that says nothing about the machine. -/
theorem settle (span : Span) {u : Except RuntimeFault α} (h : ∀ a, u = .ok a → R w a) :
    Upholds I w R (Run.settle span u) := by
  cases u with
  | error fault => exact raise span fault
  | ok a => exact pure (h a rfl)

theorem settle_any (span : Span) (u : Except RuntimeFault α) :
    Upholds I w (fun _ _ => True) (Run.settle span u) :=
  settle span fun _ _ => trivial

theorem here : Upholds I w (fun _ _ => True) Run.here := fun _ _ hm level => .ok (I.refl _) trivial hm level

theorem newScope (parent : ScopeId) : Upholds I w (fun _ _ => True) (Run.newScope parent) :=
  fun _ _ hm level => .ok (I.refl _) trivial ⟨hm.bound.push _, hm.fresh⟩ level

theorem lookupFrom (scope : ScopeId) (name : String) (span : Span) :
    Upholds I w I.value (Run.lookupFrom scope name span) :=
  fun m d hm level => settle span (fun _ found => hm.bound.value found) m d hm level

theorem lookup (name : String) (span : Span) : Upholds I w I.value (Run.lookup name span) :=
  fun m d hm level => lookupFrom m.frame.scope name span m d hm level

theorem declareIn (scope : ScopeId) (name : String) (hv : I.value w v) (constant strict : Bool) (span : Span) :
    Upholds I w I.value (Run.declareIn scope name v constant strict span) := by
  intro m d hm level
  unfold Run.declareIn
  rw [Machine.scopes_atDepth]
  split
  · exact .error (I.refl _) hm level
  · exact .ok (I.refl _) hv ⟨hm.bound.update ((hm.bound scope).set hv name), hm.fresh⟩ level

theorem reassign (name : String) (hv : I.value w v) (span : Span) :
    Upholds I w I.value (Run.reassign name v span) := by
  intro m d hm level
  unfold Run.reassign
  rw [Machine.scopes_atDepth, Machine.scope_atDepth]
  cases m.scopes.writable m.frame.scope name with
  | error fault => exact .error (I.refl _) hm level
  | ok owner => exact .ok (I.refl _) hv ⟨hm.bound.update ((hm.bound owner).setValue hv name), hm.fresh⟩ level

theorem beginPass (scope : ScopeId) : Upholds I w (fun _ _ => True) (Run.beginPass scope) :=
  fun _ _ hm level => .ok (I.refl _) trivial ⟨hm.bound.update (hm.bound scope).carry, hm.fresh⟩ level

theorem emit (e : Event) : Upholds I w (fun _ _ => True) (Run.emit e) :=
  fun _ _ hm level => .ok (I.refl _) trivial ⟨hm.bound, hm.fresh⟩ level

theorem answer : Upholds I w (fun _ _ => True) Run.answer := by
  intro m d hm level
  unfold Run.answer
  rw [Machine.host_atDepth]
  cases m.host.answer with
  | error request => exact .error (I.refl _) hm level
  | ok found => exact .ok (I.refl _) trivial ⟨hm.bound, hm.fresh⟩ level

theorem file (path : String) : Upholds I w (fun _ _ => True) (Run.file path) := by
  intro m d hm level
  unfold Run.file
  rw [Machine.host_atDepth]
  cases m.host.file path with
  | error request => exact .error (I.refl _) hm level
  | ok found => exact .ok (I.refl _) trivial hm level

theorem clock : Upholds I w (fun _ _ => True) Run.clock := by
  intro m d hm level
  unfold Run.clock
  rw [Machine.host_atDepth]
  cases m.host.clock with
  | error request => exact .error (I.refl _) hm level
  | ok found => exact .ok (I.refl _) trivial ⟨hm.bound, hm.fresh⟩ level

/-- A new stamp is for a value that is made. -/
theorem newStamp (mk : Stamp → Value) {f : Stamp → Run β} (made : ∀ k, (mk k).Made I.shape (I.value w) k)
    (next : ∀ {w'}, I.later w w' → ∀ k, I.value w' (mk k) → (f k).Upholds I w' S) :
    (Run.newStamp >>= f).Upholds I w S := by
  intro m d hm level
  obtain ⟨w', le, good, fresh⟩ := I.make hm.fresh (made m.stamps)
  let counted : Machine := { m with stamps := m.stamps + 1 }
  have hn : I.Holds w' counted := ⟨fun id x b found => I.mono le (hm.bound id x b found), fresh⟩
  have rest := next le m.stamps good counted d hn level
  have first : (Run.newStamp >>= f) m = f m.stamps counted := bind_of_ok rfl
  have second : (Run.newStamp >>= f) (m.atDepth d) = f m.stamps (counted.atDepth d) := bind_of_ok rfl
  rw [first, second]
  generalize f m.stamps counted = end₁, f m.stamps (counted.atDepth d) = end₂ at rest
  cases rest with
  | ok le' good hn level => exact .ok (I.trans le le') good hn level
  | error le' hn level => exact .error (I.trans le le') hn level

theorem newArray {vs : List Value} (h : I.Elements w vs) : (Run.newArray vs).Upholds I w I.value :=
  newStamp (fun k => .array k vs) (fun _ => .array h) fun _ _ made => pure made

theorem newObject {ps : Properties} (h : I.Entries w ps) : (Run.newObject ps).Upholds I w I.value :=
  newStamp (fun k => .object k ps) (fun _ => .object h.1 h.2) fun _ _ made => pure made

end Upholds

end Run

end ScriptLang
