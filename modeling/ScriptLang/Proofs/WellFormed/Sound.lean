/-
# ScriptLang.Proofs.WellFormed.Sound — values and machines that hold well-formed code only.

A value keeps code when it is a function or a class, or has one inside.  A value is sound if all code in it
keeps the rules of the reader, and a machine is if all values that its scopes bind are.  Two runs are secure
together if they do the same on every sound machine, and leave a sound machine and a sound value: that is
how two evaluators are compared that differ only in what they do with code that breaks the rules.
-/
import ScriptLang.Eval
import ScriptLang.Proofs.Run
import ScriptLang.Proofs.Scope.Path
import ScriptLang.Proofs.Syntax.Spelling

namespace ScriptLang

/-! ## Values -/

/-- All code in the value keeps the rules of the reader. -/
inductive Value.Sound : Value → Prop
  | null : Sound .null
  | number (x : Float) : Sound (.number x)
  | string (s : String) : Sound (.string s)
  | bool (b : Bool) : Sound (.bool b)
  | array (stamp : Stamp) {vs : List Value} : (∀ v ∈ vs, Sound v) → Sound (.array stamp vs)
  | object (stamp : Stamp) {ps : List (String × Value)} : (∀ p ∈ ps, Sound p.2) → Sound (.object stamp ps)
  | function {f : Function} : f.declaration.isWellFormed → Sound (.function f)
  | native (stamp : Stamp) (n : Native) : Sound (.native stamp n)
  | classValue {c : Class} : (∀ layer ∈ c.toClassLayer :: c.ancestors, layer.declaration.isWellFormed) →
    Sound (.classValue c)

/-- All values among the properties are sound. -/
def Properties.Sound (ps : Properties) : Prop := ∀ p ∈ ps, p.2.Sound

theorem Properties.sound_nil : Properties.Sound [] := List.forall_mem_nil _

theorem Properties.sound_of_get? {ps : Properties} {key : String} {v : Value} (h : ps.Sound)
    (found : Properties.get? key ps = some v) : v.Sound := by
  induction ps with
  | nil => cases found
  | cons p rest ih =>
    obtain ⟨k, w⟩ := p
    obtain ⟨first, others⟩ := List.forall_mem_cons.1 h
    unfold get? at found
    split at found
    · cases found
      exact first
    · exact ih others found

theorem Properties.Sound.insert {ps : Properties} (h : ps.Sound) (key : String) {v : Value} (hv : v.Sound) :
    Properties.Sound (Properties.insert key v ps) := by
  induction ps with
  | nil => exact List.forall_mem_cons.2 ⟨hv, sound_nil⟩
  | cons p rest ih =>
    obtain ⟨k, w⟩ := p
    obtain ⟨first, others⟩ := List.forall_mem_cons.1 h
    unfold Properties.insert
    split
    · exact List.forall_mem_cons.2 ⟨hv, others⟩
    · split
      · exact List.forall_mem_cons.2 ⟨hv, h⟩
      · exact List.forall_mem_cons.2 ⟨first, ih others⟩

/-- The value that a statement ends with is sound. -/
def Flow.Sound : Flow → Prop
  | .value v | .give v => v.Sound
  | .leave => True

/-! ## Machines -/

/-- All values that the scopes bind are sound. -/
def Scopes.Sound (s : Scopes) : Prop := ∀ id, ∀ p ∈ s.bindings id, p.2.value.Sound

namespace Scopes

variable {s : Scopes}

theorem Sound.value (h : s.Sound) {id : ScopeId} {name : String} {v : Value}
    (found : s.value id name = .ok v) : v.Sound := by
  have member {bs : Bindings} {b : Binding} (there : bs.get? name = some b) : (name, b) ∈ bs := by
    induction bs with
    | nil => cases there
    | cons p rest ih =>
      obtain ⟨n, c⟩ := p
      unfold Bindings.get? at there
      split at there
      · next same =>
        cases there
        exact same ▸ List.mem_cons_self
      · exact List.mem_cons_of_mem _ (ih there)
  unfold Scopes.value at found
  split at found
  · next b there =>
    cases found
    obtain ⟨owner, -, bound⟩ := Option.bind_eq_some_iff.1 there
    exact h owner _ (member bound)
  · cases found

theorem Sound.push (h : s.Sound) (parent : Option ScopeId) : (s.push parent).Sound := by
  intro id p hp
  rw [bindings_push] at hp
  exact h id p hp

theorem Sound.update (h : s.Sound) (id : ScopeId) {f : Bindings → Bindings}
    (k : ∀ bs : Bindings, (∀ p ∈ bs, p.2.value.Sound) → ∀ p ∈ f bs, p.2.value.Sound) : (s.update id f).Sound := by
  intro other p hp
  by_cases there : id < s.size
  · rw [bindings_update s id other f there] at hp
    split at hp
    · exact k _ (h id) p hp
    · exact h other p hp
  · rw [bindings_update_of_le s (Nat.not_lt.1 there)] at hp
    exact h other p hp

theorem sound_set {bs : Bindings} (h : ∀ p ∈ bs, p.2.value.Sound) (name : String) {b : Binding}
    (hb : b.value.Sound) : ∀ p ∈ bs.set name b, p.2.value.Sound := by
  induction bs with
  | nil => exact List.forall_mem_cons.2 ⟨hb, nofun⟩
  | cons p rest ih =>
    obtain ⟨n, old⟩ := p
    obtain ⟨first, others⟩ := List.forall_mem_cons.1 h
    unfold Bindings.set
    split
    · exact List.forall_mem_cons.2 ⟨hb, others⟩
    · exact List.forall_mem_cons.2 ⟨first, ih others⟩

theorem Sound.bind (h : s.Sound) (id : ScopeId) (name : String) {v : Value} (hv : v.Sound) (constant : Bool) :
    (s.bind id name v constant).Sound :=
  h.update id fun _ hbs => sound_set hbs name hv

theorem Sound.define (h : s.Sound) (id : ScopeId) (name : String) {v : Value} (hv : v.Sound)
    (constant : Bool) : (s.define id name v constant).Sound :=
  h.update id fun _ hbs => sound_set hbs name hv

theorem Sound.setValue (h : s.Sound) (id : ScopeId) (name : String) {v : Value} (hv : v.Sound) :
    (s.setValue id name v).Sound := by
  refine h.update id fun bs hbs => ?_
  induction bs with
  | nil => exact nofun
  | cons p rest ih =>
    obtain ⟨n, b⟩ := p
    obtain ⟨first, others⟩ := List.forall_mem_cons.1 hbs
    unfold Bindings.setValue
    split
    · exact List.forall_mem_cons.2 ⟨hv, others⟩
    · exact List.forall_mem_cons.2 ⟨first, ih others⟩

theorem Sound.beginPass (h : s.Sound) (id : ScopeId) : (s.beginPass id).Sound := by
  refine h.update id fun bs hbs p hp => ?_
  obtain ⟨q, hq, rfl⟩ := List.mem_map.1 hp
  exact hbs q hq

end Scopes

/-- All code that the machine holds keeps the rules of the reader. -/
def Machine.Sound (m : Machine) : Prop := m.scopes.Sound

/-! ## Runs -/

namespace Run

variable {α β : Type}

/-- A run has left a sound machine, and what it came to is as `holds` says. -/
inductive Secured (holds : α → Prop) : EStateM.Result Halt Machine α → Prop
  | ok {a : α} {n : Machine} : holds a → n.Sound → Secured holds (.ok a n)
  | error {halt : Halt} {n : Machine} : n.Sound → Secured holds (.error halt n)

/-- On every sound machine both runs do the same and keep it sound, and what they come to is as `holds`
says. -/
def Secure (holds : α → Prop) (x y : Run α) : Prop := ∀ m, m.Sound → y m = x m ∧ Secured holds (x m)

namespace Secure

variable {P : α → Prop} {Q : β → Prop} {x y : Run α}

theorem of_self (h : ∀ m, m.Sound → Secured P (x m)) : Secure P x x := fun m hm => ⟨rfl, h m hm⟩

theorem pure {a : α} (h : P a) : Secure P (Pure.pure a) (Pure.pure a) := of_self fun _ hm => .ok h hm

theorem raise (span : Span) (fault : RuntimeFault) : Secure P (Run.raise span fault) (Run.raise span fault) :=
  of_self fun _ hm => .error hm

theorem outOfFuel : Secure P Run.outOfFuel Run.outOfFuel := of_self fun _ hm => .error hm

theorem bind {f g : α → Run β} (h : Secure P x y) (k : ∀ a, P a → Secure Q (f a) (g a)) :
    Secure Q (x >>= f) (y >>= g) := by
  intro m hm
  obtain ⟨same, secured⟩ := h m hm
  rw [bind_run, bind_run, same]
  generalize x m = r at secured
  cases secured with
  | error hn => exact ⟨rfl, .error hn⟩
  | ok ha hn => exact k _ ha _ hn

theorem map (c : α → β) (h : Secure P x y) (k : ∀ a, P a → Q (c a)) : Secure Q (c <$> x) (c <$> y) := by
  rw [map_eq_pure_bind, map_eq_pure_bind]
  exact h.bind fun a ha => pure (k a ha)

theorem withFrame (f : Frame) (h : Secure P x y) : Secure P (Run.withFrame f x) (Run.withFrame f y) := by
  intro m hm
  obtain ⟨same, secured⟩ := h { m with frame := f } hm
  unfold Run.withFrame
  dsimp only at same secured ⊢
  rw [same]
  generalize x ⟨m.scopes, f, m.stamps, m.host⟩ = r at secured ⊢
  cases secured with
  | error hn => exact ⟨rfl, .error hn⟩
  | ok ha hn => exact ⟨rfl, .ok ha hn⟩

theorem frame : Secure (fun _ => True) Run.frame Run.frame := of_self fun _ hm => .ok trivial hm

theorem within (scope : ScopeId) (h : Secure P x y) : Secure P (Run.within scope x) (Run.within scope y) :=
  frame.bind fun f _ => h.withFrame { f with scope := scope }

theorem inCall (scope : ScopeId) (h : Secure P x y) : Secure P (Run.inCall scope x) (Run.inCall scope y) :=
  frame.bind fun f _ => h.withFrame ⟨scope, f.depth + 1⟩

theorem settle (span : Span) {x : Except RuntimeFault α} (h : ∀ a, x = .ok a → P a) :
    Secure P (Run.settle span x) (Run.settle span x) := by
  cases x with
  | ok a => exact pure (h a rfl)
  | error fault => exact raise span fault

theorem fromSource (span : Span) (h : Secure P x y) : Secure P (Run.fromSource span x) (Run.fromSource span y) := by
  intro m hm
  obtain ⟨same, secured⟩ := h m hm
  unfold Run.fromSource
  rw [same]
  refine ⟨rfl, ?_⟩
  generalize x m = r at secured ⊢
  cases secured with
  | ok ha hn => exact .ok ha hn
  | @error halt n hn => cases halt <;> exact .error hn

/-! ### The single operations -/

theorem here : Secure (fun _ => True) Run.here Run.here := of_self fun _ hm => .ok trivial hm

theorem newStamp : Secure (fun _ => True) Run.newStamp Run.newStamp := of_self fun _ hm => .ok trivial hm

theorem newScope (parent : ScopeId) : Secure (fun _ => True) (Run.newScope parent) (Run.newScope parent) :=
  of_self fun _ hm => .ok trivial (Scopes.Sound.push hm _)

theorem lookupFrom (scope : ScopeId) (name : String) (span : Span) :
    Secure Value.Sound (Run.lookupFrom scope name span) (Run.lookupFrom scope name span) := by
  intro m hm
  exact settle span (fun v found => Scopes.Sound.value hm found) m hm

theorem lookup (name : String) (span : Span) :
    Secure Value.Sound (Run.lookup name span) (Run.lookup name span) :=
  fun m => lookupFrom m.frame.scope name span m

theorem declareIn (scope : ScopeId) (name : String) {v : Value} (hv : v.Sound) (constant strict : Bool)
    (span : Span) : Secure Value.Sound (Run.declareIn scope name v constant strict span)
      (Run.declareIn scope name v constant strict span) := by
  refine of_self fun m hm => ?_
  unfold Run.declareIn
  split
  · exact .error hm
  · exact .ok hv (Scopes.Sound.bind hm scope name hv constant)

theorem reassign (name : String) {v : Value} (hv : v.Sound) (span : Span) :
    Secure Value.Sound (Run.reassign name v span) (Run.reassign name v span) := by
  refine of_self fun m hm => ?_
  unfold Run.reassign
  split
  · exact .ok hv (Scopes.Sound.setValue hm _ name hv)
  · exact .error hm

theorem beginPass (scope : ScopeId) : Secure (fun _ => True) (Run.beginPass scope) (Run.beginPass scope) :=
  of_self fun _ hm => .ok trivial (Scopes.Sound.beginPass hm scope)

theorem emit (e : Event) : Secure (fun _ => True) (Run.emit e) (Run.emit e) := of_self fun _ hm => .ok trivial hm

theorem answer : Secure (fun _ => True) Run.answer Run.answer := by
  refine of_self fun m hm => ?_
  unfold Run.answer
  split
  · exact .ok trivial hm
  · exact .error hm

theorem file (path : String) : Secure (fun _ => True) (Run.file path) (Run.file path) := by
  refine of_self fun m hm => ?_
  unfold Run.file
  split
  · exact .ok trivial hm
  · exact .error hm

theorem clock : Secure (fun _ => True) Run.clock Run.clock := by
  refine of_self fun m hm => ?_
  unfold Run.clock
  split
  · exact .ok trivial hm
  · exact .error hm

theorem newArray {vs : List Value} (h : ∀ v ∈ vs, v.Sound) : Secure Value.Sound (Run.newArray vs) (Run.newArray vs) :=
  newStamp.bind fun stamp _ => pure (.array stamp h)

theorem newObject {ps : Properties} (h : ps.Sound) : Secure Value.Sound (Run.newObject ps) (Run.newObject ps) :=
  newStamp.bind fun stamp _ => pure (.object stamp h)

end Secure

end Run

/-! ## The global scope -/

namespace Builtin

open Run (Secure)

theorem defineGlobal_secure (name : String) {v : Value} (hv : v.Sound) (constant : Bool) :
    Secure (fun _ => True) (defineGlobal name v constant) (defineGlobal name v constant) :=
  .of_self fun _ hm => .ok trivial (Scopes.Sound.define hm 0 name hv constant)

theorem defineFunctions_secure (ns : List Native) : Secure (fun _ => True)
    (ns.forM fun n => do defineGlobal n.name (.native (← Run.newStamp) n) true)
    (ns.forM fun n => do defineGlobal n.name (.native (← Run.newStamp) n) true) := by
  induction ns with
  | nil => exact .pure trivial
  | cons n rest ih =>
    refine Secure.bind (P := fun _ => True) ?_ fun _ _ => ih
    exact Secure.newStamp.bind fun stamp _ => defineGlobal_secure _ (.native stamp n) true

theorem stampFunctions_secure (entries : List (String × Native)) : Secure Properties.Sound
    (entries.mapM fun (key, n) => do return (key, Value.native (← Run.newStamp) n))
    (entries.mapM fun (key, n) => do return (key, Value.native (← Run.newStamp) n)) := by
  induction entries with
  | nil => exact .pure nofun
  | cons entry rest ih =>
    rw [List.mapM_cons]
    have first : Secure (fun p : String × Value => p.2.Sound)
        (do return (entry.1, Value.native (← Run.newStamp) entry.2))
        (do return (entry.1, Value.native (← Run.newStamp) entry.2)) :=
      Secure.newStamp.bind fun stamp _ => .pure (.native stamp entry.2)
    exact first.bind fun p hp => ih.bind fun ps hps => .pure (List.forall_mem_cons.2 ⟨hp, hps⟩)

theorem ofList_sound {entries : List (String × Value)} (h : Properties.Sound entries) :
    (Properties.ofList entries).Sound := by
  have onto {done : Properties} (hd : done.Sound) :
      Properties.Sound (entries.foldl (fun ps entry => ps.insert entry.1 entry.2) done) := by
    induction entries generalizing done with
    | nil => exact hd
    | cons p rest ih =>
      obtain ⟨first, others⟩ := List.forall_mem_cons.1 h
      exact ih others (hd.insert p.1 first)
  exact onto Properties.sound_nil

theorem defineGlobals_secure : Secure (fun _ => True) defineGlobals defineGlobals := by
  refine (defineGlobal_secure _ (.bool true) true).bind fun _ _ => ?_
  refine (defineGlobal_secure _ (.bool false) true).bind fun _ _ => ?_
  refine (defineGlobal_secure _ .null true).bind fun _ _ => ?_
  refine (defineFunctions_secure _).bind fun _ _ => (stampFunctions_secure _).bind fun functions hf => ?_
  refine (Secure.newObject (ofList_sound hf)).bind fun v hv => (defineGlobal_secure _ hv true).bind fun _ _ => ?_
  exact (Secure.newObject Properties.sound_nil).bind fun w hw => defineGlobal_secure _ hw false

end Builtin

/-- The machine with the global scope holds no code of programs. -/
theorem Machine.initial_sound (host : Host) : (Machine.initial host).Sound := by
  have blank : (Machine.blank host).Sound := Scopes.Sound.push (by intro id p hp; cases hp) none
  obtain ⟨-, secured⟩ := Builtin.defineGlobals_secure _ blank
  unfold Machine.initial
  generalize Builtin.defineGlobals (Machine.blank host) = r at secured
  cases secured with
  | ok _ hn => exact hn
  | error hn => exact hn

end ScriptLang
