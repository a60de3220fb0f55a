/-
# ScriptLang.Proofs.Alike.Source — whole sources that run alike.

The machine that programs begin on is alike to itself, under any likeness that admits what it binds; and
a source that is read as a program comes, from machines that are alike, to outcomes that are alike.
-/
import ScriptLang.Proofs.Alike.Expression
import ScriptLang.Proofs.Token.Pieces

namespace ScriptLang

variable {L : Likeness}

/-! ## The global scope -/

namespace Builtin

open Run

theorem defineGlobal_alike (name : String) {v v' : Value} (hv : L.names name → v.Alike L v')
    (constant : Bool) :
    Run.Alike L Eq (defineGlobal name v constant) (defineGlobal name v' constant) :=
  fun _ _ hm =>
    .ok rfl ⟨hm.scopes.define 0 name hv constant, hm.frame, hm.stamps, hm.host, hm.admits⟩

theorem defineFunctions_alike {natives : List Native} (h : ∀ n ∈ natives, L.names n.name → L.natives n) :
    Run.Alike L Eq
      (natives.forM fun n => do defineGlobal n.name (.native (← newStamp) n) true)
      (natives.forM fun n => do defineGlobal n.name (.native (← newStamp) n) true) := by
  induction natives with
  | nil => exact .pure rfl
  | cons n rest ih =>
    obtain ⟨hn, hr⟩ := List.forall_mem_cons.1 h
    refine Alike.bind_eq ?_ fun _ => ih hr
    exact Alike.newStamp.bind_eq fun stamp => defineGlobal_alike _ (fun named => .native (hn named)) true

theorem stampFunctions_alike {entries : List (String × Native)} (h : ∀ entry ∈ entries, L.natives entry.2) :
    Run.Alike L (List.Forall₂ (Entry.Alike L))
      (entries.mapM fun (key, n) => do return (key, Value.native (← newStamp) n))
      (entries.mapM fun (key, n) => do return (key, Value.native (← newStamp) n)) := by
  induction entries with
  | nil => exact .pure .nil
  | cons entry rest ih =>
    obtain ⟨hn, hr⟩ := List.forall_mem_cons.1 h
    rw [List.mapM_cons]
    have first : Run.Alike L (Entry.Alike L)
        (do return (entry.1, Value.native (← newStamp) entry.2))
        (do return (entry.1, Value.native (← newStamp) entry.2)) :=
      Alike.newStamp.bind_eq fun stamp => .pure (.mk (.native hn))
    exact first.bind fun e e' he => (ih hr).bind fun es es' hes => .pure (.cons he hes)

theorem ofList_alike {entries entries' : List (String × Value)}
    (h : List.Forall₂ (Entry.Alike L) entries entries') {done done' : Properties}
    (hd : done.Alike L done') :
    Properties.Alike L (entries.foldl (fun ps (key, value) => ps.insert key value) done)
      (entries'.foldl (fun ps (key, value) => ps.insert key value) done') := by
  induction h generalizing done done' with
  | nil => exact hd
  | cons first rest ih =>
    cases first with
    | mk hv => exact ih (hd.insert _ hv)

/-- Every global name is bound to a value that is alike to itself. -/
theorem defineGlobals_alike (global : ∀ n ∈ globalFunctions, L.names n.name → L.natives n)
    (object : ∀ entry ∈ objectFunctions, L.natives entry.2) :
    Run.Alike L Eq defineGlobals defineGlobals := by
  refine (defineGlobal_alike _ (fun _ => .bool true) true).bind_eq fun _ => ?_
  refine (defineGlobal_alike _ (fun _ => .bool false) true).bind_eq fun _ => ?_
  refine (defineGlobal_alike _ (fun _ => .null) true).bind_eq fun _ => ?_
  refine (defineFunctions_alike global).bind_eq fun _ => ?_
  refine (stampFunctions_alike object).bind fun functions functions' hf => ?_
  refine (Alike.newObject (ofList_alike hf .nil)).bind fun v v' hv => ?_
  refine (defineGlobal_alike _ (fun _ => hv) true).bind_eq fun _ => ?_
  exact (Alike.newObject .nil).bind fun w w' hw => defineGlobal_alike _ (fun _ => hw) false

end Builtin

theorem Machine.blank_alike {host : Host} (admits : host.Admits L) :
    (Machine.blank host).Alike L (Machine.blank host) := by
  refine ⟨⟨rfl, fun _ => rfl, fun id name _ => ?_⟩, rfl, rfl, rfl, admits⟩
  unfold Machine.blank Bindings.Alike
  rw [Scopes.bindings_push]
  exact .none

/-- The machine that programs begin on is alike to itself. -/
theorem Machine.initial_alike {host : Host} (admits : host.Admits L)
    (global : ∀ n ∈ Builtin.globalFunctions, L.names n.name → L.natives n)
    (object : ∀ entry ∈ Builtin.objectFunctions, L.natives entry.2) :
    (Machine.initial host).Alike L (Machine.initial host) := by
  have defined := Builtin.defineGlobals_alike global object _ _ (blank_alike admits)
  unfold Machine.initial
  generalize Builtin.defineGlobals (blank host) = ended at defined
  cases defined with
  | ok h hm => exact hm
  | error h hm => exact hm

/-! ## Sources -/

/-- Failures of sources that differ only in places: the same failure before the run, or alike in it. -/
inductive Error.Alike (L : Likeness) : Error → Error → Prop
  | read {e : Error} (h : e.label ≠ "runtime") : Error.Alike L e e
  | runtime {s s' : Span} {fault fault' : RuntimeFault} (hs : L.spans s s')
    (hf : fault'.bare = fault.bare) : Error.Alike L (.runtime s fault) (.runtime s' fault')

/-- Outcomes of sources that differ only in places. -/
inductive Outcome.Alike (L : Likeness) : Outcome → Outcome → Prop
  | value {v v' : Value} (h : v.Alike L v') : Outcome.Alike L (.value v) (.value v')
  | failed {e e' : Error} (h : e.Alike L e') : Outcome.Alike L (.failed e) (.failed e')
  | waiting (request : Request) : Outcome.Alike L (.waiting request) (.waiting request)
  | outOfFuel : Outcome.Alike L .outOfFuel .outOfFuel

/-- What comes of a source whose program ended in some way. -/
def Outcome.ofResult : EStateM.Result Halt Machine Value → Outcome × Machine
  | .ok v m => (.value v, m)
  | .error (.raised e) m => (.failed e.toError, m)
  | .error (.waiting request) m => (.waiting request, m)
  | .error .outOfFuel m => (.outOfFuel, m)

theorem Machine.run_of_parse {source : String} {p : Program}
    (h : Program.ofSource? source = .ok p) (n : Nat) (m : Machine) :
    m.run n source = Outcome.ofResult (Run.inProgram m.frame.scope (Eval.program (.bounded n) p) m) := by
  cases ran : Run.inProgram m.frame.scope (Eval.program (.bounded n) p) m with
  | ok v after => simp only [Machine.run, h, ran, Outcome.ofResult]
  | error halt after => cases halt <;> simp only [Machine.run, h, ran, Outcome.ofResult]

theorem Outcome.ofResult_alike {r r' : EStateM.Result Halt Machine Value}
    (h : Ended L (Value.Alike L) r r') :
    (ofResult r).1.Alike L (ofResult r').1 ∧ (ofResult r).2.Alike L (ofResult r').2 := by
  cases h with
  | ok hv hm => exact ⟨.value hv, hm⟩
  | error he hm =>
    cases he with
    | raised hs hf => exact ⟨.failed (.runtime hs hf), hm⟩
    | waiting request => exact ⟨.waiting request, hm⟩
    | outOfFuel => exact ⟨.outOfFuel, hm⟩

/-- A source whose program is alike to itself runs alike on machines that are alike. -/
theorem Machine.run_alike (lawful : L.Lawful) {source : String}
    (h : ∀ p, Program.ofSource? source = .ok p → p.Alike L p) (n : Nat) {m m' : Machine}
    (hm : m.Alike L m') :
    (m.run n source).1.Alike L (m'.run n source).1 ∧ (m.run n source).2.Alike L (m'.run n source).2 := by
  cases read : Program.ofSource? source with
  | error e =>
    unfold Machine.run
    rw [read]
    refine ⟨.failed (.read ?_), hm⟩
    -- nothing has run, so the failure is of another stage
    unfold Program.ofSource? at read
    split at read
    · cases read
      simp [Error.label]
    · split at read
      · cases read
        simp [Error.label]
      · cases read
  | ok p =>
    rw [run_of_parse read, run_of_parse read, hm.frame]
    apply Outcome.ofResult_alike
    have program := Eval.program_alike (Evaluator.bounded_alike lawful n) lawful.result (h p read)
    exact program.withFrame ⟨m.frame.scope, 0⟩ m m' hm

/-- A program that was read from tokens has only spans of these tokens: it stays as it is when all other
spans are sent elsewhere. -/
theorem Program.relocate_eq_self {source : String} {ts : List Token} {p : Program}
    (scanned : Token.scan source = .ok ts) (read : Program.ofSource? source = .ok p) {f : Span → Span}
    (hf : ∀ t ∈ ts, f t.span = t.span) : p.map (Stmt.relocate f) = p := by
  have some : ts ≠ [] := (Token.scans_of_scanFrom scanned).ne_nil
  have relocated := Program.ofTokens?_eq_self some hf
  obtain ⟨ts', scanned', spelled⟩ := ofSource?_eq_ok read
  cases scanned.symm.trans scanned'
  rw [spelled] at relocated
  exact (Except.ok.inj relocated).symm

end ScriptLang
