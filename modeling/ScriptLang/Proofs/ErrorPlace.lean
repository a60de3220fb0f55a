/-
# ScriptLang.Proofs.ErrorPlace — where the errors of a session point.

A function keeps the tree that it was declared with, and a tree keeps the spans of its tokens.  So when a
function that came from one source fails while another source runs, the error points into the first.  What
holds of a session is that a runtime error points at a token of some source read so far: one of the inputs
up to the present one, or a file that the host holds.  Texts that programs put together and evaluate
themselves are left out.

The proof runs a session beside itself, under the likeness that lets only the spans of these sources stand,
each for itself.
-/
import ScriptLang.Proofs.Alike.Source

namespace ScriptLang

/-- The spans of the tokens of a source; none if it cannot be cut. -/
def Token.spansOf (source : String) : List Span :=
  match Token.scan source with
  | .ok ts => ts.map Token.span
  | .error _ => []

/-- A file that can be read holds a given text. -/
def Host.Holds (h : Host) (text : String) : Prop := ∃ path, h.file path = .ok (.ok text)

/-- The span of the runtime error that an outcome is, if it is one. -/
def Outcome.runtimeSpan? : Outcome → Option Span
  | .failed (.runtime span _) => some span
  | _ => none

/-- The likeness that admits only the places of given sources, and nothing called `evaluate`. -/
def Likeness.placesOf (sources : String → Prop) : Likeness where
  spans s s' := s = s' ∧ ∃ source, sources source ∧ s ∈ Token.spansOf source
  names := (· ≠ Native.evaluate.name)
  natives := (· ≠ .evaluate)
  sources := sources

section

variable {sources : String → Prop}

/-- A program has only the places of its source. -/
theorem Program.alike_placesOf {source : String} {p : Program} (read : Program.ofSource? source = .ok p)
    (given : sources source) (unnamed : Native.evaluate.name ∉ (Program.spelledBy source).names) :
    p.Alike (.placesOf sources) p := by
  obtain ⟨ts, scanned, -⟩ := ofSource?_eq_ok read
  have spans : Token.spansOf source = ts.map Token.span := by
    simp [Token.spansOf, scanned]
  have some : ts ≠ [] := (Token.scans_of_scanFrom scanned).ne_nil
  obtain ⟨f, fixed, inside⟩ := Token.exists_into_spans some
  rw [← Program.relocate_eq_self scanned read fixed]
  apply Program.relocate_alike
  · intro s
    obtain ⟨t, ht, at_⟩ := inside s
    refine ⟨rfl, source, given, ?_⟩
    rw [spans, ← at_]
    exact List.mem_map_of_mem ht
  · intro x hx he
    apply unnamed
    rw [Program.spelledBy_of_read read]
    exact he ▸ hx

theorem Likeness.placesOf_lawful
    (unnamed : ∀ source, sources source → Native.evaluate.name ∉ (Program.spelledBy source).names) :
    (Likeness.placesOf sources).Lawful where
  result := show Builtin.resultObject ≠ Native.evaluate.name by decide
  evaluates h := absurd rfl h
  nested text p given read := Program.alike_placesOf read given (unnamed text given)

theorem Machine.initial_placesOf (host : Host) (held : ∀ text, host.Holds text → sources text) :
    (Machine.initial host).Alike (.placesOf sources) (Machine.initial host) := by
  apply Machine.initial_alike
  · exact fun path text h => held text ⟨path, h⟩
  · intro n _ named
    exact fun he => named (congrArg Native.name he)
  · exact show ∀ entry ∈ Builtin.objectFunctions, entry.2 ≠ .evaluate by decide

/-- Each step of a session of the sources ends, if with a runtime error, then at one of their places. -/
theorem Machine.session_placesOf
    (unnamed : ∀ source, sources source → Native.evaluate.name ∉ (Program.spelledBy source).names) (n : Nat)
    {inputs : List String} (given : ∀ source ∈ inputs, sources source) {m : Machine}
    (hm : m.Alike (.placesOf sources) m) :
    ∀ step ∈ m.session n inputs, ∀ span ∈ step.1.runtimeSpan?,
      ∃ source, sources source ∧ span ∈ Token.spansOf source := by
  induction inputs generalizing m with
  | nil => exact nofun
  | cons input rest ih =>
    obtain ⟨hi, hr⟩ := List.forall_mem_cons.1 given
    have ran := Machine.run_alike (Likeness.placesOf_lawful unnamed)
      (fun p read => Program.alike_placesOf read hi (unnamed input hi)) n hm
    intro step hs span at_
    rcases List.mem_cons.1 hs with rfl | hs
    · have outcome := ran.1
      generalize (m.run n input).1 = o at outcome at_
      cases outcome with
      | @failed e _ h =>
        cases h with
        | read h =>
          cases e with
          | runtime => exact absurd rfl h
          | scan | parse => cases at_
        | runtime hs =>
          obtain ⟨-, place⟩ := hs
          cases at_
          exact place
      | _ => cases at_
    · exact ih hr ran.2 step hs span at_

end

/-- The steps of a session do not depend on the inputs after them. -/
theorem Machine.session_take (n : Nat) {inputs : List String} {m : Machine} {k j : Nat} (h : k < j) :
    (m.session n (inputs.take j))[k]? = (m.session n inputs)[k]? := by
  induction inputs generalizing m k j with
  | nil => rw [List.take_nil]
  | cons input rest ih =>
    obtain ⟨j, rfl⟩ := Nat.exists_eq_succ_of_ne_zero (Nat.ne_zero_of_lt h)
    cases k with
    | zero => rfl
    | succ k => exact ih (Nat.lt_of_succ_lt_succ h)

/-- A step of a session that ends with a runtime error.  The error points at a token of an input up to
this step, or of a file that the host holds, where none of these sources names `evaluate`. -/
theorem runtime_error_points_into_source_so_far (n : Nat) (host : Host) (inputs : List String) {k : Nat}
    {span : Span}
    (unnamed : ∀ source, source ∈ inputs.take (k + 1) ∨ host.Holds source →
      Native.evaluate.name ∉ (Program.spelledBy source).names)
    (failed : (((Machine.initial host).session n inputs)[k]?.bind fun step => step.1.runtimeSpan?) =
      some span) :
    ∃ source, (source ∈ inputs.take (k + 1) ∨ host.Holds source) ∧ span ∈ Token.spansOf source := by
  rw [← Machine.session_take n (Nat.lt_succ_self k)] at failed
  obtain ⟨step, found, at_⟩ := Option.bind_eq_some_iff.1 failed
  have initial := Machine.initial_placesOf host
    fun source held => (.inr held : source ∈ inputs.take (k + 1) ∨ host.Holds source)
  have given := Machine.session_placesOf unnamed n (fun _ => .inl) initial
  exact given step (List.mem_of_getElem? found) span at_

/-- A session whose second input calls a function of the first. -/
def unboundSession : List String := ["function f() { return y }", "f()"]

theorem unboundSession_points_into_source_so_far :
    ∃ source, (source ∈ unboundSession.take 2 ∨ (Host.closed [] [] 0.0).Holds source) ∧
      (⟨1, 23, 1⟩ : Span) ∈ Token.spansOf source := by
  apply runtime_error_points_into_source_so_far 20 (Host.closed [] [] 0.0) unboundSession (k := 1)
  · rintro source (given | ⟨path, held⟩)
    · have : ∀ source ∈ unboundSession.take 2,
          Native.evaluate.name ∉ (Program.spelledBy source).names := by decide +kernel
      exact this source given
    · cases held
  · decide +kernel

/-- The error of the second input points at no token of it. -/
theorem unboundSession_points_elsewhere :
    (((Machine.initial (.closed [] [] 0.0)).session 20 unboundSession)[1]?.bind fun step =>
        step.1.runtimeSpan?) = some ⟨1, 23, 1⟩ ∧
      ⟨1, 23, 1⟩ ∉ Token.spansOf "f()" := by
  decide +kernel

end ScriptLang
