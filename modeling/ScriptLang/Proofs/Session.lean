/-
# ScriptLang.Proofs.Session — a session is one script.

Sources that are read one after another in a session do what one script does that has them all, each on
lines of its own with a semicolon on a line between it and the next.  The script is read as the programs
of the sources, each some lines lower, and from machines that differ only in places it comes as far as the
session does: to the value of the last source if all of them come to values, and else to where the first
that does not stops.

For this each source but the last has to leave strict mode, which would last in the script and does not in
the session; and the last has to hold a statement other than a directive, for its value would else be that
of the source before it.
-/
import ScriptLang.Proofs.Alike.Source
import ScriptLang.Proofs.Isolation
import ScriptLang.Proofs.Joined

namespace ScriptLang

/-! ## Reading joined sources -/

/-- Copies of programs, each with its spans sent elsewhere. -/
abbrev Program.Copies : List Program → List Program → Prop :=
  List.Forall₂ fun p copy => ∃ f : Span → Span, copy = p.map (Stmt.relocate f)

theorem Token.map_lower (ts : List Token) (m n : Nat) :
    (ts.map (Token.relocate (Span.lower m))).map (Token.relocate (Span.lower n)) =
      ts.map (Token.relocate (Span.lower (m + n))) := by
  rw [List.map_map]
  refine List.map_congr_left fun t _ => ?_
  simp [Token.relocate, Span.lower, Nat.add_assoc]

/-- The tokens of joined sources, with more lines before them, spell copies of the programs one after
another. -/
theorem Program.joined_tokens {sources : List String} {programs : List Program}
    (read : List.Forall₂ (fun source p => Program.ofSource? source = .ok p) sources programs)
    (some : sources ≠ []) :
    ∃ ts, Token.scan ("\n;\n".intercalate sources) = .ok ts ∧ ∀ lines, ∃ copies, Copies programs copies ∧
      Program.ofTokens? (ts.map (Token.relocate (Span.lower lines))) = .ok copies.flatten := by
  induction read with
  | nil => exact absurd rfl some
  | @cons source p sources programs first rest ih =>
    obtain ⟨ts, scanned, spelled⟩ := ofSource?_eq_ok first
    obtain ⟨lexemes, eof, rfl, ended, inner⟩ := (Token.scans_of_scanFrom scanned).ends
    have copy (lines : Nat) :
        Program.ofTokens? (lexemes.map (Token.relocate (Span.lower lines)) ++
          [eof.relocate (Span.lower lines)]) = .ok (p.map (Stmt.relocate (Span.lower lines))) := by
      rw [← List.map_singleton (f := Token.relocate _), ← List.map_append, ofTokens?_relocate_of (by simp),
        spelled]
    cases rest with
    | nil =>
      refine ⟨_, by rwa [String.intercalate_singleton], fun lines => ?_⟩
      refine ⟨[p.map (Stmt.relocate (Span.lower lines))], .cons ⟨_, rfl⟩ .nil, ?_⟩
      rw [List.map_append, List.map_singleton, copy, List.flatten_singleton]
    | @cons source' _ sources _ second rest =>
      obtain ⟨us, scanned', spelled'⟩ := ih (List.cons_ne_nil _ _)
      have next : "\n;\n".intercalate (source :: source' :: sources) =
          joined source 1 ("\n;\n".intercalate (source' :: sources)) := by
        rw [String.intercalate_cons_cons, joined_one]
      obtain ⟨k, tokens⟩ := Token.scan_joined scanned 1 ("\n;\n".intercalate (source' :: sources))
      obtain ⟨lexemes', eof', rfl, ended', inner'⟩ := (Token.scans_of_scanFrom scanned').ends
      rw [scanned', List.dropLast_concat] at tokens
      refine ⟨_, next ▸ tokens, fun lines => ?_⟩
      -- the later sources have the lines of the first before them, and those before it
      obtain ⟨copies, hc, spells⟩ := spelled' (2 + source.toList.count '\n' + lines)
      rw [List.map_append, List.map_singleton] at spells
      refine ⟨p.map (Stmt.relocate (Span.lower lines)) :: copies, .cons ⟨_, rfl⟩ hc, ?_⟩
      rw [List.map_append, List.map_append, Token.map_lower, List.map_append, List.map_singleton]
      refine (ofTokens?_append (by simpa using inner) (by simpa using ended) (by simp [Token.semicolons])
        (by simp [Token.semicolons]) (by simpa using inner') (by simpa using ended') (copy lines)).trans ?_
      rw [spells]
      rfl

/-- Joined sources are read as copies of their programs one after another. -/
theorem Program.joined_reads {sources : List String} {programs : List Program}
    (read : List.Forall₂ (fun source p => Program.ofSource? source = .ok p) sources programs)
    (some : sources ≠ []) :
    ∃ copies, Copies programs copies ∧
      Program.ofSource? ("\n;\n".intercalate sources) = .ok copies.flatten := by
  obtain ⟨ts, scanned, spelled⟩ := joined_tokens read some
  obtain ⟨copies, hc, spells⟩ := spelled 0
  have same : ts.map (Token.relocate (Span.lower 0)) = ts := List.map_id'' (fun _ => rfl) ts
  refine ⟨copies, hc, ?_⟩
  unfold Program.ofSource?
  rw [scanned]
  dsimp only
  rw [← same, spells]

/-! ## Programs one after another -/

/-- Does a program hold a statement that is no directive? -/
def Program.hasStatement (p : Program) : Bool := p.any (!·.isDirective)

namespace Eval

variable (self : Evaluator)

/-- After a statement that is no directive it does not matter which value came before. -/
theorem programFrom_anyLast {q : Program} (proper : q.hasStatement) (strict : Bool) (v w : Value) :
    programFrom self q strict v = programFrom self q strict w := by
  induction q generalizing strict with
  | nil => cases proper
  | cons s rest ih =>
    cases directive : strictDirective? s with
    | none => rw [programFrom_statement self _ _ _ directive, programFrom_statement self _ _ _ directive]
    | some mode =>
      rw [programFrom_directive self _ _ _ directive, programFrom_directive self _ _ _ directive]
      apply ih
      simpa [Program.hasStatement, Stmt.isDirective, directive] using proper

/-- A program in two parts is two programs, if the first part leaves strict mode and the second has a value
of its own. -/
theorem program_append {p q : Program} (mode : p.modeAfter false = false)
    (proper : q.hasStatement) :
    program self (p ++ q) = (program self p >>= fun _ => program self q) := by
  funext m
  rw [program_run, programFrom_append, Run.bind_run, Run.bind_run, program_run self p, mode]
  cases programFrom self p false .null m with
  | error halt after => rfl
  | ok last after =>
    dsimp only
    rw [programFrom_anyLast self proper false last .null, program_run]

end Eval

/-- A run in two parts inside a frame is two runs inside it, if the first part gives the frame back. -/
theorem Run.withFrame_bind {α β : Type} {x : Run α} {f : α → Run β} {frame : Frame} {m : Machine}
    (keeps : (x.after { m with frame := frame }).frame = frame) :
    Run.withFrame frame (x >>= f) m = (Run.withFrame frame x >>= fun a => Run.withFrame frame (f a)) m := by
  unfold Run.after at keeps
  rw [Run.bind_run]
  unfold Run.withFrame
  dsimp only
  rw [Run.bind_run]
  cases ran : x { m with frame := frame } with
  | error halt after => rfl
  | ok a after =>
    rw [ran] at keeps
    obtain ⟨scopes, here, stamps, host⟩ := after
    cases keeps
    rfl

theorem Run.inProgram_frame {scope : ScopeId} {x : Run Value} {m after : Machine} {v : Value}
    (h : Run.inProgram scope x m = .ok v after) : after.frame = m.frame := by
  unfold Run.inProgram Run.withFrame at h
  dsimp only at h
  split at h <;> cases h
  rfl

/-- Like a program in two parts, a source in two parts is two sources. -/
theorem Run.inProgram_append (n : Nat) {p q : Program} (mode : p.modeAfter false = false)
    (proper : q.hasStatement) (scope : ScopeId) (m : Machine) :
    Run.inProgram scope (Eval.program (.bounded n) (p ++ q)) m =
      (Run.inProgram scope (Eval.program (.bounded n) p) >>= fun _ =>
        Run.inProgram scope (Eval.program (.bounded n) q)) m := by
  rw [Eval.program_append _ mode proper]
  apply Run.withFrame_bind
  have stays : Run.Stays 0 scope (declaredInBlock p) (Eval.program (.bounded n) p) :=
    Eval.program_stays (Evaluator.bounded_stays 0 n) (List.Subset.refl _)
  exact (stays { m with frame := ⟨scope, 0⟩ } rfl (Nat.zero_le _)).1

/-! ## Sessions that end like one run -/

/-- Does a source come to a value? -/
def Outcome.isValue : Outcome → Bool
  | .value _ => true
  | _ => false

/-- A session ends like one run: what that run comes to differs only in places from what the session comes
to where it stops, at the first step that comes to no value or else at the last one. -/
inductive EndsLike (L : Likeness) : List (Outcome × Machine) → Outcome × Machine → Prop
  | last {step run : Outcome × Machine} (h : step.1.Alike L run.1) (hm : step.2.Alike L run.2) :
    EndsLike L [step] run
  | stopped {step run : Outcome × Machine} (rest : List (Outcome × Machine))
    (stops : step.1.isValue = false) (h : step.1.Alike L run.1) (hm : step.2.Alike L run.2) :
    EndsLike L (step :: rest) run
  | goesOn {step run : Outcome × Machine} {rest : List (Outcome × Machine)} (value : step.1.isValue)
    (h : EndsLike L rest run) : EndsLike L (step :: rest) run

namespace EndsLike

variable {L : Likeness} {steps : List (Outcome × Machine)} {run : Outcome × Machine}

/-- If every step comes to a value, the run ends like the last one. -/
theorem of_values (h : EndsLike L steps run) (values : ∀ step ∈ steps, step.1.isValue) :
    ∃ step ∈ steps.getLast?, step.1.Alike L run.1 ∧ step.2.Alike L run.2 := by
  induction h with
  | last h hm => exact ⟨_, rfl, h, hm⟩
  | stopped rest stops =>
    rw [values _ List.mem_cons_self] at stops
    cases stops
  | @goesOn step run rest _ _ ih =>
    obtain ⟨last, found, alike⟩ := ih fun t ht => values t (List.mem_cons_of_mem _ ht)
    exact ⟨last, by simp [List.getLast?_cons, Option.mem_def.1 found], alike⟩

/-- The run ends like the first step that comes to no value. -/
theorem of_stop (h : EndsLike L steps run) {k : Nat} {step : Outcome × Machine}
    (found : steps[k]? = some step) (before : ∀ earlier ∈ steps.take k, earlier.1.isValue)
    (stops : step.1.isValue = false) : step.1.Alike L run.1 ∧ step.2.Alike L run.2 := by
  induction h generalizing k with
  | last h hm =>
    cases k with
    | zero =>
      cases found
      exact ⟨h, hm⟩
    | succ k => cases found
  | @stopped first run rest stops' h hm =>
    cases k with
    | zero =>
      cases found
      exact ⟨h, hm⟩
    | succ k =>
      rw [before first (by simp)] at stops'
      cases stops'
  | @goesOn first run rest value _ ih =>
    cases k with
    | zero =>
      cases found
      rw [value] at stops
      cases stops
    | succ k => exact ih found fun t ht => before t (by simp [ht])

end EndsLike

section

variable {L : Likeness}

theorem Program.Alike.modeAfter {p p' : Program} (h : p.Alike L p') (strict : Bool) :
    p'.modeAfter strict = p.modeAfter strict := by
  induction h generalizing strict with
  | nil => rfl
  | cons hs _ ih => rw [Program.modeAfter_cons, Program.modeAfter_cons, Eval.strictDirective?_alike hs, ih]

theorem Program.Alike.hasStatement {p p' : Program} (h : p.Alike L p') :
    p'.hasStatement = p.hasStatement := by
  induction h with
  | nil => rfl
  | cons hs _ ih =>
    unfold Program.hasStatement at ih ⊢
    rw [List.any_cons, List.any_cons, ih, Stmt.isDirective, Stmt.isDirective, Eval.strictDirective?_alike hs]

/-- What the last of several programs holds, all of them together hold. -/
theorem Program.hasStatement_flatten {programs copies : List Program}
    (h : List.Forall₂ (Program.Alike L) programs copies)
    (proper : ∃ p ∈ programs.getLast?, p.hasStatement) : Program.hasStatement copies.flatten := by
  induction h with
  | nil =>
    obtain ⟨p, hp, -⟩ := proper
    cases hp
  | @cons p copy programs copies hp rest ih =>
    unfold Program.hasStatement
    rw [List.flatten_cons, List.any_append, Bool.or_eq_true]
    cases rest with
    | nil =>
      obtain ⟨_, ⟨⟩, statement⟩ := proper
      exact .inl (hp.hasStatement.trans statement)
    | cons => exact .inr (ih (by simpa using proper))

/-- The steps of a session end like one run of programs that are alike to those of its sources. -/
theorem Machine.session_endsLike (lawful : L.Lawful) (n : Nat) {sources : List String}
    {programs copies : List Program}
    (read : List.Forall₂ (fun source p => Program.ofSource? source = .ok p) sources programs)
    (alike : List.Forall₂ (Program.Alike L) programs copies)
    (modes : ∀ p ∈ programs.dropLast, p.modeAfter false = false)
    (proper : ∃ p ∈ programs.getLast?, p.hasStatement) {m m' : Machine}
    (hm : m.Alike L m') :
    EndsLike L (m.session n sources)
      (Outcome.ofResult (Run.inProgram m.frame.scope (Eval.program (.bounded n) copies.flatten) m')) := by
  induction read generalizing copies m m' with
  | nil =>
    obtain ⟨p, hp, -⟩ := proper
    cases hp
  | @cons source p sources programs first rest ih =>
    cases alike with
    | @cons _ copy _ copies hp alike =>
      have ran : Ended L (Value.Alike L) (Run.inProgram m.frame.scope (Eval.program (.bounded n) p) m)
          (Run.inProgram m.frame.scope (Eval.program (.bounded n) copy) m') :=
        (Eval.program_alike (Evaluator.bounded_alike lawful n) lawful.result hp).withFrame _ m m' hm
      rw [session, run_of_parse first]
      cases rest with
      | nil =>
        cases alike
        rw [List.flatten_singleton]
        obtain ⟨h, hm⟩ := Outcome.ofResult_alike ran
        exact .last h hm
      | cons second rest =>
        have later := Program.hasStatement_flatten alike (by simpa using proper)
        rw [List.flatten_cons, Run.inProgram_append n (hp.modeAfter false ▸ modes p (by simp)) later,
          Run.bind_run]
        generalize one : Run.inProgram m.frame.scope (Eval.program (.bounded n) p) m = r at ran
        generalize Run.inProgram m.frame.scope (Eval.program (.bounded n) copy) m' = r' at ran
        cases ran with
        | ok hv hm =>
          -- the script goes on in the frame that its first part gave back, like the session
          refine .goesOn rfl ?_
          rw [← Run.inProgram_frame one]
          exact ih alike (fun p hp => modes p (by simp [hp])) (by simpa using proper) hm
        | error he hm =>
          obtain ⟨h, hm⟩ := Outcome.ofResult_alike (.error he hm)
          exact .stopped _ (by cases he <;> rfl) h hm

end

/-! ## Sessions and scripts -/

/-- The likeness that allows every span for every other. -/
def Likeness.places : Likeness where
  spans _ _ := True
  names _ := True
  natives _ := True
  sources _ := True

theorem Program.relocate_id {source : String} {p : Program} (read : Program.ofSource? source = .ok p) :
    p.map (Stmt.relocate id) = p := by
  obtain ⟨ts, scanned, -⟩ := ofSource?_eq_ok read
  exact relocate_eq_self scanned read fun _ _ => rfl

/-- A program that was read and a copy of it differ only in places. -/
theorem Program.copy_alike {source : String} {p : Program} (read : Program.ofSource? source = .ok p)
    (f : Span → Span) : Program.Alike .places p (p.map (Stmt.relocate f)) := by
  have alike := p.relocate_alike (L := .places) (f := id) (g := f) (fun _ => trivial) fun _ _ => trivial
  rwa [relocate_id read] at alike

theorem Likeness.places_lawful : Likeness.places.Lawful where
  result := trivial
  evaluates _ _ := trivial
  nested text p _ read := by
    have alike := Program.copy_alike read id
    rwa [Program.relocate_id read] at alike

theorem Machine.initial_places (host : Host) :
    (Machine.initial host).Alike .places (Machine.initial host) :=
  initial_alike (fun _ _ _ => trivial) (fun _ _ _ => trivial) fun _ _ => trivial

theorem Program.copies_alike {sources : List String} {programs copies : List Program}
    (read : List.Forall₂ (fun source p => Program.ofSource? source = .ok p) sources programs)
    (hc : Copies programs copies) : List.Forall₂ (Program.Alike .places) programs copies := by
  induction hc generalizing sources with
  | nil => exact .nil
  | cons copy _ ih =>
    cases read with
    | cons first rest =>
      obtain ⟨f, rfl⟩ := copy
      exact .cons (copy_alike first f) (ih rest)

theorem Program.read_spelledBy {sources : List String}
    (parse : ∀ source ∈ sources, (Program.ofSource? source).isOk) :
    List.Forall₂ (fun source p => Program.ofSource? source = .ok p) sources
      (sources.map Program.spelledBy) := by
  refine List.forall₂_map_right_iff.2 (List.forall₂_same.2 fun source hs => ?_)
  have ok := parse source hs
  cases read : Program.ofSource? source with
  | error e =>
    rw [read] at ok
    cases ok
  | ok p => rw [Program.spelledBy_of_read read]

theorem Error.Alike.bare {L : Likeness} {e e' : Error} (h : e.Alike L e') : e'.bare = e.bare := by
  cases h with
  | read => rfl
  | runtime _ hf => simp [Error.bare, hf]

/-- A script does what a session does.  If all steps of the session come to values, the script comes to
the value of the last; if a step fails that none failed before, the script fails with its error.  After it
the host has the same transcript, and the same left to give, as after that step, and the same names are
bound in every scope to the same values.  Places in errors and in the bodies of functions may differ. -/
structure DoneByScript (steps : List (Outcome × Machine)) (script : Outcome × Machine) : Prop where
  value : (∀ step ∈ steps, step.1.isValue) → ∃ v after v' after', steps.getLast? = some (.value v, after) ∧
    script = (.value v', after') ∧ v.Alike .places v' ∧ v'.text = v.text ∧ v'.toJson = v.toJson ∧
      after'.host = after.host ∧ after.Alike .places after'
  failure : ∀ k e after, steps[k]? = some (.failed e, after) → (∀ step ∈ steps.take k, step.1.isValue) →
    ∃ e' after', script = (.failed e', after') ∧ e'.bare = e.bare ∧ after'.host = after.host ∧
      after.Alike .places after'

/-- A session of sources that can be read is done by the script that joins them with a semicolon on a line
between each and the next, if each but the last leaves strict mode and the last has a statement that is no
directive. -/
theorem session_done_by_script (n : Nat) (host : Host) {sources : List String}
    (parse : ∀ source ∈ sources, (Program.ofSource? source).isOk)
    (modes : ∀ source ∈ sources.dropLast, (Program.spelledBy source).modeAfter false = false)
    (proper : ∃ source ∈ sources.getLast?, (Program.spelledBy source).hasStatement) :
    DoneByScript ((Machine.initial host).session n sources)
      ((Machine.initial host).run n ("\n;\n".intercalate sources)) := by
  have read := Program.read_spelledBy parse
  obtain ⟨last, final, statement⟩ := proper
  obtain ⟨copies, hc, spelled⟩ := Program.joined_reads read (by rintro rfl; cases final)
  have ends : EndsLike .places ((Machine.initial host).session n sources)
      ((Machine.initial host).run n ("\n;\n".intercalate sources)) := by
    rw [Machine.run_of_parse spelled]
    apply Machine.session_endsLike Likeness.places_lawful n read (Program.copies_alike read hc)
    · intro p hp
      rw [← List.map_dropLast] at hp
      obtain ⟨source, hs, rfl⟩ := List.mem_map.1 hp
      exact modes source hs
    · exact ⟨Program.spelledBy last, by simp [Option.mem_def.1 final], statement⟩
    · exact Machine.initial_places host
  generalize (Machine.initial host).session n sources = steps,
    (Machine.initial host).run n ("\n;\n".intercalate sources) = script at ends ⊢
  obtain ⟨o', after'⟩ := script
  constructor
  · intro values
    obtain ⟨⟨o, after⟩, final, h, hm⟩ := ends.of_values values
    have value := values _ (List.mem_of_getLast? final)
    cases h with
    | @value v v' hv =>
      exact ⟨v, after, v', after', final, rfl, hv, Value.text_alike v v' hv, Value.toJson_alike v v' hv,
        hm.host, hm⟩
    | _ => cases value
  · intro k e after found before
    obtain ⟨h, hm⟩ := ends.of_stop found before rfl
    cases h with
    | @failed _ e' he => exact ⟨e', after', rfl, he.bare, hm.host, hm⟩

/-- A session whose first source leaves strict mode again, and whose second fails. -/
def dividingSession : List String :=
  ["\"strict on\"\nlet x = 8 / 2\nprint(x)\n\"strict off\"", "let y = x / 0\nprint(y)\ny.z", "x"]

theorem dividingSession_done_by_script :
    DoneByScript ((Machine.initial (.closed [] [] 0.0)).session 30 dividingSession)
      ((Machine.initial (.closed [] [] 0.0)).run 30 ("\n;\n".intercalate dividingSession)) :=
  session_done_by_script 30 (.closed [] [] 0.0) (by decide +kernel) (by decide +kernel)
    ⟨"x", rfl, by decide +kernel⟩

end ScriptLang
