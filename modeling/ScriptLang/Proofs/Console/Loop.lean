/-
# ScriptLang.Proofs.Console.Loop — the console loop loses, repeats and reorders nothing.

The inputs of a session fall into parts in one way only: runs of lines, each as short as it can be to be
ready, and lines that an interrupt drops before they were.  The loop takes part after part.  Of each run it
remembers and executes the trimmed text, if there is any, on the machine that the text before it left,
failed or not; the first text that ends the loop is remembered and not executed, and what comes after it is
not read.  The lines of a part show the prompt of a first line and then the prompt of a further one.
-/
import ScriptLang.Console

namespace ScriptLang.Console

/-! ## Parts of a session -/

/-- Lines as they are gathered. -/
def typed (lines : List String) : String := String.join (lines.map line)

/-- Lines none of whose beginnings is ready to run, nor all of them. -/
def IsPending (lines : List String) : Prop :=
  ∀ first, first <+: lines → first ≠ [] → isComplete (typed first) = false

/-- Lines that are ready to run, with no beginning that is. -/
structure IsFinished (lines : List String) : Prop where
  some : lines ≠ []
  complete : isComplete (typed lines)
  shortest : ∀ first, first <+: lines → first ≠ [] → first ≠ lines → isComplete (typed first) = false

/-- A part of a session: a run of lines, or lines and the interrupt that drops them. -/
inductive Part where
  | run (lines : List String)
  | dropped (lines : List String)

namespace Part

/-- Is the run finished, or was there none to drop? -/
def IsProper : Part → Prop
  | run lines => IsFinished lines
  | dropped lines => IsPending lines

def inputs : Part → List (Option String)
  | run lines => lines.map some
  | dropped lines => lines.map some ++ [none]

/-- The text of a run, unless it is blank. -/
def text? : Part → Option String
  | run lines => if (Text.trim (typed lines)).isEmpty then none else some (Text.trim (typed lines))
  | dropped _ => none

/-- Does the part end the loop? -/
def exits (p : Part) : Bool := p.text?.any isExit

end Part

/-- The inputs of a session are those of its parts and the lines left at the end of input, which are not
ready to run. -/
structure Cutting (inputs : List (Option String)) (parts : List Part) (left : List String) : Prop where
  whole : inputs = parts.flatMap Part.inputs ++ left.map some
  proper : ∀ p ∈ parts, p.IsProper
  pending : IsPending left

/-- The texts of parts, in order. -/
def texts (parts : List Part) : List String := parts.filterMap Part.text?

theorem texts_nil : texts [] = [] := rfl

theorem texts_append (first second : List Part) : texts (first ++ second) = texts first ++ texts second :=
  List.filterMap_append

theorem texts_cons (p : Part) (parts : List Part) : texts (p :: parts) = p.text?.toList ++ texts parts := by
  unfold texts
  rw [List.filterMap_cons]
  cases p.text? <;> rfl

/-- The prompts of reads in one part, the first of which begins a text and the others go on with it. -/
def promptsOf : Nat → List String
  | 0 => []
  | reads + 1 => "> " :: List.replicate reads "| "

/-- The prompts of the reads in parts. -/
def promptsOver (parts : List Part) : List String := parts.flatMap fun p => promptsOf p.inputs.length

/-- The machine after a text has been executed on one. -/
def machineAfter (n : Nat) (settings : Settings) (m : Machine) (text : String) : Machine :=
  (takeTranscript (execute n settings text m).2).2

/-- The console with what the loop keeps for itself: the text gathered, the prompts and the history. -/
def keep (c : Console) (buffer : String) (prompts history : List String) : Console :=
  { c with buffer := buffer, prompts := prompts, history := history }

/-- The console when a part has been shown on it: a run is executed, an interrupt is written. -/
def showPart (n : Nat) (settings : Settings) (c : Console) (p : Part) : Console :=
  match p with
  | .run _ => p.text?.elim c (execText n settings c)
  | .dropped _ => { c with out := c.out ++ interruptText }

/-! ## Lines -/

@[simp] theorem typed_nil : typed [] = "" := rfl

theorem typed_concat (lines : List String) (input : String) :
    typed (lines ++ [input]) = typed lines ++ input ++ "\n" := by
  simp [typed, line, String.join_append, String.append_assoc]

theorem typed_isEmpty {lines : List String} : (typed lines).isEmpty = lines.isEmpty := by
  cases lines with
  | nil => rfl
  | cons input rest =>
    have some : typed (input :: rest) ≠ "" := by simp [typed, line]
    simpa using some

theorem IsPending.nil : IsPending [] := fun _ begins some => absurd (List.prefix_nil.1 begins) some

theorem IsPending.concat {lines : List String} {input : String} (h : IsPending lines)
    (unready : isComplete (typed (lines ++ [input])) = false) : IsPending (lines ++ [input]) := by
  intro first begins some
  rcases List.prefix_concat_iff.1 begins with rfl | shorter
  · exact unready
  · exact h first shorter some

theorem IsPending.finish {lines : List String} {input : String} (h : IsPending lines)
    (closed : isComplete (typed (lines ++ [input]))) : IsFinished (lines ++ [input]) where
  some := by simp
  complete := closed
  shortest first begins some shorter :=
    h first ((List.prefix_concat_iff.1 begins).resolve_left shorter) some

/-- A finished run is its last line after lines that were not ready. -/
theorem IsFinished.last {lines : List String} (h : IsFinished lines) :
    ∃ before input, lines = before ++ [input] ∧ IsPending before := by
  refine ⟨lines.dropLast, lines.getLast h.some, (List.dropLast_concat_getLast h.some).symm, ?_⟩
  intro first begins some
  refine h.shortest first (begins.trans lines.dropLast_prefix) some ?_
  rintro rfl
  have shorter := begins.length_le
  have positive := List.length_pos_iff.2 some
  rw [List.length_dropLast] at shorter
  omega

/-! ## Cutting a session into parts -/

/-- Cuts inputs into parts, given the lines before them that are not ready to run. -/
def cut (before : List String) : List (Option String) → List Part × List String
  | [] => ([], before)
  | none :: rest => ((cut [] rest).map (Part.dropped before :: ·) id)
  | some input :: rest =>
    if isComplete (typed (before ++ [input])) then
      (cut [] rest).map (Part.run (before ++ [input]) :: ·) id
    else cut (before ++ [input]) rest

theorem cut_cutting (inputs : List (Option String)) {before : List String} (pending : IsPending before) :
    Cutting (before.map some ++ inputs) (cut before inputs).1 (cut before inputs).2 := by
  induction inputs generalizing before with
  | nil => exact ⟨by simp [cut], nofun, pending⟩
  | cons input rest ih =>
    have later := ih .nil
    cases input with
    | none =>
      refine ⟨?_, List.forall_mem_cons.2 ⟨pending, later.proper⟩, later.pending⟩
      simpa [cut, Part.inputs] using later.whole
    | some input =>
      unfold cut
      split
      · next closed =>
        refine ⟨?_, List.forall_mem_cons.2 ⟨pending.finish closed, later.proper⟩, later.pending⟩
        simpa [Part.inputs] using later.whole
      · next unready =>
        have longer := ih (pending.concat (Bool.eq_false_iff.2 unready))
        simpa using longer

/-- Lines that are not ready wait for what comes after them. -/
theorem cut_pending (rest : List (Option String)) (before : List String) {lines : List String}
    (pending : IsPending (before ++ lines)) :
    cut before (lines.map some ++ rest) = cut (before ++ lines) rest := by
  induction lines generalizing before with
  | nil => simp
  | cons input lines ih =>
    have parted : before ++ input :: lines = before ++ [input] ++ lines := by simp
    rw [parted] at pending ⊢
    have unready := pending _ (List.prefix_append _ _) (by simp)
    rw [List.map_cons, List.cons_append, cut, if_neg (by simp [unready]), ih _ pending]

theorem cut_part {p : Part} (proper : p.IsProper) (rest : List (Option String)) :
    cut [] (p.inputs ++ rest) = (cut [] rest).map (p :: ·) id := by
  cases p with
  | run lines =>
    obtain ⟨before, input, rfl, pending⟩ := proper.last
    rw [Part.inputs, List.map_append, List.append_assoc, cut_pending _ _ (by simpa using pending)]
    simp [cut, proper.complete]
  | dropped lines =>
    have pending : IsPending lines := proper
    rw [Part.inputs, List.append_assoc, cut_pending _ _ (by simpa using pending)]
    simp [cut]

/-- Inputs fall into parts in one way only. -/
theorem Cutting.eq_cut {inputs : List (Option String)} {parts : List Part} {left : List String}
    (h : Cutting inputs parts left) : cut [] inputs = (parts, left) := by
  obtain ⟨rfl, proper, pending⟩ := h
  induction parts with
  | nil =>
    have stays := cut_pending [] [] (by simpa using pending)
    simpa [cut] using stays
  | cons p parts ih =>
    rw [List.forall_mem_cons] at proper
    rw [List.flatMap_cons, List.append_assoc, cut_part proper.1, ih proper.2]
    rfl

/-! ## The loop over parts -/

section

variable (n : Nat) (settings : Settings)

variable (c : Console) (buffer : String) (prompts history : List String)

@[simp] theorem keep_buffer : (c.keep buffer prompts history).buffer = buffer := rfl

@[simp] theorem keep_machine : (c.keep buffer prompts history).machine = c.machine := rfl

@[simp] theorem keep_prompts : (c.keep buffer prompts history).prompts = prompts := rfl

@[simp] theorem keep_history : (c.keep buffer prompts history).history = history := rfl

@[simp] theorem keep_keep (buffer' : String) (prompts' history' : List String) :
    (c.keep buffer prompts history).keep buffer' prompts' history' = c.keep buffer' prompts' history' := rfl

@[simp] theorem keep_remember (text : String) :
    (c.keep buffer prompts history).remember text = c.keep "" prompts (history ++ [text]) := rfl

/-- Executing a text leaves alone what the loop keeps for itself, and needs nothing of it. -/
theorem execText_keep (text : String) :
    execText n settings (c.keep buffer prompts history) text =
      (execText n settings c text).keep buffer prompts history := by
  unfold execText keep
  dsimp only
  rcases execute n settings text c.machine with ⟨shown, m⟩
  cases shown <;> rfl

theorem execText_machine (c : Console) (text : String) :
    (execText n settings c text).machine = machineAfter n settings c.machine text := by
  unfold execText machineAfter
  rcases execute n settings text c.machine with ⟨shown, m⟩
  cases shown <;> rfl

theorem promptsOf_succ (reads : Nat) :
    promptsOf (reads + 1) = promptsOf reads ++ [if reads = 0 then "> " else "| "] := by
  cases reads with
  | zero => rfl
  | succ reads => simp [promptsOf, List.replicate_succ']

theorem promptFor_typed (lines : List String) :
    promptFor (typed lines) = if lines.length = 0 then "> " else "| " := by
  unfold promptFor
  rw [typed_isEmpty]
  cases lines <;> rfl

/-- The console when it has read lines and nothing has come of them yet. -/
def gathered (c : Console) (lines : List String) : Console :=
  c.keep (typed lines) (c.prompts ++ promptsOf lines.length) c.history

theorem ask_gathered (c : Console) (lines : List String) :
    (gathered c lines).ask =
      c.keep (typed lines) (c.prompts ++ promptsOf (lines.length + 1)) c.history := by
  unfold ask gathered
  rw [keep_buffer, promptFor_typed, promptsOf_succ, ← List.append_assoc]
  rfl

theorem gathered_nil {c : Console} (empty : c.buffer = "") : gathered c [] = c := by
  unfold gathered keep
  rw [typed_nil, List.length_nil, promptsOf, List.append_nil, ← empty]

/-- The loop gathers lines that are not ready. -/
theorem loop_pending (rest : List (Option String)) (c : Console) (before : List String) {lines : List String}
    (pending : IsPending (before ++ lines)) :
    loop n settings (lines.map some ++ rest) (gathered c before) =
      loop n settings rest (gathered c (before ++ lines)) := by
  induction lines generalizing before with
  | nil => simp
  | cons input lines ih =>
    have parted : before ++ input :: lines = before ++ [input] ++ lines := by simp
    rw [parted] at pending ⊢
    have unready := pending _ (List.prefix_append _ _) (by simp)
    have unfinished : gather (typed before) input = .unfinished (typed (before ++ [input])) := by
      rw [typed_concat] at unready ⊢
      simp [gather, unready]
    rw [← ih _ pending, List.map_cons, List.cons_append, loop, ask_gathered, keep_buffer, unfinished, gathered,
      List.length_append]
    rfl

theorem gather_finished {before : List String} {input : String}
    (closed : isComplete (typed (before ++ [input]))) :
    gather (typed before) input =
      match (Part.run (before ++ [input])).text? with
      | none => .blank
      | some text => if isExit text then .quit text else .ready text := by
  rw [typed_concat] at closed
  unfold gather Part.text?
  dsimp only
  rw [if_pos closed, typed_concat]
  by_cases blank : (Text.trim (typed before ++ input ++ "\n")).isEmpty
  · rw [if_pos blank, if_pos blank]
  · rw [if_neg blank, if_neg blank]

/-- The loop at the last line of a finished run. -/
theorem loop_finish (rest : List (Option String)) {before : List String} {input : String}
    (proper : IsFinished (before ++ [input])) (pending : IsPending before) (empty : c.buffer = "") :
    let prompts := c.prompts ++ promptsOf (before.length + 1)
    loop n settings ((before ++ [input]).map some ++ rest) c =
      match (Part.run (before ++ [input])).text? with
      | none => loop n settings rest (c.keep "" prompts c.history)
      | some text =>
        if isExit text then (c.keep "" prompts (c.history ++ [text]), rest)
        else loop n settings rest ((execText n settings c text).keep "" prompts (c.history ++ [text])) := by
  have lines := loop_pending n settings (some input :: rest) c [] (by simpa using pending)
  rw [gathered_nil empty, List.nil_append] at lines
  rw [List.map_append, List.append_assoc, List.map_singleton, List.singleton_append, lines, loop]
  dsimp only
  rw [ask_gathered, keep_buffer, gather_finished proper.complete]
  cases (Part.run (before ++ [input])).text? with
  | none => rfl
  | some text =>
    by_cases quit : isExit text
    · simp [quit]
    · simp [quit, execText_keep]

/-- The console after a part: what the part showed, its prompts, and its text in the history. -/
def afterPart (c : Console) (p : Part) : Console :=
  (showPart n settings c p).keep "" (c.prompts ++ promptsOf p.inputs.length) (c.history ++ p.text?.toList)

variable {c : Console} (empty : c.buffer = "")
include empty

theorem loop_part {p : Part} (proper : p.IsProper) (stays : p.exits = false)
    (rest : List (Option String)) :
    loop n settings (p.inputs ++ rest) c = loop n settings rest (afterPart n settings c p) := by
  cases p with
  | run lines =>
    obtain ⟨before, input, rfl, pending⟩ := proper.last
    rw [Part.inputs, loop_finish n settings c rest proper pending empty]
    unfold afterPart showPart
    cases text : (Part.run (before ++ [input])).text? with
    | none => simp [Part.inputs]
    | some s =>
      have goesOn : isExit s = false := by simpa [Part.exits, text] using stays
      simp [goesOn, Part.inputs]
  | dropped lines =>
    have pending : IsPending lines := proper
    have first := loop_pending n settings (none :: rest) c [] (by simpa using pending)
    rw [gathered_nil empty, List.nil_append] at first
    rw [Part.inputs, List.append_assoc, List.singleton_append, first, loop, ask_gathered]
    simp [interrupt, afterPart, showPart, keep, Part.inputs, Part.text?]

theorem loop_exit {p : Part} (proper : p.IsProper) (exits : p.exits) (rest : List (Option String)) :
    loop n settings (p.inputs ++ rest) c =
      (c.keep "" (c.prompts ++ promptsOf p.inputs.length) (c.history ++ p.text?.toList), rest) := by
  cases p with
  | run lines =>
    obtain ⟨before, input, rfl, pending⟩ := proper.last
    rw [Part.inputs, loop_finish n settings c rest proper pending empty]
    cases text : (Part.run (before ++ [input])).text? with
    | none => simp [Part.exits, text] at exits
    | some s =>
      have ends : isExit s := by simpa [Part.exits, text] using exits
      simp [ends]
  | dropped lines => cases exits

theorem loop_left {left : List String} (pending : IsPending left) :
    loop n settings (left.map some) c =
      (c.keep (typed left) (c.prompts ++ promptsOf (left.length + 1)) c.history, []) := by
  have lines := loop_pending n settings [] c [] (by simpa using pending)
  rw [gathered_nil empty, List.nil_append, List.append_nil] at lines
  rw [lines, loop, ask_gathered]

omit empty

/-- What a part shows does not depend on what the loop keeps for itself. -/
theorem showPart_keep (p : Part) :
    showPart n settings (c.keep buffer prompts history) p =
      (showPart n settings c p).keep buffer prompts history := by
  cases p with
  | run lines =>
    unfold showPart
    cases (Part.run lines).text? with
    | none => rfl
    | some text => exact execText_keep n settings c buffer prompts history text
  | dropped lines => rfl

/-- Parts leave what they showed, their prompts and their texts. -/
theorem foldl_afterPart (parts : List Part) (c : Console) (prompts history : List String) :
    parts.foldl (afterPart n settings) (c.keep "" prompts history) =
      (parts.foldl (showPart n settings) c).keep "" (prompts ++ promptsOver parts) (history ++ texts parts) := by
  induction parts generalizing c prompts history with
  | nil => simp [promptsOver, texts_nil]
  | cons p parts ih =>
    rw [List.foldl_cons, afterPart, showPart_keep, keep_keep, ih, List.foldl_cons, texts_cons]
    simp [promptsOver]

/-- Parts none of which ends the loop are taken one after another. -/
theorem loop_parts {parts : List Part} (proper : ∀ p ∈ parts, p.IsProper)
    (stay : ∀ p ∈ parts, p.exits = false) (rest : List (Option String)) (empty : c.buffer = "") :
    loop n settings (parts.flatMap Part.inputs ++ rest) c =
      loop n settings rest (parts.foldl (afterPart n settings) c) := by
  induction parts generalizing c with
  | nil => rfl
  | cons p parts ih =>
    rw [List.forall_mem_cons] at proper stay
    rw [List.flatMap_cons, List.append_assoc, loop_part n settings empty proper.1 stay.1,
      ih proper.2 stay.2 rfl, List.foldl_cons]

/-- The machine that parts leave is the one that their texts leave, executed one after another. -/
theorem showParts_machine (parts : List Part) (c : Console) :
    (parts.foldl (showPart n settings) c).machine =
      (texts parts).foldl (machineAfter n settings) c.machine := by
  induction parts generalizing c with
  | nil => rfl
  | cons p parts ih =>
    rw [List.foldl_cons, ih]
    cases p with
    | run lines =>
      unfold texts showPart
      cases text : (Part.run lines).text? with
      | none => rw [List.filterMap_cons_none text]; rfl
      | some s => rw [List.filterMap_cons_some text, List.foldl_cons, ← execText_machine]; rfl
    | dropped lines => rfl

/-- The prompts of parts are as many as their inputs. -/
theorem length_promptsOf (reads : Nat) : (promptsOf reads).length = reads := by
  cases reads <;> simp [promptsOf]

theorem length_promptsOver (parts : List Part) :
    (promptsOver parts).length = (parts.flatMap Part.inputs).length := by
  induction parts with
  | nil => rfl
  | cons p parts ih =>
    rw [promptsOver, List.flatMap_cons, List.length_append, ← promptsOver, ih, length_promptsOf,
      List.flatMap_cons, List.length_append]

theorem isExit_iff (text : String) : isExit text ↔ text = "exit" ∨ text = "exit()" := by
  simp [isExit]

/-- A text changes the machine only where results are shown: there it is run. -/
theorem machineAfter_eq (m : Machine) (text : String) :
    machineAfter n settings m text =
      (takeTranscript (match settings.mode with
        | .tokens | .ast => m
        | .result => (m.run n text).2)).2 := by
  unfold machineAfter execute
  cases settings.mode with
  | tokens =>
    dsimp only
    cases Token.scan text <;> rfl
  | ast =>
    dsimp only
    cases Program.ofSource? text <;> rfl
  | result =>
    dsimp only
    rcases m.run n text with ⟨outcome, k⟩
    cases outcome <;> rfl

/-- A session takes its parts in order.  Up to the first text that ends the loop, each text is executed on
the machine that those before it left and is in the history, and nothing else is; that text ends the
history, and the inputs after it are not read.  Every read shows the prompt of its place in its part, and
if nothing ends the loop, the lines left and the end of input are read as one part more.

The texts that end the loop are two.  To execute a text is to run it as a source on the machine, failed or
not, where results are shown; the other two modes leave the machine as it is. -/
theorem loop_takes_parts (m : Machine) (inputs : List (Option String)) :
    (∀ text, isExit text ↔ text = "exit" ∨ text = "exit()") ∧
    (∀ m text, machineAfter n settings m text =
      (takeTranscript (match settings.mode with
        | .tokens | .ast => m
        | .result => (m.run n text).2)).2) ∧
    ∃ parts left, Cutting inputs parts left ∧
      (∀ parts' left', Cutting inputs parts' left' → parts' = parts ∧ left' = left) ∧
      let heard := parts.takeWhile (!·.exits)
      let shown := heard.foldl (showPart n settings) (start m)
      let (c, unread) := loop n settings inputs (start m)
      shown.machine = (texts heard).foldl (machineAfter n settings) m ∧
      match parts.dropWhile (!·.exits) with
      | [] =>
        c = shown.keep (typed left) (promptsOver heard ++ promptsOf (left.length + 1)) (texts heard) ∧
        unread = [] ∧ c.prompts.length = inputs.length + 1
      | last :: later =>
        c = shown.keep "" (promptsOver (heard ++ [last])) (texts (heard ++ [last])) ∧
        unread = later.flatMap Part.inputs ++ left.map some ∧
        c.prompts.length + unread.length = inputs.length := by
  have cutting : Cutting inputs (cut [] inputs).1 (cut [] inputs).2 := by
    simpa using cut_cutting inputs .nil
  refine ⟨isExit_iff, machineAfter_eq n settings, _, _, cutting, fun parts left other => ?_, ?_⟩
  · rw [other.eq_cut]
    exact ⟨rfl, rfl⟩
  generalize (cut [] inputs).1 = parts, (cut [] inputs).2 = left at cutting
  have parted : parts.takeWhile (!·.exits) ++ parts.dropWhile (!·.exits) = parts :=
    List.takeWhile_append_dropWhile
  have stay : ∀ p ∈ parts.takeWhile (!·.exits), p.exits = false := fun p member => by
    simpa using List.all_eq_true.1 List.all_takeWhile p member
  have next := List.head?_dropWhile_not (!·.exits) parts
  generalize parts.takeWhile (!·.exits) = heard, parts.dropWhile (!·.exits) = after at *
  obtain ⟨rfl, proper, pending⟩ := cutting
  subst parted
  rw [List.forall_mem_append] at proper
  have heardAll (rest : List (Option String)) :
      loop n settings (heard.flatMap Part.inputs ++ rest) (start m) = loop n settings rest
        ((heard.foldl (showPart n settings) (start m)).keep "" (promptsOver heard) (texts heard)) := by
    rw [loop_parts n settings proper.1 stay _ rfl]
    exact congrArg _ (foldl_afterPart n settings heard (start m) [] [])
  have machine := showParts_machine n settings heard (start m)
  rw [List.flatMap_append, List.append_assoc, heardAll]
  cases after with
  | nil =>
    rw [List.flatMap_nil, List.nil_append, loop_left n settings rfl pending]
    refine ⟨machine, rfl, rfl, ?_⟩
    simp [length_promptsOver, length_promptsOf, Nat.add_assoc]
  | cons last later =>
    rw [List.forall_mem_cons] at proper
    have exits : last.exits := by simpa using next
    rw [List.flatMap_cons, List.append_assoc, loop_exit n settings rfl proper.2.1 exits]
    refine ⟨machine, ?_, rfl, ?_⟩
    · have more : texts (heard ++ [last]) = texts heard ++ last.text?.toList := by
        rw [texts_append, texts_cons, texts_nil, List.append_nil]
      rw [more]
      simp [promptsOver]
    · simp [length_promptsOver, length_promptsOf]
      omega

end

/-- A session of a few lines: a text, a blank line, a text that is dropped, one over two lines that counts on,
one that fails, and the end. -/
def shortSession : List (Option String) :=
  [some "let x = 1", some "", some "x = (", none, some "x = (x", some "+ 2)", some "y", some "exit()", some "x = 9"]

-- what was run before the text that fails is still there
example :
    let (c, unread) := loop 20 ⟨.result, false⟩ shortSession (start (.blank .live))
    c.history = ["let x = 1", "x = (x\n+ 2)", "y", "exit()"] ∧
      c.prompts = ["> ", "> ", "> ", "| ", "> ", "| ", "> ", "> "] ∧ unread = [some "x = 9"] ∧
      (c.machine.scopes.value 0 "x").toOption.map Value.text = some "3" := by
  decide +kernel

end ScriptLang.Console
