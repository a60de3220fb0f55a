/-
# ScriptLang.Proofs.Token.Fault — where a source cannot be scanned.

Whether a character is a fault depends on what stands before it: a string and a comment hold anything, and
a point is one too many only behind the point of a number.  That much is said here character by character,
by a walk over a few contexts that knows nothing of pieces.

A scan fails just where this walk comes to a fault, and the fault that it tells is the first.  Over one
piece the walk meets no fault and comes out of it in a context that reads on as at the start; so what holds
of the pieces holds of the source, by induction on the scan.
-/
import ScriptLang.Proofs.Token.Joined

namespace ScriptLang.Token

/-! ## Contexts -/

/-- The characters that signs are made of. -/
def signChars : List Char :=
  ['(', ')', '\x7b', '\x7d', '[', ']', ',', '.', ':', ';', '+', '-', '*', '/', '%', '?', '!', '=', '<', '>']

/-- A character that may stand outside strings and comments. -/
def Known (c : Char) : Prop :=
  c ∈ [' ', '\t', '\r', '\n'] ∨ c.isDigit ∨ Text.isAlphabetic c ∨ c = '"' ∨ c ∈ signChars

instance : DecidablePred Known := fun c =>
  inferInstanceAs (Decidable (_ ∈ _ ∨ c.isDigit ∨ Text.isAlphabetic c ∨ c = '"' ∨ c ∈ signChars))

/-- What the text before a character has begun. -/
inductive Context where
  /-- Nothing that the character could go on with. -/
  | code
  | word
  /-- A number, up to its point. -/
  | whole
  /-- A number, behind its point. -/
  | fraction
  /-- A slash, which another one would make a comment. -/
  | slash
  | comment
  | string
deriving DecidableEq

namespace Context

/-- What a character begins. -/
def opening (c : Char) : Context :=
  if c = '"' then .string
  else if c.isDigit then .whole
  else if Text.isAlphabetic c then .word
  else if c = '/' then .slash
  else .code

/-- The context behind one more character. -/
def next (x : Context) (c : Char) : Context :=
  match x with
  | .code => opening c
  | .word => if Text.isWordChar c then .word else opening c
  | .whole => if c.isDigit then .whole else if c = '.' then .fraction else opening c
  | .fraction => if c.isDigit then .fraction else opening c
  | .slash => if c = '/' then .comment else opening c
  | .comment => if c = '\r' ∨ c = '\n' then .code else .comment
  | .string => if c = '"' then .code else .string

/-- The context behind a text. -/
def past (x : Context) (text : List Char) : Context := text.foldl next x

/-- Strings and comments hold anything. -/
def Reads (x : Context) : Prop := x ≠ .comment ∧ x ≠ .string

instance : DecidablePred Reads := fun x => inferInstanceAs (Decidable (x ≠ .comment ∧ x ≠ .string))

/-- In a context and before the rest of the source, a character is a fault. -/
inductive Fault : Context → Char → List Char → ScanFault → Prop
  | unrecognized {x : Context} {c : Char} {rest : List Char} (reads : x.Reads) (stranger : ¬Known c) :
    Fault x c rest .unrecognized
  | secondPoint {rest : List Char} : Fault .fraction '.' rest .secondPoint
  | unterminatedString {x : Context} {rest : List Char} (reads : x.Reads) (unclosed : '"' ∉ rest) :
    Fault x '"' rest .unterminatedString

end Context

/-- The character that stands after the first `i` of a source is a fault. -/
def FaultAt (source : List Char) (i : Nat) (fault : ScanFault) : Prop :=
  ∃ before c rest, source = before ++ c :: rest ∧ before.length = i ∧
    (Context.code.past before).Fault c rest fault

/-! ### Known characters -/

theorem mem_signChars {c : Char} : c ∈ signChars ↔ (Sign.ofChar? c).isSome := by
  constructor
  · intro member
    have all : signChars.all (fun x => (Sign.ofChar? x).isSome) := by decide
    exact List.all_eq_true.1 all c member
  · intro sign
    unfold Sign.ofChar? at sign
    split at sign
    case h_21 => cases sign
    all_goals decide

theorem known_iff {c : Char} : Known c ↔ BeginsPiece c := by
  simp only [Known, BeginsPiece, mem_signChars, isGap, List.mem_cons, List.not_mem_nil, or_false,
    Bool.or_eq_true, decide_eq_true_eq]
  tauto

theorem known_of_wordChar {c : Char} (h : Text.isWordChar c) : Known c := by
  rcases Bool.or_eq_true_iff.1 h with letter | digit
  · exact .inr (.inr (.inl letter))
  · exact .inr (.inl digit)

theorem wordChar_of_digit {c : Char} (h : c.isDigit) : Text.isWordChar c := by
  rw [Text.isWordChar, h, Bool.or_true]

namespace Context

variable {x : Context} {c : Char} {cs rest : List Char} {f : ScanFault}

/-- A known character is no fault, unless it is a quote or stands where no point may stand. -/
theorem not_fault (known : Known c) (noQuote : c ≠ '"') (noPoint : x ≠ .fraction ∨ c ≠ '.') :
    ¬x.Fault c rest f := by
  intro fault
  cases fault with
  | unrecognized _ stranger => exact stranger known
  | secondPoint => simp at noPoint
  | unterminatedString => exact noQuote rfl

theorem code_not_fault (known : Known c) (noQuote : c ≠ '"') : ¬Context.code.Fault c rest f :=
  not_fault known noQuote (.inl (by decide))

theorem wordChar_not_fault (word : Text.isWordChar c) : ¬x.Fault c rest f := by
  apply not_fault (known_of_wordChar word) (not_gap word).2
  right
  rintro rfl
  exact absurd word (by decide)

theorem not_fault_inside (inside : ¬x.Reads) : ¬x.Fault c rest f := by
  intro fault
  cases fault with
  | unrecognized reads | unterminatedString reads => exact inside reads
  | secondPoint => exact inside (by decide)

theorem Fault.not_feed (fault : x.Fault c rest f) : c ≠ '\n' := by
  cases fault with
  | unrecognized _ stranger =>
    rintro rfl
    exact stranger (by decide)
  | secondPoint | unterminatedString => decide

@[simp] theorem past_nil (x : Context) : x.past [] = x := rfl

@[simp] theorem past_cons (x : Context) (c : Char) (cs : List Char) :
    x.past (c :: cs) = (x.next c).past cs := rfl

theorem past_append (x : Context) (a b : List Char) : x.past (a ++ b) = (x.past a).past b :=
  List.foldl_append

/-! ### What a character begins -/

theorem opening_digit (digit : c.isDigit) : opening c = .whole := by
  rw [opening, if_neg (not_gap (wordChar_of_digit digit)).2, if_pos digit]

theorem opening_letter (letter : Text.isAlphabetic c) : opening c = .word := by
  have word : Text.isWordChar c := by rw [Text.isWordChar, letter, Bool.true_or]
  have noDigit : ¬c.isDigit := fun digit => by simp [Text.not_alphabetic_of_digit digit] at letter
  rw [opening, if_neg (not_gap word).2, if_neg noDigit, if_pos letter]

theorem opening_gap (gap : isGap c) : opening c = .code := by
  simp only [isGap, Bool.or_eq_true, decide_eq_true_eq] at gap
  rcases gap with ((rfl | rfl) | rfl) | rfl <;> decide

theorem opening_sign (sign : (Sign.ofChar? c).isSome) : opening c = if c = '/' then .slash else .code := by
  obtain ⟨noDigit, noLetter, noQuote⟩ := Sign.plain_of_ofChar? sign
  simp only [opening, noQuote, noDigit, noLetter, Bool.false_eq_true, if_false]

/-! ## Texts without a fault -/

/-- From a context on, no character of the text is a fault. -/
def Clean : Context → List Char → List Char → Prop
  | _, [], _ => True
  | x, c :: cs, rest => (∀ f, ¬x.Fault c (cs ++ rest) f) ∧ Clean (x.next c) cs rest

theorem clean_append {a b : List Char} :
    x.Clean (a ++ b) rest ↔ x.Clean a (b ++ rest) ∧ (x.past a).Clean b rest := by
  induction a generalizing x with
  | nil => simp [Clean]
  | cons c cs ih =>
    simp only [List.cons_append, Clean, ih, past_cons, List.append_assoc]
    exact and_assoc.symm

theorem Clean.no_fault {before after : List Char} (h : x.Clean (before ++ c :: after) rest) :
    ¬(x.past before).Fault c (after ++ rest) f := by
  obtain ⟨-, clean, -⟩ := clean_append.1 h
  exact clean f

/-- A run of characters that leave a context as it is, and none of them a fault there. -/
theorem clean_run {text : List Char} (rest : List Char)
    (stays : ∀ c ∈ text, x.next c = x ∧ ∀ more f, ¬x.Fault c more f) :
    x.Clean text rest ∧ x.past text = x := by
  induction text with
  | nil => exact ⟨trivial, rfl⟩
  | cons c cs ih =>
    obtain ⟨⟨same, no⟩, others⟩ := List.forall_mem_cons.1 stays
    obtain ⟨clean, there⟩ := ih others
    rw [past_cons, same]
    refine ⟨⟨no _, ?_⟩, there⟩
    rwa [same]

/-- In a context the text is read on as at the start of a source. -/
def Rests (x : Context) (text : List Char) : Prop :=
  ∀ c ∈ text.head?, x.next c = opening c ∧ ∀ rest f, x.Fault c rest f ↔ Context.code.Fault c rest f

theorem Rests.code (text : List Char) : Context.code.Rests text := fun _ _ => ⟨rfl, fun _ _ => Iff.rfl⟩

theorem Rests.of_reads {text : List Char} (reads : x.Reads)
    (h : ∀ c ∈ text.head?, x.next c = opening c ∧ (x ≠ .fraction ∨ c ≠ '.')) : x.Rests text := by
  intro c hc
  obtain ⟨opens, noPoint⟩ := h c hc
  refine ⟨opens, fun rest f => ⟨fun fault => ?_, fun fault => ?_⟩⟩
  · cases fault with
    | unrecognized _ stranger => exact .unrecognized (by decide) stranger
    | secondPoint => simp at noPoint
    | unterminatedString _ unclosed => exact .unterminatedString (by decide) unclosed
  · cases fault with
    | unrecognized _ stranger => exact .unrecognized reads stranger
    | unterminatedString _ unclosed => exact .unterminatedString reads unclosed

/-- Where a text is read on as at the start, it is clean if it is clean there. -/
theorem Rests.clean {more : List Char} (h : x.Rests (cs ++ more)) (clean : Context.code.Clean cs rest) :
    x.Clean cs rest := by
  cases cs with
  | nil => trivial
  | cons c cs =>
    obtain ⟨opens, faults⟩ := h c rfl
    obtain ⟨no, clean⟩ := clean
    refine ⟨fun f fault => no f ((faults _ f).1 fault), ?_⟩
    rwa [opens]

theorem Rests.fault {before after : List Char} (h : x.Rests (before ++ c :: after))
    (fault : (Context.code.past before).Fault c rest f) : (x.past before).Fault c rest f := by
  cases before with
  | nil => exact ((h c rfl).2 rest f).2 fault
  | cons d ds =>
    rw [past_cons, (h d rfl).1]
    exact fault

/-! ### Runs -/

theorem clean_word (rest : List Char) {text : List Char} (all : ∀ x ∈ text, Text.isWordChar x) :
    Context.word.Clean text rest ∧ Context.word.past text = .word := by
  apply clean_run
  intro x hx
  have word := all x hx
  exact ⟨if_pos word, fun _ _ => wordChar_not_fault word⟩

theorem clean_digits (rest : List Char) (number : x = .whole ∨ x = .fraction) {text : List Char}
    (all : ∀ d ∈ text, d.isDigit) : x.Clean text rest ∧ x.past text = x := by
  apply clean_run
  intro d hd
  have digit := all d hd
  refine ⟨?_, fun _ _ => wordChar_not_fault (wordChar_of_digit digit)⟩
  rcases number with rfl | rfl
  · exact if_pos digit
  · exact if_pos digit

theorem clean_whole (rest : List Char) (first : c.isDigit) {ws : List Char} (whole : ∀ d ∈ ws, d.isDigit) :
    Context.code.Clean (c :: ws) rest ∧ Context.code.past (c :: ws) = .whole := by
  have opens : Context.code.next c = .whole := opening_digit first
  obtain ⟨clean, there⟩ := clean_digits rest (.inl rfl) whole
  rw [Clean, past_cons, opens]
  exact ⟨⟨fun _ => wordChar_not_fault (wordChar_of_digit first), clean⟩, there⟩

theorem clean_fraction (rest : List Char) (first : c.isDigit) {ws fs : List Char}
    (whole : ∀ d ∈ ws, d.isDigit) (places : ∀ d ∈ fs, d.isDigit) :
    Context.code.Clean (c :: (ws ++ '.' :: fs)) rest ∧
      Context.code.past (c :: (ws ++ '.' :: fs)) = .fraction := by
  obtain ⟨clean, there⟩ := clean_whole ('.' :: fs ++ rest) first whole
  obtain ⟨clean', there'⟩ := clean_digits rest (.inr rfl) places
  have point (f : ScanFault) : ¬Context.whole.Fault '.' (fs ++ rest) f :=
    not_fault (by decide) (by decide) (.inl (by decide))
  rw [← List.cons_append, past_append, clean_append, there]
  exact ⟨⟨clean, point, clean'⟩, there'⟩

theorem number_rests {text : List Char} (number : x = .whole ∨ x = .fraction)
    (stop : ∀ c ∈ text.head?, isNumberChar c = false) : x.Rests text := by
  have reads : x.Reads := by rcases number with rfl | rfl <;> decide
  apply Rests.of_reads reads
  intro c hc
  have other := stop c hc
  simp only [isNumberChar, Bool.or_eq_false_iff, decide_eq_false_iff_not] at other
  obtain ⟨noDigit, noPoint⟩ := other
  refine ⟨?_, .inr noPoint⟩
  rcases number with rfl | rfl <;> simp [next, noDigit, noPoint]

/-! ### Pieces -/

variable {piece : Piece}

/-- A piece has no fault, and what follows it is read on as at the start. -/
def Passes (c : Char) (piece : Piece) : Prop :=
  Context.code.Clean (c :: piece.taken) piece.rest ∧ (Context.code.past (c :: piece.taken)).Rests piece.rest

theorem passes_number (digit : c.isDigit) (h : cutNumber c cs = .ok piece) : Passes c piece := by
  obtain ⟨stop, -, parts⟩ := cutNumber_parts h
  unfold Passes
  rcases parts with whole | ⟨ws, fs, taken, whole, places⟩
  · obtain ⟨clean, there⟩ := clean_whole piece.rest digit whole
    rw [there]
    exact ⟨clean, number_rests (.inl rfl) stop⟩
  · obtain ⟨clean, there⟩ := clean_fraction piece.rest digit whole places
    rw [taken, there]
    exact ⟨clean, number_rests (.inr rfl) stop⟩

theorem passes_string (h : cutString cs = .ok piece) : Passes '"' piece := by
  obtain ⟨body, rest, inside, rfl⟩ := cutString_closed h
  have first (f : ScanFault) : ¬Context.code.Fault '"' ((body ++ ['"']) ++ rest) f := by
    intro fault
    cases fault with
    | unrecognized _ stranger => exact stranger (by decide)
    | unterminatedString _ unclosed => simp at unclosed
  have within (c : Char) (more : List Char) (f : ScanFault) : ¬Context.string.Fault c more f :=
    not_fault_inside (by decide)
  obtain ⟨clean, there⟩ : Context.string.Clean body (['"'] ++ rest) ∧ Context.string.past body = .string := by
    apply clean_run
    intro c hc
    exact ⟨if_neg (inside c hc), within c⟩
  constructor
  · refine ⟨first, clean_append.2 ⟨clean, ?_⟩⟩
    show (Context.string.past body).Clean ['"'] rest
    rw [there]
    exact ⟨within _ _, trivial⟩
  · show (Context.string.past (body ++ ['"'])).Rests rest
    rw [past_append, there]
    exact Rests.code rest

theorem passes_word (letter : Text.isAlphabetic c) : Passes c (cutWord c cs) := by
  have word : Text.isWordChar c := by rw [Text.isWordChar, letter, Bool.true_or]
  have opens : Context.code.next c = .word := opening_letter letter
  have taken : ∀ x ∈ cs.takeWhile Text.isWordChar, Text.isWordChar x := fun x hx => List.mem_takeWhile_imp hx
  obtain ⟨clean, there⟩ := clean_word (cs.dropWhile Text.isWordChar) taken
  unfold Passes
  rw [past_cons, Clean, opens]
  refine ⟨⟨fun _ => wordChar_not_fault word, clean⟩, ?_⟩
  show (Context.word.past (cs.takeWhile Text.isWordChar)).Rests _
  rw [there]
  apply Rests.of_reads (by decide : Context.word.Reads)
  intro x hx
  have other := head_dropWhile x hx
  exact ⟨if_neg (by simp [other]), .inl (by decide)⟩

theorem passes_comment (slash : cs.head? = some '/') : Passes '/' (cutComment cs) := by
  obtain ⟨cs, rfl⟩ := List.head?_eq_some_iff.1 slash
  have slashes (x : Context) (more : List Char) (f : ScanFault) : ¬x.Fault '/' more f :=
    not_fault (by decide) (by decide) (.inr (by decide))
  have within (c : Char) (more : List Char) (f : ScanFault) : ¬Context.comment.Fault c more f :=
    not_fault_inside (by decide)
  have stays : ∀ c ∈ cs.takeWhile (!endsComment ·),
      Context.comment.next c = .comment ∧ ∀ more f, ¬Context.comment.Fault c more f := by
    intro c hc
    have inside := List.mem_takeWhile_imp hc
    simp only [endsComment, Bool.not_eq_true', Bool.or_eq_false_iff, decide_eq_false_iff_not] at inside
    exact ⟨if_neg (by simp [inside]), within c⟩
  obtain ⟨clean, there⟩ := clean_run (cs.dropWhile (!endsComment ·)) stays
  constructor
  · exact ⟨slashes _ _, slashes _ _, clean⟩
  · show (Context.comment.past (cs.takeWhile (!endsComment ·))).Rests (cs.dropWhile (!endsComment ·))
    rw [there]
    -- a comment ends before a line end, which begins nothing
    intro c hc
    have ends := head_dropWhile c hc
    simp only [endsComment, Bool.not_eq_false', Bool.or_eq_true, decide_eq_true_eq] at ends
    rcases ends with rfl | rfl
    all_goals
      refine ⟨by decide, fun rest f => iff_of_false (within _ rest f) ?_⟩
      exact code_not_fault (by decide) (by decide)

theorem passes_sign (alone : c = '/' → cs.head? ≠ some '/') (h : cutSign? c cs = some piece) :
    Passes c piece := by
  have known {d : Char} (sign : (Sign.ofChar? d).isSome) : Known d := known_iff.2 (by simp [BeginsPiece, sign])
  have single (h : (Sign.ofChar? c).map (fun s => (⟨some (.sign s), [], cs⟩ : Piece)) = some piece) :
      Passes c piece := by
    obtain ⟨s, spelled, rfl⟩ := Option.map_eq_some_iff.1 h
    have sign : (Sign.ofChar? c).isSome := by rw [spelled]; rfl
    refine ⟨⟨fun _ => code_not_fault (known sign) (Sign.plain_of_ofChar? sign).2.2, trivial⟩, ?_⟩
    show (opening c).Rests cs
    rw [opening_sign sign]
    split
    · next slash =>
      apply Rests.of_reads (by decide : Context.slash.Reads)
      intro d hd
      refine ⟨if_neg ?_, .inl (by decide)⟩
      rintro rfl
      exact alone slash hd
    · exact Rests.code cs
  unfold cutSign? at h
  split at h
  · next d rest =>
    split at h
    · next s pair =>
      cases h
      -- no second character of a sign begins anything
      have second : (Context.code.next c).next d = .code ∧ Known d ∧ d ≠ '"' ∧ c ≠ '"' ∧
          (opening c ≠ .fraction ∨ d ≠ '.') := by
        unfold Sign.ofChars? at pair
        split at pair <;> first | decide | cases pair
      obtain ⟨there, known', noQuote', noQuote, noPoint⟩ := second
      have sign := Sign.ofChar?_isSome_of_ofChars? pair
      refine ⟨⟨fun _ => code_not_fault (known sign) noQuote, fun _ => not_fault known' noQuote' noPoint,
        trivial⟩, ?_⟩
      show ((Context.code.next c).next d).Rests rest
      rw [there]
      exact Rests.code rest
    · exact single h
  · exact single h

/-- Every piece that is cut is passed without a fault. -/
theorem passes (h : cut c cs = .ok piece) : Passes c piece := by
  unfold cut at h
  split at h
  · next gap =>
    cases h
    have known : Known c := known_iff.2 (.inl gap)
    have noQuote : c ≠ '"' := by
      rintro rfl
      cases gap
    refine ⟨⟨fun _ => code_not_fault known noQuote, trivial⟩, ?_⟩
    show (opening c).Rests cs
    rw [opening_gap gap]
    exact Rests.code cs
  split at h
  · next quote =>
    subst quote
    exact passes_string h
  split at h
  · next digit => exact passes_number digit h
  split at h
  · next letter =>
    cases h
    exact passes_word letter
  split at h
  · next slashes =>
    cases h
    rw [slashes.1]
    exact passes_comment slashes.2
  · next alone =>
    split at h
    · next piece' sign =>
      cases h
      exact passes_sign (fun slash next => alone ⟨slash, next⟩) sign
    · cases h

/-- What keeps a piece from being cut is a fault, and the first one. -/
theorem fault_of_snags {snag : Snag} (h : Snags c cs snag) :
    ∃ after, c :: cs = snag.before ++ snag.found :: after ∧
      Context.code.Clean snag.before (snag.found :: after) ∧
      (Context.code.past snag.before).Fault snag.found after snag.fault := by
  have reads : Context.code.Reads := by decide
  cases h with
  | unrecognized stranger =>
    exact ⟨cs, rfl, trivial, .unrecognized reads fun known => stranger (known_iff.1 known)⟩
  | unterminated unclosed =>
    exact ⟨cs, rfl, trivial, .unterminatedString reads fun quote => unclosed _ quote rfl⟩
  | @secondPoint _ ws fs more first whole places =>
    obtain ⟨clean, there⟩ := clean_fraction ('.' :: more) first whole places
    refine ⟨more, by simp, clean, ?_⟩
    rw [there]
    exact .secondPoint

end Context

/-! ## Scans -/

variable {k : Cursor} {cs : List Char}

/-- A text that can be scanned has no fault. -/
theorem scanFrom_clean {ts : List Token} (h : scanFrom k cs = .ok ts) : Context.code.Clean cs [] := by
  refine scanFrom_induction (motive := fun _ cs _ => Context.code.Clean cs []) ?_ ?_ h
  · intro k
    trivial
  · intro k c cs piece ts found scanned ih
    obtain ⟨clean, rests⟩ := Context.passes found
    rw [← List.append_nil piece.rest] at rests
    rw [← cut_append found, ← List.cons_append, Context.clean_append, List.append_nil]
    exact ⟨clean, rests.clean ih⟩

/-- A scan that fails tells the first fault and its place, and has looked at nothing behind it but for the
quote that would close a string. -/
theorem scanFrom_fault {e : ScanError} (h : scanFrom k cs = .error e) :
    ∃ before rest, cs = before ++ e.found :: rest ∧ e.span = (k.past before).span 1 ∧
      Context.code.Clean before (e.found :: rest) ∧ (Context.code.past before).Fault e.found rest e.fault ∧
      (e.fault ≠ .unterminatedString → ∀ more, scanFrom k (before ++ e.found :: more) = .error e) := by
  fun_induction scanFrom k cs generalizing e with
  | case1 | case4 | case5 => cases h
  | case2 k c cs snag failed =>
    cases h
    obtain ⟨rest, whole, clean, fault⟩ := Context.fault_of_snags (cut_snags failed)
    refine ⟨snag.before, rest, whole, rfl, clean, fault, fun decided more => ?_⟩
    obtain ⟨cs', there, again⟩ := cut_snag_again failed decided more
    show scanFrom k (snag.before ++ snag.found :: more) = _
    rw [there, scanFrom_snag k again]
  | case3 k c cs piece found e' failed ih =>
    cases h
    obtain ⟨before, rest, whole, place, clean, fault, again⟩ := ih failed
    obtain ⟨passed, rests⟩ := Context.passes found
    have all : c :: cs = c :: piece.taken ++ before ++ e'.found :: rest := by
      simp [← cut_append found, whole]
    rw [whole] at passed rests
    refine ⟨c :: piece.taken ++ before, rest, all, ?_, ?_, ?_, fun decided more => ?_⟩
    · rw [Cursor.past_append, place]
    · exact Context.clean_append.2 ⟨passed, rests.clean clean⟩
    · rw [Context.past_append]
      exact rests.fault fault
    · -- the piece is cut again, since what is behind it begins with the same character
      have head : (before ++ e'.found :: more).head? = piece.rest.head? := by
        rw [whole]
        cases before <;> rfl
      have cut := cut_again found (.inl head)
      rw [List.append_assoc, List.cons_append, scanFrom_cons k cut]
      show (_ ++ ·) <$> scanFrom (k.past (c :: piece.taken)) (before ++ e'.found :: more) = _
      rw [again decided more]
      rfl

theorem not_faultAt_of_clean {before rest : List Char} (clean : Context.code.Clean before rest) {i : Nat}
    (earlier : i < before.length) (fault : ScanFault) : ¬FaultAt (before ++ rest) i fault := by
  rintro ⟨start, c, more, whole, rfl, at_⟩
  -- the fault splits the text before `rest`
  rcases List.append_eq_append_iff.1 whole with ⟨ds, rfl, -⟩ | ⟨ds, rfl, behind⟩
  · rw [List.length_append] at earlier
    omega
  · cases ds with
    | nil =>
      rw [List.append_nil] at earlier
      exact absurd earlier (Nat.lt_irrefl _)
    | cons d ds =>
      obtain ⟨rfl, rfl⟩ := List.cons.inj behind
      exact clean.no_fault at_

/-- A scan error tells the first fault of a source: the character, its place and what is wrong with it.
What comes behind has no part in the fault, unless it is that a string is not closed. -/
structure FirstFault (source : List Char) (e : ScanError) (i : Nat) : Prop where
  found : source[i]? = some e.found
  place : e.span = .behind (source.take i) 1
  fault : FaultAt source i e.fault
  first : ∀ j < i, ∀ fault, ¬FaultAt source j fault
  decided : e.fault ≠ .unterminatedString →
    ∀ more, scan (String.ofList (source.take (i + 1) ++ more)) = .error e

theorem firstFault_of_scan {source : String} {e : ScanError} (h : scan source = .error e) :
    ∃ i, FirstFault source.toList e i := by
  obtain ⟨before, rest, whole, place, clean, fault, again⟩ := scanFrom_fault h
  rw [whole]
  refine ⟨before.length, ?_, ?_, ⟨before, e.found, rest, rfl, rfl, fault⟩, ?_, fun decided more => ?_⟩
  · simp
  · rw [place, Cursor.span_past, List.take_left]
  · intro j earlier
    exact not_faultAt_of_clean clean earlier
  · rw [scan, String.toList_ofList, List.take_length_add_append, List.append_assoc]
    exact again decided more

/-- A source cannot be scanned just where some character of it is a fault, and then the first of its faults
is told. -/
theorem scan_fails_at_first_fault (source : String) :
    ((∃ e, scan source = .error e) ↔ ∃ i fault, FaultAt source.toList i fault) ∧
      ∀ e, scan source = .error e → ∃ i, FirstFault source.toList e i := by
  refine ⟨⟨?_, ?_⟩, fun e => firstFault_of_scan⟩
  · rintro ⟨e, failed⟩
    obtain ⟨i, first⟩ := firstFault_of_scan failed
    exact ⟨i, e.fault, first.fault⟩
  · rintro ⟨i, fault, before, c, rest, whole, -, at_⟩
    cases scanned : scan source with
    | error e => exact ⟨e, rfl⟩
    | ok ts =>
      have clean := scanFrom_clean scanned
      rw [whole] at clean
      rw [← List.append_nil rest] at at_
      exact absurd at_ clean.no_fault

/-- A point in front of a name, in a string and in a comment is no fault, and a number may end with one. -/
example : scan "a1.b 2. \".\" // 1.2.3\n1.2.3" = .error ⟨⟨2, 4, 1⟩, '.', .secondPoint⟩ := by decide +kernel

end ScriptLang.Token
