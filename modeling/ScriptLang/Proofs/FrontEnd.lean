/-
# ScriptLang.Proofs.FrontEnd — the scan and the readers end, and stay inside what they read.

A scan goes from state to state, each a cursor and the text that is left.  In every state that is reached
the cursor is inside the source and not before the start of its line, every piece that is cut lies inside
the source, and each step leaves less text.

The readers go over a list of tokens with an end token at its end.  A cursor that stands in this list stays
in it: every rule of the grammar that succeeds has moved it forward, and every list and chain of phrases
stops at a token that it does not take, with one token taken at least for each phrase.  So no bound on the
readers is ever met, and the bound that a program is read with gives what every larger one gives.
-/
import ScriptLang.Proofs.Syntax.Balance
import ScriptLang.Proofs.Syntax.Progress
import ScriptLang.Proofs.Token.Joined

namespace ScriptLang

/-! ## Scans -/

namespace Token

/-- The states of a scan, before each piece and at the end. -/
inductive Reaches (source : List Char) : Cursor → List Char → Prop
  | start : Reaches source .start source
  | step {k : Cursor} {c : Char} {cs : List Char} {piece : Piece} (h : Reaches source k (c :: cs))
    (found : cut c cs = .ok piece) : Reaches source (k.past (c :: piece.taken)) piece.rest

/-- A state is inside its source: the cursor has as many characters before it as the state has left behind
the rest, here and all along the rest, and its line begins no later. -/
structure Inside (source : List Char) (k : Cursor) (cs : List Char) : Prop where
  rest : source.drop k.offset = cs
  here : k.offset + cs.length = source.length
  line : k.lineStart ≤ k.offset
  ahead : ∀ text, text <+: cs →
    (k.past text).offset = k.offset + text.length ∧ (k.past text).offset ≤ source.length ∧
      (k.past text).lineStart ≤ (k.past text).offset

/-- What a state that is not at the end comes to: a piece that is a slice of the source and leaves less
text, or a fault at a character of the source. -/
def Cuts (source : List Char) (k : Cursor) (c : Char) (cs : List Char) : Prop :=
  match cut c cs with
  | .ok piece =>
    (source.drop k.offset).take (piece.taken.length + 1) = c :: piece.taken ∧
      k.offset + (piece.taken.length + 1) ≤ source.length ∧
      (piece.kind = some .string → 2 ≤ piece.taken.length + 1) ∧ piece.rest.length < (c :: cs).length
  | .error snag =>
    source[k.offset + snag.before.length]? = some snag.found ∧
      (k.past snag.before).offset = k.offset + snag.before.length ∧
      (k.past snag.before).lineStart ≤ k.offset + snag.before.length

variable {source cs : List Char} {k : Cursor} {c : Char}

/-- A state that is reached has the text before it behind its cursor. -/
theorem Reaches.split (h : Reaches source k cs) :
    ∃ before, source = before ++ cs ∧ k = Cursor.start.past before := by
  induction h with
  | start => exact ⟨[], rfl, rfl⟩
  | @step k c cs piece _ found ih =>
    obtain ⟨before, whole, rfl⟩ := ih
    refine ⟨before ++ c :: piece.taken, ?_, (Cursor.past_append _ _ _).symm⟩
    rw [whole, List.append_assoc, List.cons_append, cut_append found]

theorem Reaches.inside (h : Reaches source k cs) : Inside source k cs := by
  obtain ⟨before, rfl, rfl⟩ := h.split
  have offset : (Cursor.start.past before).offset = before.length := by
    rw [Cursor.past_offset]
    exact Nat.zero_add _
  have line := Cursor.lineStart_le_offset (k := .start) (Nat.le_refl _) before
  refine ⟨?_, ?_, line, fun text begins => ⟨Cursor.past_offset _ _, ?_, Cursor.lineStart_le_offset line _⟩⟩
  · rw [offset, List.drop_left]
  · rw [offset, List.length_append]
  · have shorter := begins.length_le
    rw [Cursor.past_offset, offset, List.length_append]
    omega

/-- A fault is found at a character of the text, after the characters before it. -/
theorem cut_snag {snag : Snag} (h : cut c cs = .error snag) :
    snag.before ++ [snag.found] <+: c :: cs := by
  cases cut_snags h with
  | unrecognized | unterminated => exact ⟨cs, rfl⟩
  | secondPoint => simp

/-- A string has a quote after the one it begins with. -/
theorem string_closed {piece : Piece} (shape : Shape c piece) (string : piece.kind = some .string) :
    1 ≤ piece.taken.length := by
  cases shape with
  | string => simp
  | word =>
    rcases Kind.ofWord_cases _ with ⟨w, word⟩ | word <;> rw [word] at string <;> cases string
  | blank | comment | number | sign | twoChars => cases string

/-- Each step of a scan stays inside the source. -/
theorem Reaches.cuts (h : Reaches source k (c :: cs)) : Cuts source k c cs := by
  obtain ⟨before, rfl, rfl⟩ := h.split
  have offset : (Cursor.start.past before).offset = before.length := by
    rw [Cursor.past_offset]
    exact Nat.zero_add _
  have line := Cursor.lineStart_le_offset (k := .start) (Nat.le_refl _) before
  unfold Cuts
  rw [offset]
  split
  · next piece found =>
    have whole := cut_append found
    have long : piece.taken.length + piece.rest.length = cs.length := by
      rw [← whole, List.length_append]
    refine ⟨?_, ?_, fun string => ?_, ?_⟩
    · rw [List.drop_left, ← whole, List.take_succ_cons, List.take_left]
    · rw [List.length_append, List.length_cons]
      omega
    · exact Nat.succ_le_succ (string_closed (cut_shape found) string)
    · rw [List.length_cons]
      omega
  · next snag found =>
    obtain ⟨after, whole⟩ := cut_snag found
    refine ⟨?_, by rw [Cursor.past_offset, offset], ?_⟩
    · rw [← whole]
      simp
    · have inside := Cursor.lineStart_le_offset line snag.before
      rwa [Cursor.past_offset, offset] at inside

/-- A scan ends: it reaches a state in which nothing is left and has tokens, or one whose text cannot be
cut and has that fault. -/
def EndsAt (k : Cursor) (cs : List Char) (result : Except ScanError (List Token)) : Prop :=
  match cs with
  | [] => ∃ lexemes, result = .ok (lexemes ++ [⟨.eof, "", k.span 0⟩])
  | c :: cs => ∃ snag, cut c cs = .error snag ∧
      result = .error ⟨(k.past snag.before).span 1, snag.found, snag.fault⟩

/-- What ends after the first piece ends the same way with the token of that piece in front. -/
theorem EndsAt.after {result : Except ScanError (List Token)} (h : EndsAt k cs result) (front : List Token) :
    EndsAt k cs ((front ++ ·) <$> result) := by
  unfold EndsAt at h ⊢
  split at h
  · obtain ⟨lexemes, rfl⟩ := h
    exact ⟨front ++ lexemes, by simp [Functor.map, Except.map]⟩
  · obtain ⟨snag, failed, rfl⟩ := h
    exact ⟨snag, failed, rfl⟩

theorem Reaches.ends (h : Reaches source k cs) :
    ∃ k' cs', Reaches source k' cs' ∧ EndsAt k' cs' (scanFrom k cs) := by
  induction length : cs.length using Nat.strongRecOn generalizing k cs with
  | _ n ih =>
    cases cs with
    | nil => exact ⟨k, [], h, [], by rw [scanFrom]; rfl⟩
    | cons c cs =>
      cases found : cut c cs with
      | error snag => exact ⟨k, c :: cs, h, snag, found, scanFrom_snag k found⟩
      | ok piece =>
        have shorter : piece.rest.length < n := length ▸ cut_rest_length found
        obtain ⟨k', cs', later, ends⟩ := ih _ shorter (h.step found) rfl
        exact ⟨k', cs', later, scanFrom_cons k found ▸ ends.after _⟩

end Token

/-! ## Cursors in a list of tokens -/

/-- The list that the readers go over: the tokens, with an end token behind them unless one is there. -/
def Token.closed (ts : List Token) : List Token :=
  if ts.getLast?.map Token.kind = some .eof then ts
  else ts ++ [⟨.eof, "", (ts.getLast?.map Token.span).getD ⟨0, 0, 0⟩⟩]

/-- The cursor stands at index `i` of a list: there is a token, it is the next one, and the stream is what
the list holds from there on. -/
structure TokenStream.Stands (list : List Token) (i : Nat) (s : TokenStream) : Prop where
  inside : i < list.length
  shows : list[i]? = some s.peek
  left : s = TokenStream.ofList (list.drop i)

namespace TokenStream

variable {list : List Token} {i : Nat} {s t : TokenStream}

/-- A list that has an end token is a front without one, that token, and what is behind it. -/
theorem ofList_split (ended : ∃ t ∈ list, t.kind = .eof) :
    ∃ behind, list = (ofList list).tokens ++ (ofList list).eof :: behind := by
  have whole := List.takeWhile_append_dropWhile (p := fun t : Token => decide (t.kind ≠ .eof)) (l := list)
  rw [ofList_tokens]
  unfold ofList
  split
  · next eof behind found => exact ⟨behind, by rw [← found, whole]⟩
  · next none =>
    obtain ⟨t, member, eof⟩ := ended
    exact absurd eof (of_decide_eq_true (List.dropWhile_eq_nil_iff.1 none t member))

theorem ofList_inner (list : List Token) : ∀ t ∈ (ofList list).tokens, t.kind ≠ .eof := by
  intro t member
  rw [ofList_tokens] at member
  have before := List.mem_takeWhile_imp member
  exact of_decide_eq_true before

theorem Stands.of_drop (behind : List Token) (inner : ∀ t ∈ s.tokens, t.kind ≠ .eof)
    (ended : s.eof.kind = .eof) (ahead : list.drop i = s.tokens ++ s.eof :: behind) : Stands list i s where
  inside := by
    have lengths := congrArg List.length ahead
    simp only [List.length_drop, List.length_append, List.length_cons] at lengths
    omega
  shows := by
    rw [← List.head?_drop, ahead, peek]
    cases s.tokens <;> rfl
  left := by rw [ahead, ofList_before_end behind inner ended]

/-- A cursor that stands in a list with an end token at its end has one ahead. -/
theorem Stands.ahead (closed : list.getLast?.map Token.kind = some .eof) (h : Stands list i s) :
    ∃ behind, list.drop i = s.tokens ++ s.eof :: behind := by
  obtain ⟨last, final, eof⟩ := Option.map_eq_some_iff.1 closed
  rw [h.left]
  refine ofList_split ⟨last, ?_, eof⟩
  refine List.mem_of_getLast? ?_
  rw [List.getLast?_drop, if_neg (Nat.not_le.2 h.inside), final]

/-- Taking tokens leaves the cursor in its list, as much further as tokens are taken. -/
theorem Stands.leave (closed : list.getLast?.map Token.kind = some .eof) (h : Stands list i s) {k : Nat}
    (left : s.Leaves k t) : ∃ j, i + k ≤ j ∧ Stands list j t := by
  obtain ⟨behind, ahead⟩ := h.ahead closed
  obtain ⟨taken, tokens⟩ := left.suffix
  have ended : s.eof.kind = .eof := h.left ▸ ofList_eof _
  have inner : ∀ t ∈ s.tokens, t.kind ≠ .eof := h.left ▸ ofList_inner _
  refine ⟨i + taken.length, ?_, .of_drop behind ?_ (left.eof ▸ ended) ?_⟩
  · have more := left.taken
    rw [← tokens, List.length_append] at more
    omega
  · exact fun t member => inner t (left.suffix.subset member)
  · rw [← List.drop_drop, ahead, ← tokens, List.append_assoc, List.drop_left, left.eof]

theorem Stands.within (closed : list.getLast?.map Token.kind = some .eof) (h : Stands list i s) {n : Nat}
    (le : list.length ≤ n) : s.Within n where
  ended := h.left ▸ ofList_eof _
  short := by
    obtain ⟨behind, ahead⟩ := h.ahead closed
    have length := congrArg List.length ahead
    simp only [List.length_drop, List.length_append, List.length_cons] at length
    omega

end TokenStream

/-- The list that the readers go over ends with an end token. -/
theorem Token.closed_getLast? (ts : List Token) : (closed ts).getLast?.map Token.kind = some .eof := by
  unfold closed
  split
  · assumption
  · rw [List.getLast?_concat]
    rfl

/-- The readers begin at the front of that list. -/
theorem Token.closed_stands (ts : List Token) : (TokenStream.ofList ts).Stands (closed ts) 0 := by
  -- the front of the list is the stream, with its end token behind it
  have front : ∃ behind, closed ts =
      (TokenStream.ofList ts).tokens ++ (TokenStream.ofList ts).eof :: behind := by
    unfold closed
    split
    · next last =>
      obtain ⟨t, final, eof⟩ := Option.map_eq_some_iff.1 last
      exact TokenStream.ofList_split ⟨t, List.mem_of_getLast? final, eof⟩
    · by_cases ended : ∃ t ∈ ts, t.kind = .eof
      · obtain ⟨behind, whole⟩ := TokenStream.ofList_split ended
        refine ⟨behind ++ [⟨.eof, "", (ts.getLast?.map Token.span).getD ⟨0, 0, 0⟩⟩], ?_⟩
        rw [← List.cons_append, ← List.append_assoc, ← whole]
      · have none : ts.dropWhile (·.kind ≠ .eof) = [] :=
          List.dropWhile_eq_nil_iff.2 fun t member => decide_eq_true fun eof => ended ⟨t, member, eof⟩
        unfold TokenStream.ofList
        rw [none]
        exact ⟨[], rfl⟩
  obtain ⟨behind, front⟩ := front
  refine .of_drop behind (TokenStream.ofList_inner ts) (TokenStream.ofList_eof ts) ?_
  rw [List.drop_zero, front]

/-! ## Readers in a list of tokens -/

/-- The readers of phrases that nest less than `n` deep. -/
def Phrases.within (n : Nat) : Phrases := ⟨n + 1, readExpression n, readStatement n⟩

namespace Grammar

/-- The rules of the grammar. -/
inductive Rule : {α : Type} → (Phrases → Parse α) → Prop
  | statement : Rule statement
  | bareStatement : Rule bareStatement
  | block (place : Place) : Rule (block · place)
  | variableDeclaration (visibility : Option Visibility) : Rule (variableDeclaration · visibility)
  | functionDeclaration (visibility : Option Visibility) : Rule (functionDeclaration · visibility)
  | parameter : Rule fun _ => parameter
  | parameters (place : Place) : Rule fun self => untilParenthesis self parameter place
  | classDeclaration : Rule classDeclaration
  | classMember : Rule classMember
  | conditional (word : Keyword) : Rule (conditional · word)
  | forLoop : Rule forLoop
  | loopCounter : Rule loopCounter
  | loopIterator (name : String) : Rule (loopIterator · name)
  | expression : Rule expression
  | instantiation : Rule instantiation
  | comparison : Rule comparison
  | sum : Rule sum
  | product : Rule product
  | callChain : Rule callChain
  | memberOf (object : Expr) : Rule (memberOf · object)
  | arguments (place : Place) : Rule (arguments · place)
  | primary : Rule primary
  | arrayLiteral (span : Span) : Rule (arrayLiteral · span)
  | objectLiteral (span : Span) : Rule (objectLiteral · span)
  | property : Rule property

/-- The lists of phrases in the grammar, each with the kinds of tokens where it stops. -/
inductive Listing : {α : Type} → (Phrases → Parse (List α)) → (Kind → Prop) → Prop
  | program : Listing (fun self => phrasesToEnd self.statement (· = .eof) self.bound) (· = .eof)
  | block : Listing (fun self => phrasesToEnd self.statement endsBody self.bound) (endsBody ·)
  | members : Listing (fun self => phrasesToEnd (classMember self) endsBody self.bound) (endsBody ·)
  | elements (between : Place) :
      Listing (fun self => phrasesInLiteral self.expression (.sign .rightBracket) between self.bound)
        fun k => k = .sign .rightBracket ∨ k = .eof
  | properties (between : Place) :
      Listing (fun self => phrasesInLiteral (property self) (.sign .rightBrace) between self.bound)
        fun k => k = .sign .rightBrace ∨ k = .eof
  | parameters : Listing (fun self => phrasesByComma parameter self.bound) (· ≠ .sign .comma)
  | arguments : Listing (fun self => phrasesByComma self.expression self.bound) (· ≠ .sign .comma)

/-- What goes on after a phrase or a word and may take nothing, with the kinds of tokens where it stops. -/
inductive Tail : {α : Type} → (Phrases → Parse α) → (Kind → Prop) → Prop
  | comparisons (e : Expr) : Tail
      (fun self => operandsAfter comparisonOperator? (sum self) self.bound e) (comparisonOperator? · = none)
  | sums (e : Expr) : Tail
      (fun self => operandsAfter additiveOperator? (product self) self.bound e) (additiveOperator? · = none)
  | products (e : Expr) : Tail
      (fun self => operandsAfter multiplicativeOperator? (callChain self) self.bound e)
      (multiplicativeOperator? · = none)
  | calls (e : Expr) : Tail (fun self => callsAfter self self.bound e)
      fun k => k ≠ .sign .leftParen ∧ k ≠ .sign .dot ∧ k ≠ .sign .leftBracket
  | members (e : Expr) : Tail (fun self => membersAfter self self.bound e)
      fun k => k ≠ .sign .dot ∧ k ≠ .sign .leftBracket
  | assignment (e : Expr) : Tail (assignmentTo · e) fun _ => True
  | returnedValue (span : Span) : Tail (returnedValue · span) fun _ => True
  | visibilityMark : Tail (fun _ => visibilityMark) fun _ => True

/-- The steps that all readers are made of. -/
inductive Step : {α : Type} → Parse α → Prop
  | peek : Step Parse.peek
  | advance : Step Parse.advance
  | skipSemicolons : Step Parse.skipSemicolons
  | accept (kind : Kind) : Step (Parse.accept kind)
  | expect (kind : Kind) (place : Place) : Step (Parse.expect kind place)

/-- Wherever the cursor stands in the list, and whatever the bound is that is no less than the length of
the list: the reader does what it does under every larger bound, and it fails, but not for a bound, or it
leaves the cursor in the list, `k` tokens further or more, at a token of a kind where it stops. -/
def Ends {α : Type} (list : List Token) (r : Phrases → Parse α) (k : α → Nat) (stop : Kind → Prop) : Prop :=
  ∀ n, list.length ≤ n → ∀ i s, s.Stands list i → (∀ N, n ≤ N → r (.within N) s = r (.within n) s) ∧
    match r (.within n) s with
    | .error e => e.fault ≠ .invalid .tooDeep
    | .ok (a, t) => ∃ j, i + k a ≤ j ∧ t.Stands list j ∧ stop t.peek.kind

variable {α : Type} {list : List Token} {r : Phrases → Parse α} {k : α → Nat} {stop : Kind → Prop}

open Parse (Settles)

theorem within_settle {n N : Nat} (le : n ≤ N) : (Phrases.within n).Settle n (.within N) :=
  ⟨Nat.le_succ n, Nat.le_succ_of_le le, (readers_settle le).1, (readers_settle le).2⟩

/-- A reader that settles ends. -/
theorem Ends.of_settles (closed : list.getLast?.map Token.kind = some .eof)
    (settles : ∀ n N, n ≤ N → Settles 0 n (r (.within n)) (r (.within N)))
    (leaves : ∀ n s a t, s.Within n → r (.within n) s = .ok (a, t) → s.Leaves (k a) t ∧ stop t.peek.kind) :
    Ends list r k stop := by
  intro n long i s stands
  have hs := stands.within closed long
  refine ⟨fun N le => (settles n N le s hs).same, ?_⟩
  have here := settles n n (Nat.le_refl n) s hs
  split
  · next e failed => exact here.fails e failed
  · next a t read =>
    obtain ⟨left, stops⟩ := leaves n s a t hs read
    obtain ⟨j, further, there⟩ := stands.leave closed left
    exact ⟨j, further, there, stops⟩

theorem Rule.settles (h : Rule r) {n N : Nat} (le : n ≤ N) :
    Settles 1 n (r (.within n)) (r (.within N)) := by
  have parts := within_settle le
  have up := Nat.le_succ n
  cases h with
  | statement => exact (statement_settles parts).lower up
  | bareStatement => exact (bareStatement_settles parts).lower up
  | block place => exact (block_settles parts place).lower up
  | variableDeclaration v => exact (variableDeclaration_settles parts v).lower up
  | functionDeclaration v => exact (functionDeclaration_settles parts v).lower up
  | parameter => exact parameter_settles.lower up
  | parameters place => exact untilParenthesis_settles parts (parameter_settles.lower up) place
  | classDeclaration => exact (classDeclaration_settles parts).lower up
  | classMember => exact (classMember_settles parts).lower up
  | conditional word => exact (conditional_settles parts word).lower up
  | forLoop => exact (forLoop_settles parts).lower up
  | loopCounter => exact (loopCounter_settles parts).lower up
  | loopIterator name => exact (loopIterator_settles parts name).lower up
  | expression => exact (expression_settles parts).lower up
  | instantiation => exact (instantiation_settles parts).lower up
  | comparison => exact (comparison_settles parts).lower up
  | sum => exact (sum_settles parts).lower up
  | product => exact (product_settles parts).lower up
  | callChain => exact (callChain_settles parts).lower up
  | memberOf object => exact (memberOf_settles parts object).lower up
  | arguments place => exact (arguments_settles parts place).lower up
  | primary => exact (primary_settles parts).lower up
  | arrayLiteral span => exact arrayLiteral_settles parts span
  | objectLiteral span => exact objectLiteral_settles parts span
  | property => exact (property_settles parts).lower up

theorem Rule.ends (closed : list.getLast?.map Token.kind = some .eof) (h : Rule r) :
    Ends list r (fun _ => 1) fun _ => True :=
  .of_settles closed (fun _ _ le => (h.settles le).le) fun n s a t hs read =>
    ⟨(h.settles (Nat.le_refl n) s hs).takes a t read, trivial⟩

theorem Listing.ends {r : Phrases → Parse (List α)} (closed : list.getLast?.map Token.kind = some .eof)
    (h : Listing r stop) : Ends list r List.length stop := by
  have parts {n N : Nat} (le : n ≤ N) := within_settle le
  have statement {n N : Nat} (le : n ≤ N) := (parts le).statement
  have expression {n N : Nat} (le : n ≤ N) := (parts le).expression
  have refl := Nat.le_refl
  cases h with
  | program =>
    refine .of_settles closed (fun n N le => ?_) fun n s xs t hs read => ?_
    · exact phrasesToEnd_settles (statement le) _ (parts le).bound (parts le).bound'
    · exact ⟨phrasesToEnd_leaves (statement (refl n)) hs read, of_decide_eq_true (phrasesToEnd_ends read)⟩
  | block =>
    refine .of_settles closed (fun n N le => ?_) fun n s xs t hs read => ?_
    · exact phrasesToEnd_settles (statement le) _ (parts le).bound (parts le).bound'
    · exact ⟨phrasesToEnd_leaves (statement (refl n)) hs read, phrasesToEnd_ends read⟩
  | members =>
    have member {n N : Nat} (le : n ≤ N) := Rule.classMember.settles le
    refine .of_settles closed (fun n N le => ?_) fun n s xs t hs read => ?_
    · exact phrasesToEnd_settles (member le) _ (parts le).bound (parts le).bound'
    · exact ⟨phrasesToEnd_leaves (member (refl n)) hs read, phrasesToEnd_ends read⟩
  | elements between =>
    refine .of_settles closed (fun n N le => ?_) fun n s xs t hs read => ?_
    · exact phrasesInLiteral_settles (expression le) _ _ (parts le).bound (parts le).bound'
    · exact phrasesInLiteral_leaves (expression (refl n)) hs read
  | properties between =>
    have property {n N : Nat} (le : n ≤ N) := Rule.property.settles le
    refine .of_settles closed (fun n N le => ?_) fun n s xs t hs read => ?_
    · exact phrasesInLiteral_settles (property le) _ _ (parts le).bound (parts le).bound'
    · exact phrasesInLiteral_leaves (property (refl n)) hs read
  | parameters =>
    have parameter {n N : Nat} (le : n ≤ N) := Rule.parameter.settles le
    refine .of_settles closed (fun n N le => ?_) fun n s xs t hs read => ?_
    · exact (phrasesByComma_settles (parameter le) (parts le).bound (parts le).bound').le
    · exact phrasesByComma_leaves (parameter (refl n)) hs read
  | arguments =>
    refine .of_settles closed (fun n N le => ?_) fun n s xs t hs read => ?_
    · exact (phrasesByComma_settles (expression le) (parts le).bound (parts le).bound').le
    · exact phrasesByComma_leaves (expression (refl n)) hs read

theorem Tail.ends (closed : list.getLast?.map Token.kind = some .eof) (h : Tail r stop) :
    Ends list r (fun _ => 0) stop := by
  -- with the settling of the reader, only where it stops is left to be told
  have stops (settles : ∀ n N, n ≤ N → Settles 0 n (r (.within n)) (r (.within N)))
      (here : ∀ n, Parse.Stops stop (r (.within n))) : Ends list r (fun _ => 0) stop :=
    .of_settles closed settles fun n s a t hs read =>
      ⟨(settles n n (Nat.le_refl n) s hs).takes a t read, here n s a t read⟩
  have anywhere (n : Nat) : Parse.Stops (fun _ => True) (r (.within n)) := fun _ _ _ _ => trivial
  have parts {n N : Nat} (le : n ≤ N) := within_settle le
  have up (n : Nat) := Nat.le_succ n
  cases h with
  | comparisons e =>
    refine stops (fun n N le => ?_) fun n => operandsAfter_stops _ _ e
    exact operandsAfter_settles _ (Rule.sum.settles le) (parts le).bound (parts le).bound' e
  | sums e =>
    refine stops (fun n N le => ?_) fun n => operandsAfter_stops _ _ e
    exact operandsAfter_settles _ (Rule.product.settles le) (parts le).bound (parts le).bound' e
  | products e =>
    refine stops (fun n N le => ?_) fun n => operandsAfter_stops _ _ e
    exact operandsAfter_settles _ (Rule.callChain.settles le) (parts le).bound (parts le).bound' e
  | calls e =>
    refine stops (fun n N le => ?_) fun n => callsAfter_stops _ e
    exact callsAfter_settles (parts le) (up n) (parts le).bound (parts le).bound' e
  | members e =>
    refine stops (fun n N le => ?_) fun n => membersAfter_stops _ e
    exact membersAfter_settles (parts le) (up n) (parts le).bound (parts le).bound' e
  | assignment e => exact stops (fun n N le => (assignmentTo_settles (parts le) e).lower (up n)) anywhere
  | returnedValue span => exact stops (fun n N le => returnedValue_settles (parts le) span) anywhere
  | visibilityMark => exact stops (fun n N le => visibilityMark_settles) anywhere

theorem Step.ends {p : Parse α} (closed : list.getLast?.map Token.kind = some .eof) (h : Step p) :
    Ends list (fun _ => p) (fun _ => 0) fun _ => True := by
  have settles (n : Nat) : Settles 0 n p p := by
    cases h with
    | peek => exact fun s _ => .ok rfl rfl (.refl s)
    | advance => exact .advance
    | skipSemicolons => exact .skipSemicolons
    | accept kind => exact .accept kind
    | expect kind place =>
      intro s _
      by_cases found : s.peek.kind = kind
      · exact .ok (if_pos found) (if_pos found) s.leaves_next
      · exact .error (if_neg found) (if_neg found) nofun
  exact .of_settles closed (fun n _ _ => settles n) fun n s a t hs read =>
    ⟨(settles n s hs).takes a t read, trivial⟩

end Grammar

/-- The statements of a program under a bound. -/
def Program.ofStream (n : Nat) (s : TokenStream) : Except ParseError Program :=
  Prod.fst <$> Grammar.phrasesToEnd (readStatement n) (· = .eof) n s

theorem Program.ofStream_eq_error {n : Nat} {s : TokenStream} {e : ParseError} :
    ofStream n s = .error e ↔ Grammar.phrasesToEnd (readStatement n) (· = .eof) n s = .error e := by
  unfold ofStream
  cases Grammar.phrasesToEnd (readStatement n) (· = .eof) n s with
  | error e' => exact ⟨fun failed => by cases failed; rfl, fun failed => by cases failed; rfl⟩
  | ok r => exact ⟨nofun, nofun⟩

/-- A bound above the number of tokens is not met, and so is none. -/
theorem Program.ofStream_settles {s : TokenStream} {n N : Nat} (hs : s.Within n) (le : n ≤ N) :
    ofStream N s = ofStream n s ∧ ∀ e, ofStream n s = .error e → e.fault ≠ .invalid .tooDeep := by
  have settles := Grammar.phrasesToEnd_settles (readers_settle le).2 (· = .eof) (Nat.le_refl n) le s hs
  refine ⟨?_, fun e failed => settles.fails e (ofStream_eq_error.1 failed)⟩
  unfold ofStream
  rw [settles.same]

theorem Program.ofTokens?_ends (ts : List Token) :
    (∀ n, (TokenStream.ofList ts).tokens.length < n → ofStream n (TokenStream.ofList ts) = ofTokens? ts) ∧
      ∀ e, ofTokens? ts = .error e → e.fault ≠ .invalid .tooDeep := by
  have within : (TokenStream.ofList ts).Within ((TokenStream.ofList ts).tokens.length + 1) :=
    ⟨TokenStream.ofList_eof ts, Nat.lt_succ_self _⟩
  exact ⟨fun n le => (ofStream_settles within le).1, (ofStream_settles within (Nat.le_refl _)).2⟩

/-- The front end ends on every input.  A scan reaches only states inside the source, each step stays
there and leaves less text, and the state in which it stops gives its result.  Over every list of tokens
the cursor of the readers begins in the list and stays in it, every rule that succeeds has moved it
forward, every list of phrases has moved it forward by one token for each phrase and stops at a token that
it does not take, and none of this depends on a bound; so a program is read, or fails for another reason,
whatever the bound is. -/
theorem front_end_ends :
    (∀ source k cs, Token.Reaches source k cs →
      Token.Inside source k cs ∧ ∀ c rest, cs = c :: rest → Token.Cuts source k c rest) ∧
    (∀ source : String, ∃ k cs, Token.Reaches source.toList k cs ∧ Token.EndsAt k cs (Token.scan source)) ∧
    ∀ ts, (TokenStream.ofList ts).Stands (Token.closed ts) 0 ∧
      (∀ {α : Type} {p : Parse α}, Grammar.Step p →
        Grammar.Ends (Token.closed ts) (fun _ => p) (fun _ => 0) fun _ => True) ∧
      (∀ {α : Type} {r : Phrases → Parse α}, Grammar.Rule r →
        Grammar.Ends (Token.closed ts) r (fun _ => 1) fun _ => True) ∧
      (∀ {α : Type} {r : Phrases → Parse (List α)} {stop : Kind → Prop}, Grammar.Listing r stop →
        Grammar.Ends (Token.closed ts) r List.length stop) ∧
      (∀ {α : Type} {r : Phrases → Parse α} {stop : Kind → Prop}, Grammar.Tail r stop →
        Grammar.Ends (Token.closed ts) r (fun _ => 0) stop) ∧
      (∀ n, (TokenStream.ofList ts).tokens.length < n →
        Program.ofStream n (TokenStream.ofList ts) = Program.ofTokens? ts) ∧
      ∀ e, Program.ofTokens? ts = .error e → e.fault ≠ .invalid .tooDeep := by
  refine ⟨fun source k cs h => ⟨h.inside, ?_⟩, fun source => ?_, fun ts => ?_⟩
  · rintro c rest rfl
    exact h.cuts
  · exact Token.Reaches.start.ends
  · have closed := Token.closed_getLast? ts
    exact ⟨Token.closed_stands ts, fun h => h.ends closed, fun h => h.ends closed, fun h => h.ends closed,
      fun h => h.ends closed, Program.ofTokens?_ends ts⟩

end ScriptLang
