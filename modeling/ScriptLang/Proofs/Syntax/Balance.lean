/-
# ScriptLang.Proofs.Syntax.Balance — what is read closes its brackets.

A reader that succeeds has taken tokens from the front of its stream.  `Parse.Turns` says what those
tokens do to the brackets that are open, and one rule for each way to build a reader says how two such
facts go together.  Every rule of the grammar is balanced: it leaves open what was open before it, and no
more.  A rule that takes a bracket is settled with the token it has looked at; the rest follows from the
parts, given that the readers of the two phrases that contain themselves are balanced.
-/
import ScriptLang.Proofs.Syntax.Brackets
import Mathlib.Data.List.TakeWhile

namespace ScriptLang

namespace Parse

variable {α β : Type}

/-- From the stream `s` the reader takes tokens that turn the open brackets `σ` into `τ`. -/
def Turns (p : Parse α) (s : TokenStream) (σ τ : List Bracket) : Prop :=
  s.eof.kind = .eof → ∀ a t, p s = .ok (a, t) →
    t.eof = s.eof ∧ ∃ taken, s.tokens = taken ++ t.tokens ∧ openAfter σ (taken.map Token.kind) = some τ

/-- A reader that closes what it opens, and nothing else. -/
def Balanced (p : Parse α) : Prop := ∀ s σ, p.Turns s σ σ

/-! ## Steps -/

namespace Turns

variable {s : TokenStream} {σ τ υ : List Bracket}

theorem stay {p : Parse α} {a : α} (h : p s = .ok (a, s)) : p.Turns s σ σ := by
  intro _ _ t read
  rw [h] at read
  cases read
  exact ⟨rfl, [], rfl, rfl⟩

theorem fail {p : Parse α} {e : ParseError} (h : p s = .error e) : p.Turns s σ τ := by
  intro _ a t read
  rw [h] at read
  cases read

theorem bind {p : Parse α} {c : α → Parse β} (h : p.Turns s σ τ) (k : ∀ a t, (c a).Turns t τ υ) :
    (p >>= c).Turns s σ υ := by
  intro eof b u read
  obtain ⟨a, t, first, second⟩ := bind_eq_ok.1 read
  obtain ⟨same, taken, tokens, walk⟩ := h eof a t first
  obtain ⟨same', taken', tokens', walk'⟩ := k a t (by rw [same, eof]) b u second
  refine ⟨same'.trans same, taken ++ taken', ?_, ?_⟩
  · rw [tokens, tokens', List.append_assoc]
  · rw [List.map_append, openAfter_append, walk]
    exact walk'

theorem map {p : Parse α} {c : α → β} (h : p.Turns s σ τ) : (c <$> p).Turns s σ τ := by
  intro eof b u read
  rw [map_run] at read
  split at read
  · next a t first =>
    cases read
    exact h eof a _ first
  · cases read

theorem ite {c : Prop} [Decidable c] {p q : Parse α} (h : c → p.Turns s σ τ) (h' : ¬c → q.Turns s σ τ) :
    (if c then p else q).Turns s σ τ := by
  split
  · exact h ‹_›
  · exact h' ‹_›

/-- A reader that looks at a token goes on with that token in hand. -/
theorem peek_bind {c : Token → Parse β} (h : (c s.peek).Turns s σ τ) :
    (Parse.peek >>= c).Turns s σ τ := by
  intro eof b u read
  rw [bind_run] at read
  exact h eof b u read

/-- The next token is taken.  At the end nothing is, and the end token opens and closes nothing. -/
theorem next {p : Parse α} {a : α} (h : p s = .ok (a, s.next))
    (turn : s.peek.kind.turn σ = some τ) : p.Turns s σ τ := by
  intro eof _ _ read
  rw [h] at read
  cases read
  refine ⟨rfl, ?_⟩
  obtain ⟨tokens, last⟩ := s
  cases tokens with
  | nil =>
    -- the end token is not taken, and its turn changes nothing
    refine ⟨[], rfl, ?_⟩
    rw [show TokenStream.peek ⟨[], last⟩ = last from rfl, eof] at turn
    exact turn
  | cons first rest =>
    refine ⟨[first], rfl, ?_⟩
    rw [List.map_singleton, openAfter, show first.kind.turn σ = some τ from turn]
    rfl

theorem advance (turn : s.peek.kind.turn σ = some τ) : Parse.advance.Turns s σ τ :=
  next rfl turn

/-- A reader that takes a token it has looked at goes on with that token in hand. -/
theorem advance_bind {c : Token → Parse β} (turn : s.peek.kind.turn σ = some τ)
    (k : ∀ t, (c s.peek).Turns t τ υ) : (Parse.advance >>= c).Turns s σ υ := by
  intro eof b u read
  rw [bind_run] at read
  have rest : ((Parse.advance : Parse Token) >>= fun _ => c s.peek).Turns s σ υ :=
    (advance turn).bind fun _ t => k t
  exact rest eof b u (by rw [bind_run]; exact read)

theorem expect {kind : Kind} {place : Place} (turn : kind.turn σ = some τ) :
    (Parse.expect kind place).Turns s σ τ := by
  by_cases found : s.peek.kind = kind
  · exact next (if_pos found) (by rw [found, turn])
  · exact fail (if_neg found)

end Turns

namespace Balanced

theorem pure (a : α) : (Pure.pure a : Parse α).Balanced :=
  fun _ _ => .stay rfl

theorem invalid (span : Span) (breach : RuleBreach) : (Parse.invalid span breach : Parse α).Balanced :=
  fun _ _ => .fail rfl

theorem unexpected (kind : Kind) (place : Place) : (Parse.unexpected kind place : Parse α).Balanced :=
  fun _ _ => .fail rfl

theorem tooDeep : (Parse.tooDeep : Parse α).Balanced := fun _ _ => .fail rfl

theorem bind {p : Parse α} {c : α → Parse β} (h : p.Balanced) (k : ∀ a, (c a).Balanced) :
    (p >>= c).Balanced :=
  fun s σ => (h s σ).bind fun a t => k a t σ

theorem map {p : Parse α} {c : α → β} (h : p.Balanced) : (c <$> p).Balanced := fun s σ => (h s σ).map

theorem ite {c : Prop} [Decidable c] {p q : Parse α} (h : p.Balanced) (h' : q.Balanced) :
    (if c then p else q).Balanced :=
  fun s σ => .ite (fun _ => h s σ) fun _ => h' s σ

theorem peek : Parse.peek.Balanced :=
  fun _ _ => .stay rfl

theorem expect {kind : Kind} (place : Place) (plain : kind.isPlain) :
    (Parse.expect kind place).Balanced :=
  fun _ σ => .expect (Kind.turn_of_isPlain plain σ)

theorem expectName (place : Place) : (Parse.expectName place).Balanced :=
  (expect place rfl).bind fun _ => pure _

theorem accept {kind : Kind} (plain : kind.isPlain) : (Parse.accept kind).Balanced := by
  intro s σ
  by_cases found : s.peek.kind = kind
  · exact .next (if_pos found) (by rw [found, Kind.turn_of_isPlain plain])
  · exact .stay (if_neg found)

theorem skipSemicolons : Parse.skipSemicolons.Balanced := by
  intro s σ _ a t read
  obtain ⟨-, rfl⟩ := Prod.mk.inj (Except.ok.inj read)
  refine ⟨rfl, s.tokens.takeWhile (·.kind = .sign .semicolon), List.takeWhile_append_dropWhile.symm, ?_⟩
  refine openAfter_of_plain (fun k hk => ?_) σ
  obtain ⟨u, hu, rfl⟩ := List.mem_map.1 hk
  have semicolon := List.mem_takeWhile_imp hu
  rw [of_decide_eq_true semicolon]
  rfl

end Balanced

end Parse

/-! ## Lists of phrases -/

/-- The readers of the two phrases that contain themselves are balanced. -/
structure Phrases.Balanced (parts : Phrases) : Prop where
  expression : parts.expression.Balanced
  statement : parts.statement.Balanced

namespace Grammar

open Parse (Balanced Turns)

section

variable {α : Type} {p : Parse α}

theorem phrasesToEnd_balanced (h : p.Balanced) (ends : Kind → Bool) (n : Nat) :
    (phrasesToEnd p ends n).Balanced := by
  induction n with
  | zero => exact .tooDeep
  | succ n ih =>
    refine Balanced.skipSemicolons.bind fun _ => Balanced.peek.bind fun t => ?_
    exact .ite (.pure _) (h.bind fun first => ih.bind fun rest => .pure _)

theorem phrasesByComma_balanced (h : p.Balanced) (n : Nat) : (phrasesByComma p n).Balanced := by
  induction n with
  | zero => exact .tooDeep
  | succ n ih =>
    refine h.bind fun first => (Balanced.accept rfl).bind fun more => ?_
    exact .ite (ih.bind fun rest => .pure _) (.pure _)

theorem phrasesInLiteral_balanced (h : p.Balanced) (closing : Kind) (between : Place) (n : Nat) :
    (phrasesInLiteral p closing between n).Balanced := by
  induction n with
  | zero => exact .tooDeep
  | succ n ih =>
    refine Balanced.peek.bind fun t => .ite (.pure _) ?_
    refine h.bind fun first => Balanced.peek.bind fun after => .ite ?_ ?_
    · exact (Balanced.expect _ rfl).bind fun _ => ih.bind fun rest => .pure _
    · exact ih.bind fun rest => .pure _

theorem operandsAfter_balanced {operator? : Kind → Option Operator}
    (plain : ∀ k o, operator? k = some o → k.isPlain) {operand : Parse Expr} (h : operand.Balanced)
    (n : Nat) (left : Expr) : (operandsAfter operator? operand n left).Balanced := by
  induction n generalizing left with
  | zero => exact .tooDeep
  | succ n ih =>
    intro s σ
    refine .peek_bind ?_
    cases found : operator? s.peek.kind with
    | none => exact Balanced.pure left s σ
    | some operator =>
      refine .advance_bind (Kind.turn_of_isPlain (plain _ _ found) σ) fun t => ?_
      exact (h.bind fun right => ih _) t σ

theorem comparisonOperator?_isPlain (k : Kind) (o : Operator) (h : comparisonOperator? k = some o) :
    k.isPlain := by
  unfold comparisonOperator? at h
  split at h
  all_goals first | rfl | cases h

theorem additiveOperator?_isPlain (k : Kind) (o : Operator) (h : additiveOperator? k = some o) :
    k.isPlain := by
  unfold additiveOperator? at h
  split at h
  all_goals first | rfl | cases h

theorem multiplicativeOperator?_isPlain (k : Kind) (o : Operator)
    (h : multiplicativeOperator? k = some o) : k.isPlain := by
  unfold multiplicativeOperator? at h
  split at h
  all_goals first | rfl | cases h

theorem update?_isPlain {k : Kind} {u : Update} (h : update? k = some u) : k.isPlain := by
  unfold update? at h
  split at h
  all_goals first | rfl | cases h

end

variable {parts : Phrases} (h : parts.Balanced)

include h

/-! ## Declarations -/

theorem block_balanced (place : Place) : (block parts place).Balanced := by
  intro s σ
  refine Turns.bind (.expect rfl) fun _ t => ?_
  refine Turns.bind (phrasesToEnd_balanced h.statement _ _ t (.brace :: σ)) fun body u => ?_
  exact Turns.bind (.expect rfl) fun _ v => Balanced.pure body v σ

/-- A declaration takes the word it begins with, whatever that word is, so the word is a premise. -/
theorem variableDeclaration_turns (visibility : Option Visibility) {s : TokenStream}
    (plain : s.peek.kind.isPlain) (σ : List Bracket) :
    (variableDeclaration parts visibility).Turns s σ σ := by
  refine .advance_bind (Kind.turn_of_isPlain plain σ) fun t => ?_
  refine Balanced.bind (.expectName _) (fun name => Balanced.peek.bind fun u => ?_) t σ
  refine .ite (.ite (.invalid _ _) (.pure _)) ?_
  exact (Balanced.expect _ rfl).bind fun _ => h.expression.bind fun value => .pure _

omit h in
theorem parameter_balanced : parameter.Balanced := by
  intro s σ
  refine .peek_bind (.ite (fun found => ?_) fun _ => Balanced.invalid _ _ s σ)
  exact .advance_bind (by rw [found]; rfl) fun t => Balanced.pure _ t σ

omit h in
/-- The list closes the parenthesis that was opened before it. -/
theorem untilParenthesis_turns {α : Type} {p : Parse α} (hp : p.Balanced) (place : Place)
    (s : TokenStream) (σ : List Bracket) :
    (untilParenthesis parts p place).Turns s (.parenthesis :: σ) σ := by
  -- the list may be empty; either way the parenthesis is next
  have close (items : List α) (t : TokenStream) :
      (Parse.expect (.sign .rightParen) place >>= fun _ => pure items).Turns t (.parenthesis :: σ) σ :=
    Turns.bind (.expect rfl) fun _ u => Balanced.pure items u σ
  refine .peek_bind (.ite (fun _ => close [] s) fun _ => ?_)
  exact Turns.bind (phrasesByComma_balanced hp _ s _) close

theorem functionDeclaration_balanced (visibility : Option Visibility) :
    (functionDeclaration parts visibility).Balanced := by
  -- with a name or without one, the rest is read in the same way
  have rest (first : Token) (isAsync : Bool) (name : Option String) :
      (if name.isNone && visibility.isSome then Parse.invalid first.span .anonymousMember
       else do
        let _ ← Parse.expect (.sign .leftParen) .parametersStart
        let parameters ← untilParenthesis parts parameter .parametersEnd
        let body ← block parts .functionBodyStart
        return (⟨name, parameters, body, isAsync, visibility⟩ : FunctionDeclaration)).Balanced := by
    refine .ite (.invalid _ _) fun s σ => ?_
    refine Turns.bind (.expect rfl) fun _ t => ?_
    refine Turns.bind (untilParenthesis_turns parameter_balanced _ t σ) fun parameters u => ?_
    exact (block_balanced h _).bind (fun body => .pure _) u σ
  refine Balanced.peek.bind fun first => (Balanced.accept rfl).bind fun isAsync => ?_
  refine (Balanced.expect _ rfl).bind fun _ => fun s σ => .peek_bind (.ite (fun found => ?_) fun _ => ?_)
  · refine .advance_bind (by rw [found]; rfl) fun t => ?_
    exact (Balanced.pure _).bind (fun name => rest _ _ name) t σ
  · exact (Balanced.pure _).bind (fun name => rest _ _ name) s σ

omit h in
theorem visibilityMark_balanced : visibilityMark.Balanced := by
  intro s σ
  refine .peek_bind ?_
  split
  case h_1 found | h_2 found =>
    exact .advance_bind (by rw [found]; rfl) fun t => Balanced.pure _ t σ
  case h_3 => exact Balanced.pure _ s σ

theorem classMember_balanced : (classMember parts).Balanced := by
  refine Balanced.peek.bind fun first => visibilityMark_balanced.bind fun visibility => fun s σ => ?_
  refine .peek_bind ?_
  split
  case h_1 found | h_2 found =>
    refine (variableDeclaration_turns h _ (by rw [found]; rfl) σ).bind fun property t => ?_
    cases visibility with
    | none => exact Balanced.invalid _ _ t σ
    | some visibility => exact (Balanced.accept rfl).bind (fun _ => .pure _) t σ
  case h_3 | h_4 =>
    refine (functionDeclaration_balanced h _).bind (fun method => ?_) s σ
    cases method.name with
    | none => exact .invalid _ _
    | some name =>
      refine .ite (.invalid _ _) ?_
      cases visibility with
      | none => exact .ite (.pure _) (.invalid _ _)
      | some visibility => exact .pure _
  case h_5 => exact Balanced.invalid _ _ s σ

/-- Like a declaration of a variable, that of a class takes the word it begins with. -/
theorem classDeclaration_turns {s : TokenStream} (plain : s.peek.kind.isPlain) (σ : List Bracket) :
    (classDeclaration parts).Turns s σ σ := by
  -- with a superclass or without one, the body is read in the same way
  have rest (name : String) (superclass : Option String) :
      (do
        let _ ← Parse.expect (.sign .leftBrace) .classBodyStart
        let members ← phrasesToEnd (classMember parts) endsBody parts.bound
        let _ ← Parse.expect (.sign .rightBrace) .classBodyEnd
        return (⟨name, superclass, members⟩ : ClassDeclaration)).Balanced := by
    intro t σ
    refine Turns.bind (.expect rfl) fun _ u => ?_
    refine Turns.bind (phrasesToEnd_balanced (classMember_balanced h) _ _ u (.brace :: σ)) fun members v => ?_
    exact Turns.bind (.expect rfl) fun _ w => Balanced.pure _ w σ
  refine .advance_bind (Kind.turn_of_isPlain plain σ) fun t => ?_
  refine (Balanced.expectName _).bind (fun name => Balanced.peek.bind fun u => ?_) t σ
  refine .ite (.invalid _ _) ((Balanced.accept rfl).bind fun derived => .ite ?_ ?_)
  · exact (Balanced.expectName _).map.bind fun superclass => rest _ _
  · exact rest _ _

/-! ## Expressions -/

theorem arrayLiteral_turns (span : Span) (s : TokenStream) (σ : List Bracket) :
    (arrayLiteral parts span).Turns s (.bracket :: σ) σ := by
  refine Turns.bind (phrasesInLiteral_balanced h.expression _ _ _ s _) fun elements t => ?_
  exact Turns.bind (.expect rfl) fun _ u => Balanced.pure _ u σ

theorem property_balanced : (property parts).Balanced := by
  refine Balanced.peek.bind fun first => (Balanced.expectName _).bind fun key => ?_
  refine (Balanced.accept rfl).bind fun valued => .ite ?_ (.pure _)
  exact h.expression.map.bind fun value => .pure _

theorem objectLiteral_turns (span : Span) (s : TokenStream) (σ : List Bracket) :
    (objectLiteral parts span).Turns s (.brace :: σ) σ := by
  refine Turns.bind (phrasesInLiteral_balanced (property_balanced h) _ _ _ s _) fun properties t => ?_
  exact Turns.bind (.expect rfl) fun _ u => Balanced.pure _ u σ

theorem primary_balanced : (primary parts).Balanced := by
  intro s σ
  refine .peek_bind ?_
  split
  case h_1 found | h_3 found =>
    exact .advance_bind (by rw [found]; rfl) fun t => Balanced.pure _ t σ
  case h_2 found =>
    cases Number.read? s.peek.value with
    | none => exact Balanced.invalid _ _ s σ
    | some x => exact .advance_bind (by rw [found]; rfl) fun t => Balanced.pure _ t σ
  case h_4 found =>
    -- the expression stands one parenthesis deeper
    refine .advance_bind (τ := .parenthesis :: σ) (by rw [found]; rfl) fun t => ?_
    refine (h.expression t _).bind fun e u => ?_
    exact Turns.bind (.expect rfl) fun _ v => Balanced.pure e v σ
  case h_5 found =>
    exact .advance_bind (by rw [found]; rfl) fun t => arrayLiteral_turns h _ t σ
  case h_6 found =>
    exact .advance_bind (by rw [found]; rfl) fun t => objectLiteral_turns h _ t σ
  case h_7 | h_8 | h_9 => exact Balanced.invalid _ _ s σ

/-- A member is named after a dot or in brackets, and the reader is used at one of these two signs. -/
theorem memberOf_turns (object : Expr) {s : TokenStream}
    (first : s.peek.kind = .sign .dot ∨ s.peek.kind = .sign .leftBracket) (σ : List Bracket) :
    (memberOf parts object).Turns s σ σ := by
  rcases first with found | found
  · refine .advance_bind (τ := σ) (by rw [found]; rfl) fun t => ?_
    rw [found]
    exact (Balanced.expect _ rfl).bind (fun name => .pure _) t σ
  · refine .advance_bind (τ := .bracket :: σ) (by rw [found]; rfl) fun t => ?_
    rw [found]
    refine (h.expression t _).bind fun property u => ?_
    exact Turns.bind (.expect rfl) fun _ v => Balanced.pure _ v σ

theorem arguments_balanced (place : Place) : (arguments parts place).Balanced := fun _ σ =>
  Turns.bind (.expect rfl) fun _ t => untilParenthesis_turns h.expression _ t σ

theorem callsAfter_balanced (n : Nat) (e : Expr) : (callsAfter parts n e).Balanced := by
  induction n generalizing e with
  | zero => exact .tooDeep
  | succ n ih =>
    intro s σ
    refine .peek_bind ?_
    split
    -- the arguments look at their parenthesis once more
    case h_1 => exact (arguments_balanced h _).bind (fun args => ih _) s σ
    case h_2 found => exact (memberOf_turns h e (.inl found) σ).bind fun m t => ih m t σ
    case h_3 found => exact (memberOf_turns h e (.inr found) σ).bind fun m t => ih m t σ
    case h_4 => exact Balanced.pure e s σ

theorem membersAfter_balanced (n : Nat) (e : Expr) : (membersAfter parts n e).Balanced := by
  induction n generalizing e with
  | zero => exact .tooDeep
  | succ n ih =>
    intro s σ
    refine .peek_bind ?_
    split
    case h_1 found => exact (memberOf_turns h e (.inl found) σ).bind fun m t => ih m t σ
    case h_2 found => exact (memberOf_turns h e (.inr found) σ).bind fun m t => ih m t σ
    case h_3 => exact Balanced.pure e s σ

theorem callChain_balanced : (callChain parts).Balanced :=
  (primary_balanced h).bind fun e => callsAfter_balanced h _ e

theorem product_balanced : (product parts).Balanced :=
  (callChain_balanced h).bind fun e =>
    operandsAfter_balanced multiplicativeOperator?_isPlain (callChain_balanced h) _ e

theorem sum_balanced : (sum parts).Balanced :=
  (product_balanced h).bind fun e =>
    operandsAfter_balanced additiveOperator?_isPlain (product_balanced h) _ e

theorem comparison_balanced : (comparison parts).Balanced :=
  (sum_balanced h).bind fun e => operandsAfter_balanced comparisonOperator?_isPlain (sum_balanced h) _ e

theorem instantiation_balanced : (instantiation parts).Balanced := by
  intro s σ
  refine .peek_bind (.ite (fun found => ?_) fun _ => comparison_balanced h s σ)
  refine .advance_bind (τ := σ) (by rw [found]; rfl) fun t => ?_
  refine (primary_balanced h).bind (fun first => ?_) t σ
  refine (membersAfter_balanced h _ first).bind fun target => ?_
  exact (arguments_balanced h _).bind fun args => .pure _

theorem assignmentTo_balanced (target : Expr) : (assignmentTo parts target).Balanced := by
  intro s σ
  refine .peek_bind ?_
  cases found : update? s.peek.kind with
  | none => exact Balanced.pure target s σ
  | some update =>
    refine .ite (fun _ => ?_) fun _ => Balanced.invalid _ _ s σ
    refine .advance_bind (Kind.turn_of_isPlain (update?_isPlain found) σ) fun t => ?_
    cases update with
    | replace => exact h.expression.bind (fun value => .pure _) t σ
    | step operator => exact Balanced.pure _ t σ
    | combine operator => exact (instantiation_balanced h).bind (fun right => .pure _) t σ

theorem expression_balanced : (expression parts).Balanced := by
  refine Balanced.peek.bind fun t => ?_
  split
  case h_1 | h_2 => exact (functionDeclaration_balanced h none).bind fun d => .pure _
  case h_3 => exact (instantiation_balanced h).bind fun target => assignmentTo_balanced h target

/-! ## Statements -/

theorem returnedValue_balanced (span : Span) : (returnedValue parts span).Balanced := by
  refine Balanced.peek.bind fun t => ?_
  split
  case h_1 | h_2 | h_3 => exact .pure _
  case h_4 => exact h.expression

theorem conditional_balanced (word : Keyword) : (conditional parts word).Balanced := by
  intro s σ
  refine Turns.bind (.expect rfl) fun _ t => (h.expression t (.parenthesis :: σ)).bind fun condition u => ?_
  refine Turns.bind (.expect rfl) fun _ v => ?_
  exact (block_balanced h _).bind (fun body => .pure _) v σ

theorem loopCounter_balanced : (loopCounter parts).Balanced := by
  intro s σ
  refine .peek_bind ?_
  split
  case h_1 found | h_2 found =>
    refine (variableDeclaration_turns h none (by rw [found]; rfl) σ).bind fun counter t => ?_
    exact Balanced.ite (.pure _) (.invalid _ _) t σ
  case h_3 => exact Balanced.unexpected _ _ s σ

theorem loopIterator_balanced (name : String) : (loopIterator parts name).Balanced := by
  refine (Balanced.expect _ rfl).bind fun t => ?_
  refine (assignmentTo_balanced h (.identifier t.span t.value)).bind fun iterator => ?_
  exact .ite (.pure _) (.invalid _ _)

theorem forLoop_balanced : (forLoop parts).Balanced := by
  intro s σ
  refine Turns.bind (.expect (τ := .parenthesis :: σ) rfl) fun _ t => ?_
  refine (loopCounter_balanced h t _).bind fun counter u => ?_
  refine (Balanced.expect _ rfl u _).bind fun _ v => (h.expression v _).bind fun condition w => ?_
  refine (Balanced.expect _ rfl w _).bind fun _ x => (loopIterator_balanced h _ x _).bind fun _ y => ?_
  -- only here is the parenthesis closed again
  refine Turns.bind (.expect rfl) fun _ z => ?_
  exact (block_balanced h _).bind (fun body => .pure _) z σ

theorem bareStatement_balanced : (bareStatement parts).Balanced := by
  intro s σ
  refine .peek_bind ?_
  split
  case h_1 found | h_2 found => exact (variableDeclaration_turns h none (by rw [found]; rfl) σ).map
  case h_3 | h_4 => exact (functionDeclaration_balanced h none).map s σ
  case h_5 found => exact (classDeclaration_turns h (by rw [found]; rfl) σ).map
  case h_6 | h_7 => exact Balanced.invalid _ _ s σ
  case h_8 found =>
    exact .advance_bind (by rw [found]; rfl) fun t => (returnedValue_balanced h _).map t σ
  case h_9 found => exact .advance_bind (by rw [found]; rfl) fun t => Balanced.pure _ t σ
  case h_10 found | h_11 found =>
    refine .advance_bind (τ := σ) (by rw [found]; rfl) fun t => ?_
    exact (conditional_balanced h _).bind (fun parts => .pure _) t σ
  case h_12 found => exact .advance_bind (by rw [found]; rfl) fun t => (forLoop_balanced h).map t σ
  case h_13 => exact (expression_balanced h).map s σ

theorem statement_balanced : (statement parts).Balanced :=
  (bareStatement_balanced h).bind fun _ => (Balanced.accept rfl).bind fun _ => .pure _

end Grammar

/-! ## Programs -/

/-- The readers of bounded nesting are balanced. -/
theorem readers_balanced (n : Nat) :
    Parse.Balanced (readExpression n) ∧ Parse.Balanced (readStatement n) := by
  induction n with
  | zero => exact ⟨.tooDeep, .tooDeep⟩
  | succ n ih =>
    have parts : Phrases.Balanced ⟨n + 1, readExpression n, readStatement n⟩ := ⟨ih.1, ih.2⟩
    exact ⟨Grammar.expression_balanced parts, Grammar.statement_balanced parts⟩

/-- A list of phrases ends before a token that may end it. -/
theorem Grammar.phrasesToEnd_ends {α : Type} {p : Parse α} {ends : Kind → Bool} {n : Nat} {xs : List α}
    {s t : TokenStream} (h : phrasesToEnd p ends n s = .ok (xs, t)) : ends t.peek.kind := by
  induction n generalizing s xs with
  | zero => cases h
  | succ n ih =>
    obtain ⟨_, u, skipped, h⟩ := Parse.bind_eq_ok.1 h
    obtain ⟨t', _, looked, h⟩ := Parse.bind_eq_ok.1 h
    cases looked
    split at h
    · next found =>
      cases h
      exact found
    · obtain ⟨first, v, -, h⟩ := Parse.bind_eq_ok.1 h
      obtain ⟨rest, w, h', last⟩ := Parse.bind_eq_ok.1 h
      cases last
      exact ih h'

theorem TokenStream.ofList_eof (ts : List Token) : (TokenStream.ofList ts).eof.kind = .eof := by
  unfold TokenStream.ofList
  split
  · next eof rest found =>
    have last := List.head?_dropWhile_not (·.kind ≠ .eof) ts
    rw [found] at last
    simpa using last
  · rfl

theorem TokenStream.ofList_tokens (ts : List Token) :
    (TokenStream.ofList ts).tokens = ts.takeWhile (·.kind ≠ .eof) := by
  unfold TokenStream.ofList
  split
  · rfl
  · next none => exact (List.takeWhile_eq_self_iff.2 (List.dropWhile_eq_nil_iff.1 none)).symm

/-- A stream is what stands before the first end token, whatever is behind that. -/
theorem TokenStream.ofList_before_end {front : List Token} {eof : Token} (behind : List Token)
    (inner : ∀ t ∈ front, t.kind ≠ .eof) (ended : eof.kind = .eof) :
    TokenStream.ofList (front ++ eof :: behind) = ⟨front, eof⟩ := by
  have goesOn : ∀ t ∈ front, decide (t.kind ≠ .eof) = true := fun t ht => decide_eq_true (inner t ht)
  have stops : decide (eof.kind ≠ .eof) = false := decide_eq_false (not_not_intro ended)
  unfold ofList
  rw [List.dropWhile_append_of_pos goesOn, List.takeWhile_append_of_pos goesOn, List.dropWhile_cons,
    List.takeWhile_cons, stops]
  exact congrArg (TokenStream.mk · eof) (List.append_nil front)

theorem TokenStream.ofList_ends {ts : List Token} {eof : Token} (inner : ∀ t ∈ ts, t.kind ≠ .eof)
    (ended : eof.kind = .eof) : TokenStream.ofList (ts ++ [eof]) = ⟨ts, eof⟩ :=
  ofList_before_end [] inner ended

/-- A program is all that its tokens spell: nothing is left before the end token. -/
theorem Program.reads_all {ts : List Token} {program : Program} (h : Program.ofTokens? ts = .ok program) :
    Grammar.phrasesToEnd (readStatement ((TokenStream.ofList ts).tokens.length + 1)) (· = .eof)
      ((TokenStream.ofList ts).tokens.length + 1) (TokenStream.ofList ts) =
        .ok (program, ⟨[], (TokenStream.ofList ts).eof⟩) := by
  have eof := TokenStream.ofList_eof ts
  have front := TokenStream.ofList_tokens ts
  unfold Program.ofTokens? at h
  generalize TokenStream.ofList ts = s at *
  rcases read : Grammar.phrasesToEnd (readStatement (s.tokens.length + 1)) (· = .eof)
    (s.tokens.length + 1) s with e | ⟨statements, t⟩
  · dsimp only at h
    rw [read] at h
    cases h
  obtain ⟨same, taken, tokens, -⟩ :=
    Grammar.phrasesToEnd_balanced (readers_balanced _).2 _ _ s [] eof _ _ read
  -- nothing is left, since no token before the end token is of its kind
  have none : t.tokens = [] := by
    cases rest : t.tokens with
    | nil => rfl
    | cons u us =>
      have ends := of_decide_eq_true (Grammar.phrasesToEnd_ends read)
      rw [TokenStream.peek, rest] at ends
      have member : u ∈ ts.takeWhile (·.kind ≠ .eof) := by
        rw [← front, tokens, rest]
        simp
      have before := List.mem_takeWhile_imp member
      exact absurd ends (of_decide_eq_true before)
  dsimp only at h
  rw [read] at h
  cases h
  rw [← none, ← same]

/-- In the tokens of a program, those before the first end token, every bracket closes. -/
theorem Program.ofTokens?_balanced {ts : List Token} {program : Program}
    (h : Program.ofTokens? ts = .ok program) :
    openAfter [] ((ts.takeWhile (·.kind ≠ .eof)).map Token.kind) = some [] := by
  obtain ⟨-, taken, tokens, walk⟩ := Grammar.phrasesToEnd_balanced (readers_balanced _).2 _ _ _ []
    (TokenStream.ofList_eof ts) _ _ (Program.reads_all h)
  rw [← TokenStream.ofList_tokens, tokens, List.append_nil]
  exact walk

end ScriptLang
