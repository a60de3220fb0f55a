/-
# ScriptLang.Proofs.Syntax.WellFormed — what is read keeps the rules.

The rules on the shape of trees are kept in scattered places of the grammar: a target is checked where the
assignment sign stands, a counter and its iterator in the head of the loop, visibilities and names where a
member is read.  `Parse.Gives` says what every result of a reader is like, whatever its tokens are, and each
rule of the grammar gives trees that keep the rules, if the readers of the two phrases that contain
themselves do.  So every program that tokens spell is well-formed, at every depth.
-/
import ScriptLang.Proofs.Syntax.Spelling

namespace ScriptLang

namespace Parse

variable {α β : Type}

/-- Every result of the reader is as `holds` says. -/
def Gives (holds : α → Prop) (p : Parse α) : Prop := ∀ s a t, p s = .ok (a, t) → holds a

namespace Gives

variable {P : α → Prop} {Q : β → Prop} {p : Parse α}

theorem pure {a : α} (h : P a) : Gives P (Pure.pure a : Parse α) := by
  intro s b t read
  cases read
  exact h

theorem invalid (span : Span) (breach : RuleBreach) : Gives P (Parse.invalid span breach : Parse α) := by
  intro s a t read
  cases read

theorem tooDeep : Gives P (Parse.tooDeep : Parse α) := by
  intro s a t read
  cases read

theorem bind {c : α → Parse β} (h : Gives P p) (k : ∀ a, P a → Gives Q (c a)) : Gives Q (p >>= c) := by
  intro s b u read
  obtain ⟨a, t, first, second⟩ := bind_eq_ok.1 read
  exact k a (h s a t first) t b u second

/-- What a reader gives may be of no concern. -/
theorem after {c : α → Parse β} (p : Parse α) (k : ∀ a, Gives Q (c a)) : Gives Q (p >>= c) := by
  have anything : Gives (fun _ => True) p := fun _ _ _ _ => trivial
  exact anything.bind fun a _ => k a

theorem map {c : α → β} (h : Gives P p) (k : ∀ a, P a → Q (c a)) : Gives Q (c <$> p) := by
  rw [map_eq_pure_bind]
  exact h.bind fun a ha => pure (k a ha)

theorem ite {b : Prop} [Decidable b] {q : Parse α} (h : b → Gives P p) (h' : ¬b → Gives P q) :
    Gives P (if b then p else q) := by
  split
  · exact h ‹_›
  · exact h' ‹_›

end Gives

end Parse

/-- The readers of the two phrases that contain themselves give trees that keep the rules. -/
structure Phrases.Give (parts : Phrases) : Prop where
  expression : parts.expression.Gives fun e => e.isWellFormed
  statement : parts.statement.Gives fun s => s.isWellFormed

namespace Grammar

open Parse (Gives)

/-! ## Lists of phrases -/

section

variable {α : Type} {P : α → Prop} {p : Parse α} (h : p.Gives P)

include h

theorem phrasesToEnd_gives (ends : Kind → Bool) (n : Nat) :
    (phrasesToEnd p ends n).Gives fun xs => ∀ x ∈ xs, P x := by
  induction n with
  | zero => exact .tooDeep
  | succ n ih =>
    refine .after _ fun _ => .after _ fun t => .ite (fun _ => .pure (by simp)) fun _ => ?_
    exact h.bind fun first hf => ih.bind fun rest hr => .pure (List.forall_mem_cons.2 ⟨hf, hr⟩)

theorem phrasesByComma_gives (n : Nat) : (phrasesByComma p n).Gives fun xs => ∀ x ∈ xs, P x := by
  induction n with
  | zero => exact .tooDeep
  | succ n ih =>
    refine h.bind fun first hf => .after _ fun more => .ite (fun _ => ?_) fun _ => .pure (by simpa)
    exact ih.bind fun rest hr => .pure (List.forall_mem_cons.2 ⟨hf, hr⟩)

theorem phrasesInLiteral_gives (closing : Kind) (between : Place) (n : Nat) :
    (phrasesInLiteral p closing between n).Gives fun xs => ∀ x ∈ xs, P x := by
  induction n with
  | zero => exact .tooDeep
  | succ n ih =>
    refine .after _ fun t => .ite (fun _ => .pure (by simp)) fun _ => ?_
    refine h.bind fun first hf => .after _ fun next => ?_
    have rest : (phrasesInLiteral p closing between n >>= fun rest => Pure.pure (first :: rest)).Gives
        fun xs => ∀ x ∈ xs, P x :=
      ih.bind fun rest hr => .pure (List.forall_mem_cons.2 ⟨hf, hr⟩)
    exact .ite (fun _ => .after _ fun _ => rest) fun _ => rest

theorem untilParenthesis_gives (parts : Phrases) (place : Place) :
    (untilParenthesis parts p place).Gives fun xs => ∀ x ∈ xs, P x := by
  have close {items : List α} (hi : ∀ x ∈ items, P x) :
      (Parse.expect (.sign .rightParen) place >>= fun _ => Pure.pure items).Gives fun xs => ∀ x ∈ xs, P x :=
    .after _ fun _ => .pure hi
  refine .after _ fun t => .ite (fun _ => close (by simp)) fun _ => ?_
  exact (phrasesByComma_gives h _).bind fun items hi => close hi

end

theorem operandsAfter_gives (operator? : Kind → Option Operator) {operand : Parse Expr}
    (h : operand.Gives fun e => e.isWellFormed) (n : Nat) {left : Expr} (hl : left.isWellFormed) :
    (operandsAfter operator? operand n left).Gives fun e => e.isWellFormed := by
  induction n generalizing left with
  | zero => exact .tooDeep
  | succ n ih =>
    refine .after _ fun t => ?_
    cases operator? t.kind with
    | none => exact .pure hl
    | some operator =>
      exact .after _ fun _ => h.bind fun right hr => ih (by simp [Expr.isWellFormed, hl, hr])

variable {parts : Phrases} (h : parts.Give)

include h

/-! ## Declarations -/

theorem block_gives (place : Place) : (block parts place).Gives fun body => stmtsAreWellFormed body := by
  refine .after _ fun _ => (phrasesToEnd_gives h.statement _ _).bind fun body hb => ?_
  exact .after _ fun _ => .pure (by simpa using hb)

/-- A constant without a value is refused. -/
theorem variableDeclaration_gives (visibility : Option Visibility) :
    (variableDeclaration parts visibility).Gives fun d => d.visibility = visibility ∧ d.isWellFormed := by
  refine .after _ fun first => .after _ fun name => .after _ fun t => .ite (fun _ => ?_) fun _ => ?_
  · exact .ite (fun _ => .invalid _ _) fun _ => .pure ⟨rfl, rfl⟩
  · refine .after _ fun _ => h.expression.bind fun value hv => .pure ⟨rfl, ?_⟩
    simp [VariableDeclaration.isWellFormed, valueIsWellFormed, hv]

/-- A function that is marked has a name. -/
theorem functionDeclaration_gives (visibility : Option Visibility) :
    (functionDeclaration parts visibility).Gives fun d => d.visibility = visibility ∧ d.isWellFormed := by
  refine .after _ fun first => .after _ fun isAsync => .after _ fun _ => .after _ fun t => ?_
  have rest (name : Option String) :
      (if name.isNone && visibility.isSome then Parse.invalid first.span .anonymousMember
       else do
        let _ ← Parse.expect (.sign .leftParen) .parametersStart
        let parameters ← untilParenthesis parts parameter .parametersEnd
        let body ← block parts .functionBodyStart
        return (⟨name, parameters, body, isAsync, visibility⟩ : FunctionDeclaration)).Gives
        fun d => d.visibility = visibility ∧ d.isWellFormed := by
    refine .ite (fun _ => .invalid _ _) fun _ => .after _ fun _ => .after _ fun parameters => ?_
    exact (block_gives h _).bind fun body hb => .pure ⟨rfl, hb⟩
  exact .ite (fun _ => .after _ fun _ => .after _ rest) fun _ => .after _ rest

omit h in
/-- Whatever readers it is given, the reader of members refuses a constructor that returns. -/
theorem classMember_constructor (parts : Phrases) :
    (classMember parts).Gives fun m => ∀ visibility d, m = .method visibility d →
      d.name = some constructorName → returnsIn d.body = false := by
  refine .after _ fun first => .after _ fun visibility => .after _ fun t => ?_
  split
  case h_1 | h_2 =>
    refine .after _ fun property => ?_
    cases visibility with
    | none => exact .invalid _ _
    | some visibility => exact .after _ fun _ => .pure nofun
  case h_3 | h_4 =>
    refine .after _ fun method => ?_
    cases named : method.name with
    | none => exact .invalid _ _
    | some name =>
      refine .ite (fun _ => .invalid _ _) fun keeps => ?_
      have lawful (v w : Visibility) (d : FunctionDeclaration) (same : Member.method v method = .method w d)
          (isConstructor : d.name = some constructorName) : returnsIn d.body = false := by
        cases same
        simp_all
      cases visibility with
      | none => exact .ite (fun _ => .pure (lawful _)) fun _ => .invalid _ _
      | some visibility => exact .pure (lawful _)
  case h_5 => exact .invalid _ _

theorem classMember_gives : (classMember parts).Gives fun m => m.isWellFormed := by
  refine .after _ fun first => .after _ fun visibility => .after _ fun t => ?_
  split
  case h_1 | h_2 =>
    refine (variableDeclaration_gives h visibility).bind fun property ⟨marked, hp⟩ => ?_
    cases visibility with
    | none => exact .invalid _ _
    | some visibility => exact .after _ fun _ => .pure (by simp [Member.isWellFormed, marked, hp])
  case h_3 | h_4 =>
    refine (functionDeclaration_gives h visibility).bind fun method ⟨marked, hm⟩ => ?_
    cases named : method.name with
    | none => exact .invalid _ _
    | some name =>
      refine .ite (fun _ => .invalid _ _) fun keeps => ?_
      cases visibility with
      | none =>
        refine .ite (fun isConstructor => .pure ?_) fun _ => .invalid _ _
        simp_all [Member.isWellFormed]
      | some visibility =>
        have lawful : ¬name = constructorName ∨ returnsIn method.body = false :=
          Decidable.not_or_of_imp (by simpa using keeps)
        exact .pure (by simpa [Member.isWellFormed, named, marked, hm] using lawful)
  case h_5 => exact .invalid _ _

theorem classDeclaration_gives : (classDeclaration parts).Gives fun d => d.isWellFormed := by
  refine .after _ fun _ => .after _ fun name => .after _ fun t => .ite (fun _ => .invalid _ _) fun _ => ?_
  have rest (superclass : Option String) :
      (do
        let _ ← Parse.expect (.sign .leftBrace) .classBodyStart
        let members ← phrasesToEnd (classMember parts) endsBody parts.bound
        let _ ← Parse.expect (.sign .rightBrace) .classBodyEnd
        return (⟨name, superclass, members⟩ : ClassDeclaration)).Gives fun d : ClassDeclaration =>
        d.isWellFormed := by
    refine .after _ fun _ => (phrasesToEnd_gives (classMember_gives h) _ _).bind fun members hm => ?_
    exact .after _ fun _ => .pure (by simpa [ClassDeclaration.isWellFormed] using hm)
  exact .after _ fun derived => .ite (fun _ => .after _ fun superclass => rest _) fun _ => .after _ rest

/-! ## Expressions -/

theorem arrayLiteral_gives (span : Span) : (arrayLiteral parts span).Gives fun e => e.isWellFormed := by
  refine (phrasesInLiteral_gives h.expression _ _ _).bind fun elements he => .after _ fun _ => .pure ?_
  simpa [Expr.isWellFormed] using he

theorem property_gives : (property parts).Gives fun p => p.isWellFormed := by
  refine .after _ fun first => .after _ fun key => .after _ fun valued => .ite (fun _ => ?_) fun _ => ?_
  · have valued : (some <$> parts.expression).Gives fun value => valueIsWellFormed value :=
      h.expression.map fun e he => he
    exact valued.bind fun value hv => .pure hv
  · exact .pure rfl

theorem objectLiteral_gives (span : Span) : (objectLiteral parts span).Gives fun e => e.isWellFormed := by
  refine (phrasesInLiteral_gives (property_gives h) _ _ _).bind fun ps hp => .after _ fun _ => .pure ?_
  simpa [Expr.isWellFormed] using hp

theorem primary_gives : (primary parts).Gives fun e => e.isWellFormed := by
  refine .after _ fun t => ?_
  split
  case h_1 | h_3 => exact .after _ fun _ => .pure rfl
  case h_2 =>
    cases Number.read? t.value with
    | none => exact .invalid _ _
    | some x => exact .after _ fun _ => .pure rfl
  case h_4 => exact .after _ fun _ => h.expression.bind fun e he => .after _ fun _ => .pure he
  case h_5 => exact .after _ fun _ => arrayLiteral_gives h _
  case h_6 => exact .after _ fun _ => objectLiteral_gives h _
  case h_7 | h_8 | h_9 => exact .invalid _ _

/-- What a dot names is a name. -/
theorem memberOf_gives {object : Expr} (ho : object.isWellFormed) :
    (memberOf parts object).Gives fun e => e.isWellFormed := by
  refine .after _ fun first => .ite (fun _ => ?_) fun _ => ?_
  · refine h.expression.bind fun property hp => .after _ fun _ => .pure ?_
    simp [Expr.isWellFormed, ho, hp]
  · refine .after _ fun t => .pure ?_
    simp [Expr.isWellFormed, Expr.isName, ho]

theorem arguments_gives (place : Place) :
    (arguments parts place).Gives fun args => ∀ e ∈ args, e.isWellFormed :=
  .after _ fun _ => untilParenthesis_gives h.expression parts _

theorem callsAfter_gives (n : Nat) {e : Expr} (he : e.isWellFormed) :
    (callsAfter parts n e).Gives fun e => e.isWellFormed := by
  induction n generalizing e with
  | zero => exact .tooDeep
  | succ n ih =>
    refine .after _ fun t => ?_
    split
    case h_1 =>
      refine (arguments_gives h _).bind fun args ha => ih ?_
      simpa [Expr.isWellFormed, he] using ha
    case h_2 | h_3 => exact (memberOf_gives h he).bind fun m hm => ih hm
    case h_4 => exact .pure he

theorem membersAfter_gives (n : Nat) {e : Expr} (he : e.isWellFormed) :
    (membersAfter parts n e).Gives fun e => e.isWellFormed := by
  induction n generalizing e with
  | zero => exact .tooDeep
  | succ n ih =>
    refine .after _ fun t => ?_
    split
    case h_1 | h_2 => exact (memberOf_gives h he).bind fun m hm => ih hm
    case h_3 => exact .pure he

theorem callChain_gives : (callChain parts).Gives fun e => e.isWellFormed :=
  (primary_gives h).bind fun _ he => callsAfter_gives h _ he

theorem product_gives : (product parts).Gives fun e => e.isWellFormed :=
  (callChain_gives h).bind fun _ he => operandsAfter_gives _ (callChain_gives h) _ he

theorem sum_gives : (sum parts).Gives fun e => e.isWellFormed :=
  (product_gives h).bind fun _ he => operandsAfter_gives _ (product_gives h) _ he

theorem comparison_gives : (comparison parts).Gives fun e => e.isWellFormed :=
  (sum_gives h).bind fun _ he => operandsAfter_gives _ (sum_gives h) _ he

theorem instantiation_gives : (instantiation parts).Gives fun e => e.isWellFormed := by
  refine .after _ fun t => .ite (fun _ => ?_) fun _ => comparison_gives h
  refine .after _ fun _ => (primary_gives h).bind fun first hf => ?_
  refine (membersAfter_gives h _ hf).bind fun target ht => (arguments_gives h _).bind fun args ha => .pure ?_
  simpa [Expr.isWellFormed, ht] using ha

/-- The target is checked, and where the sign holds an operator it is also its left operand. -/
theorem assignmentTo_gives {target : Expr} (ht : target.isWellFormed) :
    (assignmentTo parts target).Gives fun e => e.isWellFormed := by
  refine .after _ fun t => ?_
  cases update? t.kind with
  | none => exact .pure ht
  | some update =>
    refine .ite (fun isTarget => ?_) fun _ => .invalid _ _
    have assigned {value : Parse Expr} (hv : value.Gives fun e => e.isWellFormed) :
        (value >>= fun v => Pure.pure (Expr.assign target.span target v)).Gives fun e => e.isWellFormed :=
      hv.bind fun v hv => .pure (by simp [Expr.isWellFormed, isTarget, ht, hv])
    refine .after _ fun _ => ?_
    cases update with
    | replace => exact assigned h.expression
    | step operator => exact assigned (.pure (by simp [Expr.isWellFormed, ht]))
    | combine operator =>
      exact (instantiation_gives h).bind fun right hr => assigned (.pure (by simp [Expr.isWellFormed, ht, hr]))

theorem expression_gives : (expression parts).Gives fun e => e.isWellFormed := by
  refine .after _ fun t => ?_
  split
  case h_1 | h_2 =>
    exact (functionDeclaration_gives h none).bind fun d ⟨unmarked, hd⟩ =>
      .pure (by simp [Expr.isWellFormed, unmarked, hd])
  case h_3 => exact (instantiation_gives h).bind fun target ht => assignmentTo_gives h ht

/-! ## Statements -/

/-- Only a `return` without a value has `null` for one. -/
theorem returnedValue_gives (span : Span) :
    (returnedValue parts span).Gives fun e => e.isNull ∨ e.isWellFormed := by
  refine .after _ fun t => ?_
  split
  case h_1 | h_2 | h_3 => exact .pure (.inl rfl)
  case h_4 => exact fun s e t read => .inr (h.expression s e t read)

theorem conditional_gives (word : Keyword) :
    (conditional parts word).Gives fun p => p.1.isWellFormed ∧ stmtsAreWellFormed p.2 := by
  refine .after _ fun _ => h.expression.bind fun condition hc => .after _ fun _ => ?_
  exact (block_gives h _).bind fun body hb => .pure ⟨hc, hb⟩

theorem loopCounter_gives : (loopCounter parts).Gives fun d =>
    d.visibility = none ∧ d.isWellFormed ∧ startsAtNumber d := by
  refine .after _ fun t => ?_
  split
  case h_1 | h_2 =>
    refine (variableDeclaration_gives h none).bind fun counter ⟨unmarked, hc⟩ => ?_
    exact .ite (fun starts => .pure ⟨unmarked, hc, starts⟩) fun _ => .invalid _ _
  case h_3 => exact fun s a t read => by cases read

theorem loopIterator_gives (name : String) :
    (loopIterator parts name).Gives fun e => e.isWellFormed ∧ steps name e := by
  refine .after _ fun t => ?_
  have counter : (Expr.identifier t.span t.value).isWellFormed := rfl
  refine (assignmentTo_gives h counter).bind fun e he => ?_
  exact .ite (fun steps => .pure ⟨he, steps⟩) fun _ => .invalid _ _

theorem forLoop_gives : (forLoop parts).Gives fun loop => loop.isWellFormed := by
  refine .after _ fun _ => (loopCounter_gives h).bind fun counter ⟨unmarked, hc, starts⟩ => ?_
  refine .after _ fun _ => h.expression.bind fun condition hcond => .after _ fun _ => ?_
  refine (loopIterator_gives h _).bind fun iterator ⟨hi, steps⟩ => .after _ fun _ => ?_
  refine (block_gives h _).bind fun body hb => .pure ?_
  simp [ForLoop.isWellFormed, unmarked, hc, starts, hcond, hi, steps, -stmtsAreWellFormed_eq_all, hb]

theorem bareStatement_gives : (bareStatement parts).Gives fun s => s.isWellFormed := by
  refine .after _ fun t => ?_
  split
  case h_1 | h_2 =>
    exact (variableDeclaration_gives h none).map fun d ⟨unmarked, hd⟩ => by simp [Stmt.isWellFormed, unmarked, hd]
  case h_3 | h_4 =>
    exact (functionDeclaration_gives h none).map fun d ⟨unmarked, hd⟩ => by simp [Stmt.isWellFormed, unmarked, hd]
  case h_5 => exact (classDeclaration_gives h).map fun d hd => hd
  case h_6 | h_7 => exact .invalid _ _
  case h_8 => exact .after _ fun _ => (returnedValue_gives h _).map fun e he => by simpa [Stmt.isWellFormed] using he
  case h_9 => exact .after _ fun _ => .pure rfl
  case h_10 | h_11 =>
    refine .after _ fun _ => (conditional_gives h _).bind fun p ⟨hc, hb⟩ => .pure ?_
    simp [Stmt.isWellFormed, hc, -stmtsAreWellFormed_eq_all, hb]
  case h_12 => exact .after _ fun _ => (forLoop_gives h).map fun loop hl => hl
  case h_13 => exact (expression_gives h).map fun e he => he

theorem statement_gives : (statement parts).Gives fun s => s.isWellFormed :=
  (bareStatement_gives h).bind fun _ hs => .after _ fun _ => .pure hs

end Grammar

/-! ## Programs -/

/-- The readers of bounded nesting give trees that keep the rules, by induction on the bound. -/
theorem readers_give (n : Nat) :
    Parse.Gives (fun e : Expr => e.isWellFormed) (readExpression n) ∧
      Parse.Gives (fun s : Stmt => s.isWellFormed) (readStatement n) := by
  induction n with
  | zero => exact ⟨.tooDeep, .tooDeep⟩
  | succ n ih =>
    have parts : Phrases.Give ⟨n + 1, readExpression n, readStatement n⟩ := ⟨ih.1, ih.2⟩
    exact ⟨Grammar.expression_gives parts, Grammar.statement_gives parts⟩

/-- Every program that tokens spell is well-formed. -/
theorem Program.isWellFormed_of_tokens {ts : List Token} {p : Program} (h : Program.ofTokens? ts = .ok p) :
    p.isWellFormed := by
  unfold Program.ofTokens? at h
  dsimp only at h
  generalize TokenStream.ofList ts = s at h
  cases read : Grammar.phrasesToEnd (readStatement (s.tokens.length + 1)) (· = .eof)
    (s.tokens.length + 1) s with
  | error e =>
    rw [read] at h
    cases h
  | ok result =>
    rw [read] at h
    cases h
    have all := Grammar.phrasesToEnd_gives (readers_give _).2 _ _ s result.1 result.2 read
    simpa [Program.isWellFormed] using all

end ScriptLang
