/-
# ScriptLang.Proofs.Syntax.ReadBack.Statement — reading undoes the writing of statements.

A declaration or statement begins with a word that tells its rule, and its parts are read back as what
they are.  A statement is written with a semicolon after it, so it is known what follows an expression
that ends one.
-/
import ScriptLang.Proofs.Syntax.ReadBack.Expression

namespace ScriptLang

namespace Grammar

open Parse (Reads anyKind)

section

variable {numerals : Numerals} {parts : Phrases} {size : Nat} (h : parts.ReadsBack numerals size)

include h

/-! ## Declarations -/

theorem variableDeclaration_reads {d : VariableDeclaration} (wf : d.isWellFormed)
    (small : (d.spelling numerals).length ≤ size + 1) :
    Reads (variableDeclaration parts d.visibility) (d.spelling numerals) (d.relocate fun _ => .nowhere)
      (· = .sign .semicolon) := by
  intro s hs
  obtain ⟨name, constant, value, visibility⟩ := d
  rw [VariableDeclaration.isWellFormed, Bool.and_eq_true] at wf
  rw [VariableDeclaration.spelling, List.length_cons, List.length_cons] at small
  rw [VariableDeclaration.spelling, variableDeclaration, Parse.advance_bind, TokenStream.next_prepend,
    Parse.expectName_bind, Parse.peek_bind]
  cases value with
  | none =>
    rw [valueSpelling, TokenStream.prepend_nil, if_pos hs]
    cases constant with
    | true => cases wf.1
    | false => rfl
  | some e =>
    rw [valueSpelling, List.length_cons] at small
    have ends : EndsAt 0 s.peek.kind := by
      rw [hs]
      exact EndsAt.closer (by decide) 0
    have reads := h.expression e wf.2 (by omega)
    rw [valueSpelling, TokenStream.peek_prepend, if_neg (fun h => nomatch h), Parse.expect_sign,
      reads.bind ends]
    cases constant <;> rfl

omit h in
theorem Member.beginsItem_spelling (m : Member) : BeginsItem (m.spelling numerals) := by
  have marked (visibility : Visibility) (w : List Token) :
      BeginsItem (markSpelling (some visibility) ++ w) := by
    cases visibility <;> exact beginsItem_keyword _ _
  cases m with
  | property visibility d =>
    rw [Member.spelling, List.append_assoc]
    exact marked visibility _
  | method _ d =>
    rw [Member.spelling]
    cases d.visibility with
    | none => exact FunctionDeclaration.beginsItem_spelling d
    | some visibility => exact marked visibility _

omit h in
theorem visibilityMark_bind {α : Type} (visibility : Visibility) (c : Option Visibility → Parse α)
    (s : TokenStream) (w : List Token) :
    (visibilityMark >>= c) (s.prepend (markSpelling (some visibility) ++ w)) =
      c (some visibility) (s.prepend w) := by
  cases visibility <;> rfl

omit h in
theorem visibilityMark_bind_none {α : Type} (c : Option Visibility → Parse α) {s : TokenStream}
    (h : s.peek.kind = .keyword .functionWord ∨ s.peek.kind = .keyword .asyncWord) :
    (visibilityMark >>= c) s = c none s := by
  refine Parse.bind_of_ok ?_ c
  unfold visibilityMark
  rw [Parse.peek_bind]
  rcases h with h | h <;> rw [h] <;> rfl

theorem property_member_reads {visibility : Visibility} {d : VariableDeclaration} (wf : d.isWellFormed)
    (marked : d.visibility = some visibility)
    (small : ((Member.property visibility d).spelling numerals).length ≤ size + 1) :
    Reads (classMember parts) ((Member.property visibility d).spelling numerals)
      ((Member.property visibility d).relocate fun _ => .nowhere) anyKind := by
  intro s _
  rw [Member.spelling, List.length_append, List.length_append] at small
  have reads := variableDeclaration_reads h wf (by omega)
  rw [marked] at reads
  rw [classMember, Parse.peek_bind, Member.spelling, List.append_assoc, visibilityMark_bind,
    Parse.peek_bind]
  have goesOn : (variableDeclaration parts (some visibility) >>= fun property =>
      Parse.accept (.sign .semicolon) >>= fun _ => pure (Member.property visibility property))
      (s.prepend (d.spelling numerals ++ [.ofSign .semicolon])) =
        .ok ((Member.property visibility d).relocate fun _ => .nowhere, s) := by
    rw [TokenStream.prepend_append, reads.bind (s := s.prepend [.ofSign .semicolon]) rfl,
      Parse.accept_sign]
    rfl
  obtain ⟨_, constant, _, _⟩ := d
  cases constant <;> exact goesOn

theorem method_reads {visibility : Visibility} {d : FunctionDeclaration}
    (wf : (Member.method visibility d).isWellFormed)
    (small : ((Member.method visibility d).spelling numerals).length ≤ size + 1) :
    Reads (classMember parts) ((Member.method visibility d).spelling numerals)
      ((Member.method visibility d).relocate fun _ => .nowhere) anyKind := by
  intro s _
  simp only [Member.isWellFormed, Bool.and_eq_true, Option.isSome_iff_exists] at wf
  obtain ⟨⟨⟨⟨name, named⟩, wf⟩, returns⟩, marked⟩ := wf
  rw [Member.spelling, List.length_append] at small
  have reads := functionDeclaration_reads h wf (fun _ => by rw [named]; rfl) (by omega)
  rw [named] at returns marked
  simp only [Option.some.injEq, Bool.not_eq_true'] at returns marked
  have word : (s.prepend (d.spelling numerals)).peek.kind = .keyword .functionWord ∨
      (s.prepend (d.spelling numerals)).peek.kind = .keyword .asyncWord := by
    obtain ⟨_, _, _, isAsync, _⟩ := d
    cases isAsync
    · exact .inl rfl
    · exact .inr rfl
  rw [classMember, Parse.peek_bind, Member.spelling]
  cases seen : d.visibility with
  | some marking =>
    rw [seen] at reads
    simp only [seen, Option.some.injEq, decide_eq_true_eq, Option.isNone_some, Bool.false_and,
      Bool.or_false] at marked
    rw [visibilityMark_bind, Parse.peek_bind]
    rcases word with word | word
    all_goals
      rw [word]
      dsimp only
      rw [reads.bind trivial, FunctionDeclaration.relocate_name, named]
      dsimp only
      rw [FunctionDeclaration.relocate_returns, returns, if_neg Bool.false_ne_true, marked]
      rfl
  | none =>
    rw [seen] at reads
    simp only [seen, reduceCtorEq, decide_false, Option.isNone_none, Bool.true_and, Bool.false_or,
      Bool.and_eq_true, decide_eq_true_eq] at marked
    rw [markSpelling, List.nil_append, visibilityMark_bind_none _ word, Parse.peek_bind]
    rcases word with word | word
    all_goals
      rw [word]
      dsimp only
      rw [reads.bind trivial, FunctionDeclaration.relocate_name, named]
      dsimp only
      rw [FunctionDeclaration.relocate_returns, returns, if_neg Bool.false_ne_true, if_pos marked.2,
        marked.1]
      rfl

theorem classMember_reads {m : Member} (wf : m.isWellFormed)
    (small : (m.spelling numerals).length ≤ size + 1) :
    Reads (classMember parts) (m.spelling numerals) (m.relocate fun _ => .nowhere) anyKind := by
  cases m with
  | property visibility d =>
    simp only [Member.isWellFormed, Bool.and_eq_true, decide_eq_true_eq] at wf
    exact property_member_reads h wf.2 wf.1 small
  | method visibility d => exact method_reads h wf small

theorem classDeclaration_reads {d : ClassDeclaration} (wf : d.isWellFormed)
    (small : (d.spelling numerals).length ≤ size + 1) :
    Reads (classDeclaration parts) (d.spelling numerals) (d.relocate fun _ => .nowhere) anyKind := by
  intro s _
  obtain ⟨name, superclass, members⟩ := d
  rw [ClassDeclaration.isWellFormed, membersAreWellFormed_eq_all] at wf
  rw [ClassDeclaration.relocate, relocateMembers_eq_map]
  rw [ClassDeclaration.spelling, membersSpelling_eq_flatMap, List.cons_append, List.cons_append] at small ⊢
  simp only [List.length_append, List.length_cons, length_braced] at small
  have few : members.length ≤ (members.flatMap (Member.spelling numerals)).length :=
    length_le_length_flatMap fun m _ => (Member.beginsItem_spelling m).ne_nil
  have bound := h.bound
  have membersRead := phrasesToEnd_reads endsBody (fun _ ended => ended) members parts.bound
    (by omega) fun m hm => ⟨Member.beginsItem_spelling m, classMember_reads h
      (List.all_eq_true.mp wf m hm) (by have := spelling_le_flatMap (Member.spelling numerals) hm; omega)⟩
  have bodyReads : (Parse.expect (.sign .leftBrace) .classBodyStart >>= fun _ =>
      phrasesToEnd (classMember parts) endsBody parts.bound >>= fun members =>
        Parse.expect (.sign .rightBrace) .classBodyEnd >>= fun _ =>
          pure (⟨name, superclass, members⟩ : ClassDeclaration))
      (s.prepend (braced (members.flatMap (Member.spelling numerals)))) =
        .ok (⟨name, superclass, members.map (Member.relocate fun _ => .nowhere)⟩, s) := by
    rw [braced, List.cons_append, Parse.expect_sign, TokenStream.prepend_append,
      membersRead.bind (s := s.prepend [.ofSign .rightBrace]) rfl, Parse.expect_sign]
    rfl
  cases superclass with
  | none => exact bodyReads
  | some superclass => exact bodyReads

/-! ## Statements -/

theorem conditional_reads (word : Keyword) {condition : Expr} {body : List Stmt}
    (wf : condition.isWellFormed) (bodyWf : stmtsAreWellFormed body)
    (small : (parenthesized (condition.spelling numerals) ++ braced (stmtsSpelling numerals body)).length ≤
      size + 1) :
    Reads (conditional parts word)
      (parenthesized (condition.spelling numerals) ++ braced (stmtsSpelling numerals body))
      (condition.bare, body.map Stmt.bare) anyKind := by
  intro s _
  rw [List.length_append, length_parenthesized, length_braced] at small
  rw [stmtsAreWellFormed_eq_all] at bodyWf
  have ends : EndsAt 0 (.sign .rightParen) := EndsAt.closer (by decide) 0
  have conditionReads := h.expression condition wf (by omega)
  have bodyReads := block_reads h .bodyStart bodyWf (by omega)
  unfold conditional parenthesized
  rw [TokenStream.prepend_append, List.cons_append, Parse.expect_sign, TokenStream.prepend_append,
    conditionReads.bind (s := (s.prepend _).prepend [.ofSign .rightParen]) ends, Parse.expect_sign,
    TokenStream.prepend_nil, bodyReads.bind trivial]
  rfl

theorem loopCounter_reads {counter : VariableDeclaration} (hidden : counter.visibility = none)
    (wf : counter.isWellFormed) (atNumber : startsAtNumber counter)
    (small : (counter.spelling numerals).length ≤ size + 1) :
    Reads (loopCounter parts) (counter.spelling numerals) (counter.relocate fun _ => .nowhere)
      (· = .sign .semicolon) := by
  intro s hs
  have reads := variableDeclaration_reads h wf small
  rw [hidden] at reads
  -- the check on the start sees the tree that was read, which has the same start
  have checked : (variableDeclaration parts none >>= fun counter =>
      if startsAtNumber counter then pure counter
      else Parse.invalid .nowhere (.counterNotNumber counter.name)) (s.prepend (counter.spelling numerals)) =
        .ok (counter.relocate fun _ => .nowhere, s) := by
    rw [reads.bind hs, startsAtNumber_relocate, if_pos atNumber]
    rfl
  obtain ⟨_, constant, _, _⟩ := counter
  cases constant <;> exact checked

theorem loopIterator_reads {name : String} {iterator : Expr} (wf : iterator.isWellFormed)
    (stepping : steps name iterator) (small : (iterator.spelling numerals).length ≤ size + 1) :
    Reads (loopIterator parts name) (iterator.spelling numerals) iterator.bare (EndsAt 0) := by
  intro s hs
  cases iterator with
  | assign _ target value =>
    cases target with
    | identifier _ target =>
      simp only [Expr.isWellFormed, Bool.and_eq_true] at wf
      simp only [Expr.spelling, List.length_append, List.length_cons, List.length_nil] at small
      have reads := assignmentTo_reads h (.identifier .nowhere target) rfl wf.2 (by omega)
      rw [loopIterator, Expr.spelling, Expr.spelling, List.singleton_append, Parse.expect_name]
      exact (Parse.bind_of_ok (reads s hs) _).trans (congrFun (if_pos stepping) s)
    | _ => cases stepping
  | _ => cases stepping

theorem forLoop_reads {counter : VariableDeclaration} {condition iterator : Expr} {body : List Stmt}
    (wf : (ForLoop.mk counter condition iterator body).isWellFormed)
    (small : ((ForLoop.mk counter condition iterator body).spelling numerals).length ≤ size + 1) :
    Reads (forLoop parts)
      (parenthesized (counter.spelling numerals ++ .ofSign .semicolon :: condition.spelling numerals ++
        .ofSign .semicolon :: iterator.spelling numerals) ++ braced (stmtsSpelling numerals body))
      ((ForLoop.mk counter condition iterator body).relocate fun _ => .nowhere) anyKind := by
  intro s _
  simp only [ForLoop.isWellFormed, Bool.and_eq_true, Option.isNone_iff_eq_none,
    stmtsAreWellFormed_eq_all] at wf
  obtain ⟨⟨⟨⟨⟨⟨hidden, counterWf⟩, atNumber⟩, conditionWf⟩, iteratorWf⟩, stepping⟩, bodyWf⟩ := wf
  simp only [ForLoop.spelling, List.length_append, List.length_cons, length_parenthesized,
    length_braced] at small
  have counterReads := loopCounter_reads h hidden counterWf atNumber (by omega)
  have conditionReads := h.expression condition conditionWf (by omega)
  have iteratorReads := loopIterator_reads h iteratorWf stepping (by omega)
  have bodyReads := block_reads h .loopBodyStart bodyWf (by omega)
  have beforeSemicolon : EndsAt 0 (.sign .semicolon) := EndsAt.closer (by decide) 0
  have beforeParen : EndsAt 0 (.sign .rightParen) := EndsAt.closer (by decide) 0
  unfold forLoop parenthesized
  simp only [List.append_assoc, List.cons_append, Parse.expect_sign, TokenStream.prepend_append]
  rw [Parse.Reads.bind (s := TokenStream.prepend _ (.ofSign .semicolon :: _)) counterReads rfl,
    Parse.expect_sign, TokenStream.prepend_append,
    conditionReads.bind (s := TokenStream.prepend _ (.ofSign .semicolon :: _)) beforeSemicolon,
    VariableDeclaration.relocate_name, Parse.expect_sign, TokenStream.prepend_append,
    iteratorReads.bind (s := TokenStream.prepend _ (.ofSign .rightParen :: _)) beforeParen,
    Parse.expect_sign, List.nil_append, bodyReads.bind trivial, ForLoop.relocate, relocateStmts_eq_map]
  rfl

omit h in
/-- A statement with its semicolon, from the statement without it. -/
theorem statement_reads_of_bare {w : List Token} {t : Stmt}
    (bare : Reads (bareStatement parts) w t (· = .sign .semicolon)) :
    Reads (statement parts) (w ++ [.ofSign .semicolon]) t anyKind := by
  intro s _
  rw [statement, TokenStream.prepend_append, bare.bind (s := s.prepend [.ofSign .semicolon]) rfl,
    Parse.accept_sign]
  rfl

omit h in
theorem bareStatement_of_begins {s : TokenStream} (h : s.peek.kind.begins 1) :
    bareStatement parts s = (Stmt.expression s.peek.span <$> expression parts) s := by
  unfold bareStatement
  rw [Parse.peek_bind]
  generalize s.peek.kind = kind at h
  -- of the words only `new` is left
  cases kind with
  | keyword word => cases word <;> first | rfl | cases h
  | _ => rfl

omit h in
theorem returnedValue_of_begins (span : Span) {s : TokenStream} (h : s.peek.kind.begins 0) :
    returnedValue parts span s = parts.expression s := by
  unfold returnedValue
  rw [Parse.peek_bind]
  generalize s.peek.kind = kind at h
  cases kind with
  | sign g => cases g <;> first | rfl | cases h
  | eof => cases h
  | _ => rfl

omit h in
/-- An expression that is no function begins otherwise than functions do. -/
theorem begins_of_not_isFunction {e : Expr} (wf : e.isWellFormed) (noFunction : e.isFunction = false) :
    Begins 1 (e.spelling numerals) := by
  have begin := e.begins_spelling numerals wf
  cases e with
  | function => cases noFunction
  | assign _ target value =>
    simp only [Expr.isWellFormed, Bool.and_eq_true] at wf
    have high := level_of_isTarget wf.1.1
    exact ((target.begins_spelling numerals wf.1.2).of_le (by omega)).append _
  | binary _ _ operator _ => exact begin.of_le (Nat.le_trans (by decide) operator.le_level)
  | _ => exact begin.of_le (by simp only [Expr.level, Nat.le_refl, Nat.reduceLeDiff])

theorem expressionStatement_reads {e : Expr} (wf : e.isWellFormed)
    (small : (parenthesizedIf e.isFunction (e.spelling numerals)).length ≤ size + 1) :
    Reads (bareStatement parts) (parenthesizedIf e.isFunction (e.spelling numerals))
      (.expression .nowhere e.bare) (EndsAt 0) := by
  intro s ends
  have begin : Begins 1 (parenthesizedIf e.isFunction (e.spelling numerals)) := by
    cases noFunction : e.isFunction with
    | true => exact begins_parenthesized 1 _
    | false => exact begins_of_not_isFunction wf noFunction
  have reads : Reads (expression parts) (parenthesizedIf e.isFunction (e.spelling numerals)) e.bare
      (EndsAt 0) := by
    -- a function stands in parentheses, since a statement that begins with its word is a declaration
    cases function : e.isFunction with
    | false => exact expression_reads h wf (Nat.le_trans (length_le_parenthesizedIf _ _) small)
    | true =>
      simp only [function, parenthesizedIf, if_true, length_parenthesized] at small ⊢
      have positive : 0 < parts.bound := Nat.lt_of_le_of_lt (Nat.zero_le size) h.bound
      exact Reads.loosen_to 0 positive (Nat.le_refl 6) (Nat.zero_le 6)
        (begins_parenthesized 6 _) ((parenthesized_reads h wf (by omega)).mono fun _ _ => trivial)
  obtain ⟨t, rest, ht, hk, span⟩ := begin
  have start : (s.prepend (parenthesizedIf e.isFunction (e.spelling numerals))).peek = t := by
    rw [ht]
    rfl
  rw [bareStatement_of_begins (by rw [start]; exact hk), start, span]
  exact Parse.map_of_ok (reads s ends) _

theorem returnStatement_reads {value : Expr} (wf : value.isNull || value.isWellFormed)
    (small : (value.spelling numerals).length ≤ size) :
    Reads (bareStatement parts) (.ofKeyword .returnWord :: value.spelling numerals)
      (.returnValue .nowhere value.bare) (· = .sign .semicolon) := by
  intro s hs
  have reads : returnedValue parts .nowhere (s.prepend (value.spelling numerals)) = .ok (value.bare, s) := by
    -- null has no tokens: nothing stands between the word and the semicolon
    cases null : value.isNull with
    | true =>
      cases value with
      | null =>
        rw [Expr.spelling, TokenStream.prepend_nil, returnedValue, Parse.peek_bind, hs]
        rfl
      | _ => cases null
    | false =>
      rw [null, Bool.false_or] at wf
      have ends : EndsAt 0 s.peek.kind := by
        rw [hs]
        exact EndsAt.closer (by decide) 0
      have begin := (value.begins_spelling numerals wf).of_le (Nat.zero_le _)
      obtain ⟨t, rest, ht, hk, -⟩ := begin
      rw [returnedValue_of_begins .nowhere (by rw [ht]; exact hk)]
      exact h.expression value wf small s ends
  exact Parse.map_of_ok reads _

/-- Every well-formed statement of `size + 1` tokens at most is read back, given that the phrases of
`size` tokens are. -/
theorem statement_reads {t : Stmt} (wf : t.isWellFormed) (small : (t.spelling numerals).length ≤ size + 1) :
    Reads (statement parts) (t.spelling numerals) t.bare anyKind := by
  cases t with
  | variableDeclaration _ d =>
    simp only [Stmt.isWellFormed, Bool.and_eq_true, Option.isNone_iff_eq_none] at wf
    rw [Stmt.spelling, List.length_append] at small
    have reads := variableDeclaration_reads h wf.2 (by omega)
    rw [wf.1] at reads
    refine statement_reads_of_bare fun s hs => ?_
    have result := Parse.map_of_ok (reads s hs) (Stmt.variableDeclaration .nowhere)
    obtain ⟨_, constant, _, _⟩ := d
    cases constant <;> exact result
  | functionDeclaration _ d =>
    simp only [Stmt.isWellFormed, Bool.and_eq_true, Option.isNone_iff_eq_none] at wf
    rw [Stmt.spelling, List.length_append] at small
    have reads := functionDeclaration_reads h wf.2 (fun visible => by rw [wf.1] at visible; cases visible)
      (by omega)
    rw [wf.1] at reads
    refine statement_reads_of_bare fun s _ => ?_
    have result := Parse.map_of_ok (reads s trivial) (Stmt.functionDeclaration .nowhere)
    obtain ⟨_, _, _, isAsync, _⟩ := d
    cases isAsync <;> exact result
  | classDeclaration _ d =>
    rw [Stmt.spelling, List.length_append] at small
    have reads := classDeclaration_reads h wf (by omega)
    refine statement_reads_of_bare fun s _ => ?_
    have result := Parse.map_of_ok (reads s trivial) (Stmt.classDeclaration .nowhere)
    cases d
    exact result
  | ifBlock _ condition body =>
    rw [Stmt.isWellFormed, Bool.and_eq_true] at wf
    rw [Stmt.spelling, List.cons_append, List.length_append, List.length_cons] at small
    have reads := conditional_reads h .ifWord wf.1 wf.2 (by omega)
    rw [Stmt.bare, Stmt.relocate, relocateStmts_eq_map]
    refine statement_reads_of_bare fun s _ => ?_
    exact Parse.bind_of_ok (reads s trivial) fun parts => pure (Stmt.ifBlock .nowhere parts.1 parts.2)
  | whileLoop _ condition body =>
    rw [Stmt.isWellFormed, Bool.and_eq_true] at wf
    rw [Stmt.spelling, List.cons_append, List.length_append, List.length_cons] at small
    have reads := conditional_reads h .whileWord wf.1 wf.2 (by omega)
    rw [Stmt.bare, Stmt.relocate, relocateStmts_eq_map]
    refine statement_reads_of_bare fun s _ => ?_
    exact Parse.bind_of_ok (reads s trivial) fun parts => pure (Stmt.whileLoop .nowhere parts.1 parts.2)
  | forLoop _ loop =>
    obtain ⟨counter, condition, iterator, body⟩ := loop
    rw [Stmt.spelling, List.length_append] at small
    have reads := forLoop_reads h wf (by omega)
    exact statement_reads_of_bare fun s _ => Parse.map_of_ok (reads s trivial) (Stmt.forLoop .nowhere)
  | breakLoop => exact statement_reads_of_bare (w := [_]) fun _ _ => rfl
  | returnValue _ value =>
    rw [Stmt.spelling, List.length_append, List.length_cons, List.length_singleton] at small
    exact statement_reads_of_bare (returnStatement_reads h wf (by omega))
  | expression _ e =>
    rw [Stmt.spelling, List.length_append] at small
    have reads := expressionStatement_reads h wf (by omega)
    exact statement_reads_of_bare (reads.mono fun kind hk => hk ▸ EndsAt.closer (by decide) 0)

end

end Grammar

end ScriptLang
