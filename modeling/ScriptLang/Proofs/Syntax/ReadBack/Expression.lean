/-
# ScriptLang.Proofs.Syntax.ReadBack.Expression — reading undoes the writing of expressions.

Phrases inside phrases are handed to readers of a smaller bound, which are assumed to read back what is
short enough.  What is left is the recursion of expressions through their operands, which stays at one
bound; it follows the tree, and says of each expression how it is read without parentheses around it.
-/
import ScriptLang.Proofs.Syntax.Reads

namespace ScriptLang

/-! ## Phrases inside phrases -/

@[simp] theorem length_parenthesized (w : List Token) : (parenthesized w).length = w.length + 2 := by
  simp [parenthesized]

@[simp] theorem length_braced (w : List Token) : (braced w).length = w.length + 2 := by
  simp [braced]

@[simp] theorem length_bracketed (w : List Token) : (bracketed w).length = w.length + 2 := by
  simp [bracketed]

theorem length_le_parenthesizedIf (needed : Bool) (w : List Token) :
    w.length ≤ (parenthesizedIf needed w).length := by
  cases needed
  · exact Nat.le_refl _
  · exact Nat.le_trans (Nat.le_add_right _ 2) (Nat.le_of_eq (length_parenthesized w).symm)

/-- The readers of the two phrases that contain themselves read every well-formed phrase of `size` tokens
at most. -/
structure Phrases.ReadsBack (numerals : Numerals) (parts : Phrases) (size : Nat) : Prop where
  bound : size < parts.bound
  expression : ∀ e : Expr, e.isWellFormed → (e.spelling numerals).length ≤ size →
    Parse.Reads parts.expression (e.spelling numerals) e.bare (EndsAt 0)
  statement : ∀ s : Stmt, s.isWellFormed → (s.spelling numerals).length ≤ size →
    Parse.Reads parts.statement (s.spelling numerals) s.bare Parse.anyKind

namespace Grammar

open Parse (Reads anyKind)

theorem BeginsItem.of_begins {w : List Token} (h : Begins 0 w) : BeginsItem w := by
  obtain ⟨t, rest, rfl, ht, -⟩ := h
  refine ⟨t, rest, rfl, ?_, ?_⟩
  · intro semicolon
    rw [semicolon] at ht
    cases ht
  · cases hk : t.kind with
    | sign g => cases g <;> first | rfl | (rw [hk] at ht; cases ht)
    | eof => rw [hk] at ht; cases ht
    | _ => rfl

theorem BeginsItem.ne_nil {w : List Token} (h : BeginsItem w) : w ≠ [] := by
  obtain ⟨t, rest, rfl, -⟩ := h
  exact List.cons_ne_nil t rest

theorem beginsItem_keyword (word : Keyword) (w : List Token) : BeginsItem (.ofKeyword word :: w) :=
  ⟨_, _, rfl, fun h => (nomatch h), rfl⟩

theorem BeginsItem.append {w : List Token} (h : BeginsItem w) (v : List Token) :
    BeginsItem (w ++ v) := by
  obtain ⟨t, rest, rfl, ht⟩ := h
  exact ⟨t, rest ++ v, rfl, ht⟩

section

variable {numerals : Numerals} {parts : Phrases} {size : Nat} (h : parts.ReadsBack numerals size)

include h

theorem expressions_read {g : Sign} (hg : g ∈ EndsAt.closers) {es : List Expr}
    (wf : es.all Expr.isWellFormed) (small : (separated (es.map (Expr.spelling numerals))).length ≤ size) :
    ∀ e ∈ es, Begins 0 (e.spelling numerals) ∧
      Reads parts.expression (e.spelling numerals) e.bare fun k => k = .sign .comma ∨ k = .sign g := by
  intro e he
  have he' := List.all_eq_true.mp wf e he
  refine ⟨(e.begins_spelling numerals he').of_le (Nat.zero_le _), ?_⟩
  refine (h.expression e he' (Nat.le_trans (spelling_le_separated he) small)).mono ?_
  rintro _ (rfl | rfl)
  · exact EndsAt.closer (by decide) 0
  · exact EndsAt.closer hg 0

omit h in
theorem length_le_of_expressions (numerals : Numerals) {es : List Expr} (wf : es.all Expr.isWellFormed) :
    es.length ≤ (separated (es.map (Expr.spelling numerals))).length :=
  length_le_length_separated fun e he =>
    (e.begins_spelling numerals (List.all_eq_true.mp wf e he)).ne_nil

theorem arguments_reads (place : Place) {args : List Expr} (wf : args.all Expr.isWellFormed)
    (small : (separated (args.map (Expr.spelling numerals))).length ≤ size) :
    Reads (arguments parts place) (parenthesized (separated (args.map (Expr.spelling numerals))))
      (args.map Expr.bare) anyKind := by
  intro s _
  have few := length_le_of_expressions numerals wf
  have bound := h.bound
  unfold arguments parenthesized
  rw [List.cons_append, Parse.expect_sign]
  exact untilParenthesis_reads parts .argumentsEnd args (by omega)
    (expressions_read h (by decide) wf small) s trivial

theorem arrayLiteral_reads (span : Span) {es : List Expr} (wf : es.all Expr.isWellFormed)
    (small : (separated (es.map (Expr.spelling numerals))).length ≤ size) :
    Reads (arrayLiteral parts span)
      (separated (es.map (Expr.spelling numerals)) ++ [.ofSign .rightBracket])
      (.array span (es.map Expr.bare)) anyKind := by
  intro s _
  have few := length_le_of_expressions numerals wf
  have bound := h.bound
  have reads := phrasesInLiteral_reads (.sign .rightBracket) .betweenElements
    (fun h => nomatch h) rfl es parts.bound (by omega) (expressions_read h (by decide) wf small)
  unfold arrayLiteral
  rw [TokenStream.prepend_append, reads.bind rfl, Parse.expect_sign]
  rfl

theorem property_reads {q : Property} (wf : q.isWellFormed) (small : (q.spelling numerals).length ≤ size) :
    Reads (property parts) (q.spelling numerals) (q.relocate fun _ => .nowhere) fun k =>
      k = .sign .comma ∨ k = .sign .rightBrace := by
  intro s hs
  obtain ⟨key, value, span⟩ := q
  unfold property
  cases value with
  | none =>
    have noColon : s.peek.kind ≠ .sign .colon := by
      rcases hs with hs | hs <;> rw [hs] <;> exact fun h => nomatch h
    simp only [Property.spelling, valueSpelling, Parse.peek_bind, Parse.expectName_bind,
      TokenStream.prepend_nil]
    rw [Parse.accept_bind_of_ne noColon]
    rfl
  | some e =>
    have ends : EndsAt 0 s.peek.kind := by
      rcases hs with hs | hs <;> rw [hs] <;> exact EndsAt.closer (by decide) 0
    have reads := h.expression e wf (by simp [Property.spelling, valueSpelling] at small; omega) s ends
    simp only [Property.spelling, valueSpelling, Parse.peek_bind, Parse.expectName_bind,
      Parse.accept_sign, if_true]
    rw [Parse.bind_of_ok (Parse.map_of_ok reads some)]
    rfl

theorem objectLiteral_reads (span : Span) {ps : List Property} (wf : ps.all Property.isWellFormed)
    (small : (separated (ps.map (Property.spelling numerals))).length ≤ size) :
    Reads (objectLiteral parts span)
      (separated (ps.map (Property.spelling numerals)) ++ [.ofSign .rightBrace])
      (.object span (ps.map (Property.relocate fun _ => .nowhere))) anyKind := by
  intro s _
  have begin (q : Property) : Begins 0 (q.spelling numerals) := by
    cases q
    exact ⟨_, _, rfl, rfl, rfl⟩
  have few : ps.length ≤ (separated (ps.map (Property.spelling numerals))).length :=
    length_le_length_separated fun q _ => (begin q).ne_nil
  have bound := h.bound
  have reads := phrasesInLiteral_reads (.sign .rightBrace) .betweenProperties
    (fun h => nomatch h) rfl ps parts.bound (by omega) fun q hq => ⟨begin q, property_reads h
      (List.all_eq_true.mp wf q hq) (Nat.le_trans (spelling_le_separated hq) small)⟩
  unfold objectLiteral
  rw [TokenStream.prepend_append, reads.bind rfl, Parse.expect_sign]
  rfl

theorem parenthesized_reads {e : Expr} (wf : e.isWellFormed) (small : (e.spelling numerals).length ≤ size) :
    Reads (primary parts) (parenthesized (e.spelling numerals)) e.bare anyKind := by
  intro s _
  have ends : EndsAt 0 (.sign .rightParen) := EndsAt.closer (by decide) 0
  exact primary_parenthesized (h.expression e wf small (s.prepend [.ofSign .rightParen]) ends)

/-! ## Blocks and functions -/

omit h in
theorem FunctionDeclaration.beginsItem_spelling (d : FunctionDeclaration) :
    BeginsItem (d.spelling numerals) := by
  obtain ⟨_, _, _, isAsync, _⟩ := d
  cases isAsync <;> exact beginsItem_keyword _ _

omit h in
theorem Stmt.beginsItem_spelling {s : Stmt} (wf : s.isWellFormed) : BeginsItem (s.spelling numerals) := by
  cases s with
  | functionDeclaration _ d => exact (FunctionDeclaration.beginsItem_spelling d).append _
  | expression _ e =>
    have begin : Begins 0 (e.spelling numerals) := (e.begins_spelling numerals wf).of_le (Nat.zero_le _)
    refine BeginsItem.append (.of_begins ?_) _
    cases e.isFunction
    · exact begin
    · exact begins_parenthesized 0 _
  | variableDeclaration _ d | classDeclaration _ d | forLoop _ d =>
    cases d
    exact beginsItem_keyword _ _
  | _ => exact beginsItem_keyword _ _

theorem block_reads (place : Place) {body : List Stmt} (wf : body.all Stmt.isWellFormed)
    (small : (stmtsSpelling numerals body).length ≤ size) :
    Reads (block parts place) (braced (stmtsSpelling numerals body)) (body.map Stmt.bare) anyKind := by
  intro s _
  rw [stmtsSpelling_eq_flatMap] at small ⊢
  have begin (t : Stmt) (ht : t ∈ body) : BeginsItem (t.spelling numerals) :=
    Stmt.beginsItem_spelling (List.all_eq_true.mp wf t ht)
  have few : body.length ≤ (body.flatMap (Stmt.spelling numerals)).length :=
    length_le_length_flatMap fun t ht => (begin t ht).ne_nil
  have bound := h.bound
  have reads := phrasesToEnd_reads endsBody (fun _ ended => ended) body parts.bound
    (by omega) fun t ht => ⟨begin t ht, h.statement t (List.all_eq_true.mp wf t ht)
      (Nat.le_trans (spelling_le_flatMap _ ht) small)⟩
  unfold block braced
  rw [List.cons_append, Parse.expect_sign, TokenStream.prepend_append,
    reads.bind (s := s.prepend [.ofSign .rightBrace]) rfl, Parse.expect_sign]
  rfl

omit h in
theorem parameters_read (parts : Phrases) (names : List String) (few : names.length ≤ parts.bound) :
    Reads (untilParenthesis parts parameter .parametersEnd)
      (separated (names.map fun name => [.ofName name]) ++ [.ofSign .rightParen]) names anyKind := by
  have each (name : String) (_ : name ∈ names) : Begins 0 [.ofName name] ∧
      Reads parameter [.ofName name] (id name) fun k => k = .sign .comma ∨ k = .sign .rightParen :=
    ⟨⟨_, _, rfl, rfl, rfl⟩, fun s _ => rfl⟩
  have reads := untilParenthesis_reads parts .parametersEnd names few each
  rw [List.map_id] at reads
  exact reads

omit h in
/-- The words that a function begins with. -/
theorem functionWords_bind {α : Type} (isAsync : Bool) (place : Bool → Place)
    (c : Bool → Token → Parse α) (s : TokenStream) (w : List Token) :
    (Parse.accept (.keyword .asyncWord) >>= fun isAsync =>
      Parse.expect (.keyword .functionWord) (place isAsync) >>= c isAsync)
        (s.prepend ((if isAsync then [.ofKeyword .asyncWord] else []) ++ .ofKeyword .functionWord :: w)) =
      c isAsync (.ofKeyword .functionWord) (s.prepend w) := by
  cases isAsync with
  | true => exact (Parse.accept_keyword _ _ _ _).trans (Parse.expect_keyword _ _ _ _ _)
  | false =>
    refine (Parse.accept_bind_of_ne (fun h => ?_) _).trans (Parse.expect_keyword _ _ _ _ _)
    cases h

theorem functionDeclaration_reads {d : FunctionDeclaration} (wf : d.isWellFormed)
    (named : d.visibility.isSome → d.name.isSome) (small : (d.spelling numerals).length ≤ size + 1) :
    Reads (functionDeclaration parts d.visibility) (d.spelling numerals)
      (d.relocate fun _ => .nowhere) anyKind := by
  intro s _
  obtain ⟨name, parameters, body, isAsync, visibility⟩ := d
  have wf : body.all Stmt.isWellFormed := (stmtsAreWellFormed_eq_all body).symm.trans wf
  have few : parameters.length ≤ (separated (parameters.map fun name => [Token.ofName name])).length :=
    length_le_length_separated fun _ _ => List.cons_ne_nil _ _
  have bound := h.bound
  simp only [FunctionDeclaration.spelling, parametersSpelling, List.length_append, List.length_cons,
    length_parenthesized, length_braced] at small
  -- with a name or without one, the rest is read in the same way
  have tail : (Parse.expect (.sign .leftParen) .parametersStart >>= fun _ =>
      untilParenthesis parts parameter .parametersEnd >>= fun parameters =>
        block parts .functionBodyStart >>= fun body =>
          pure (⟨name, parameters, body, isAsync, visibility⟩ : FunctionDeclaration))
      (s.prepend (parametersSpelling parameters ++ braced (stmtsSpelling numerals body))) =
        .ok (⟨name, parameters, body.map Stmt.bare, isAsync, visibility⟩, s) := by
    have readsParameters := parameters_read parts parameters (by omega)
    have readsBody := block_reads h .functionBodyStart wf (by omega)
    unfold parametersSpelling parenthesized
    rw [TokenStream.prepend_append, List.cons_append, Parse.expect_sign, readsParameters.bind trivial,
      readsBody.bind trivial]
    rfl
  have isBare : (FunctionDeclaration.mk name parameters body isAsync visibility).relocate
      (fun _ => .nowhere) = ⟨name, parameters, body.map Stmt.bare, isAsync, visibility⟩ := by
    rw [FunctionDeclaration.relocate, relocateStmts_eq_map]
    rfl
  rw [isBare, ← tail]
  rw [FunctionDeclaration.spelling, List.append_assoc, List.append_assoc, functionDeclaration,
    Parse.peek_bind, List.cons_append, functionWords_bind]
  cases name with
  | some name => rfl
  | none =>
    cases visibility with
    | none => rfl
    | some _ => exact absurd (named rfl) Bool.false_ne_true

/-! ## Expressions -/

/-- How an expression is read without parentheses around it: at its own level, in its own loop if that
level has one, and as a class to instantiate if it is a chain of members. -/
structure ReadsOwn (numerals : Numerals) (parts : Phrases) (e : Expr) : Prop where
  reads : Reads (levelReader parts e.level) (e.spelling numerals) e.bare (EndsAt e.level)
  chained : 2 ≤ e.level → e.level ≤ 5 →
    Chained (levelReader parts (e.level + 1)) (levelLoop parts e.level) parts.bound
      (e.spelling numerals) e.bare (EndsAt (e.level + 1))
  members : e.isChain → Chained (primary parts) (membersAfter parts) parts.bound
    (e.spelling numerals) e.bare anyKind

omit h in
theorem ReadsOwn.of_primary {e : Expr} (level : e.level = 6) (nonempty : e.spelling numerals ≠ [])
    (reads : Reads (primary parts) (e.spelling numerals) e.bare anyKind) :
    ReadsOwn numerals parts e where
  reads := by
    rw [level]
    exact reads.mono fun _ _ => trivial
  chained _ high := by omega
  members _ := .of_reads reads nonempty

theorem ReadsOwn.of_chained {e : Expr} (low : 2 ≤ e.level) (high : e.level ≤ 5)
    (small : (e.spelling numerals).length ≤ size + 1)
    (chained : Chained (levelReader parts (e.level + 1)) (levelLoop parts e.level) parts.bound
      (e.spelling numerals) e.bare (EndsAt (e.level + 1)))
    (members : e.isChain → Chained (primary parts) (membersAfter parts) parts.bound
      (e.spelling numerals) e.bare anyKind) :
    ReadsOwn numerals parts e where
  reads := by
    rw [levelReader_eq parts low high]
    have bound := h.bound
    exact chained.reads (by omega) fun k s hs =>
      ⟨hs.mono (Nat.le_succ _), levelLoop_ends parts low high k e.bare hs⟩
  chained _ _ := chained
  members := members

/-- An operand is read at the level that its place admits. -/
theorem operand_reads (level : Nat) {e : Expr} (high : level ≤ 6) (wf : e.isWellFormed)
    (small : (parenthesizedIf (e.level < level) (e.spelling numerals)).length ≤ size + 1)
    (own : ReadsOwn numerals parts e) :
    Reads (levelReader parts level) (parenthesizedIf (e.level < level) (e.spelling numerals)) e.bare
      (EndsAt level) := by
  have positive : 0 < parts.bound := Nat.lt_of_le_of_lt (Nat.zero_le size) h.bound
  by_cases lower : e.level < level
  · -- in parentheses it is a phrase of its own, and two tokens shorter
    simp only [parenthesizedIf, lower, decide_true, if_true, length_parenthesized] at small ⊢
    have reads := parenthesized_reads h wf (by omega)
    exact Reads.loosen_to level positive (Nat.le_refl 6) high (begins_parenthesized 6 _)
      (reads.mono fun _ _ => trivial)
  · simp only [parenthesizedIf, lower, decide_false]
    have begin := e.begins_spelling numerals wf
    exact Reads.loosen_to level positive e.level_le (Nat.le_of_not_lt lower) begin own.reads

/-- An operand is the first part of a chain at the level that its place admits. -/
theorem operand_chained (level : Nat) {e : Expr} (low : 2 ≤ level) (high : level ≤ 5)
    (wf : e.isWellFormed)
    (small : (parenthesizedIf (e.level < level) (e.spelling numerals)).length ≤ size + 1)
    (own : ReadsOwn numerals parts e) :
    Chained (levelReader parts (level + 1)) (levelLoop parts level) parts.bound
      (parenthesizedIf (e.level < level) (e.spelling numerals)) e.bare (EndsAt (level + 1)) := by
  have begin := e.begins_spelling numerals wf
  by_cases same : e.level = level
  · subst same
    simp only [parenthesizedIf, Nat.lt_irrefl, decide_false]
    exact own.chained low high
  · -- an expression of another level is read at the next tighter level already
    have tighter : decide (e.level < level) = decide (e.level < level + 1) := by
      rw [decide_eq_decide]
      omega
    rw [tighter] at small ⊢
    exact .of_reads (operand_reads h (level + 1) (by omega) wf small own) begin.parenthesizedIf.ne_nil

/-- The class that `new` instantiates is read by the loop over members. -/
theorem target_chained {e : Expr} (wf : e.isWellFormed)
    (small : (parenthesizedIf (!e.isChain) (e.spelling numerals)).length ≤ size + 1)
    (own : ReadsOwn numerals parts e) :
    Chained (primary parts) (membersAfter parts) parts.bound
      (parenthesizedIf (!e.isChain) (e.spelling numerals)) e.bare anyKind := by
  cases chain : e.isChain with
  | true => exact own.members chain
  | false =>
    simp only [chain, parenthesizedIf, Bool.not_false, if_true, length_parenthesized] at small ⊢
    exact .of_reads (parenthesized_reads h wf (by omega)) (List.cons_ne_nil _ _)

omit h in
theorem bare_span (e : Expr) : e.bare.span = .nowhere := Expr.relocate_span _ e

theorem assignmentTo_reads (target : Expr) {value : Expr} (targeted : isTarget target) (wf : value.isWellFormed)
    (small : (value.spelling numerals).length ≤ size) :
    Reads (assignmentTo parts target) (.ofSign .assign :: value.spelling numerals)
      (.assign target.span target value.bare) (EndsAt 0) := by
  intro s hs
  exact assignmentTo_assign targeted (h.expression value wf small s hs)

/-- The tokens of a member after its object. -/
def memberTail (numerals : Numerals) (property : Expr) (computed : Bool) : List Token :=
  if computed then bracketed (property.spelling numerals) else .ofSign .dot :: property.spelling numerals

omit h in
theorem memberTail_begins (property : Expr) (computed : Bool) (s : TokenStream) :
    (s.prepend (memberTail numerals property computed)).peek.kind = .sign .dot ∨
      (s.prepend (memberTail numerals property computed)).peek.kind = .sign .leftBracket := by
  cases computed
  · exact .inl rfl
  · exact .inr rfl

theorem memberOf_reads (base : Expr) {property : Expr} {computed : Bool} (wf : property.isWellFormed)
    (named : computed || property.isName)
    (small : (memberTail numerals property computed).length ≤ size + 1) :
    Reads (memberOf parts base) (memberTail numerals property computed)
      (.member base.span base property.bare computed) anyKind := by
  intro s _
  cases computed with
  | true =>
    simp only [memberTail, if_true, length_bracketed] at small
    have reads := h.expression property wf (by omega)
    have ends : EndsAt 0 (.sign .rightBracket) := EndsAt.closer (by decide) 0
    simp only [memberTail, if_true, bracketed, List.cons_append]
    rw [memberOf, Parse.advance_bind, TokenStream.peek_prepend, if_pos (Token.ofSign_kind _),
      TokenStream.next_prepend, TokenStream.prepend_append,
      reads.bind (s := s.prepend [.ofSign .rightBracket]) ends, Parse.expect_sign]
    rfl
  | false =>
    cases property with
    | identifier _ name => rfl
    | _ => cases named

/-- A chain goes on with a member, in each loop that reads members. -/
theorem Chained.member {loop : Nat → Expr → Parse Expr} {w : List Token} {base property : Expr}
    {computed : Bool} (short : w.length ≤ size + 1)
    (chain : Chained (primary parts) loop parts.bound w base.bare anyKind)
    (goesOn : ∀ k e s, s.peek.kind = .sign .dot ∨ s.peek.kind = .sign .leftBracket →
      loop (k + 1) e s = (memberOf parts e >>= loop k) s)
    (wf : property.isWellFormed) (named : computed || property.isName)
    (small : (memberTail numerals property computed).length ≤ size + 1) :
    Chained (primary parts) loop parts.bound (w ++ memberTail numerals property computed)
      (.member .nowhere base.bare property.bare computed) anyKind := by
  have bound := h.bound
  have nonempty : memberTail numerals property computed ≠ [] := by
    cases computed <;> exact List.cons_ne_nil _ _
  refine chain.step (by omega) nonempty fun k s _ => ⟨trivial, ?_⟩
  have reads := memberOf_reads h base.bare wf named small
  rw [goesOn k _ _ (memberTail_begins property computed s), reads.bind trivial, bare_span]

/-! ### One lemma for each form of an expression -/

/-- What is shown of each expression, on the assumption that it is well-formed and short enough. -/
def SmallReadsOwn (numerals : Numerals) (parts : Phrases) (size : Nat) (e : Expr) : Prop :=
  e.isWellFormed → (e.spelling numerals).length ≤ size + 1 → ReadsOwn numerals parts e

omit h in
theorem number_readsOwn (span : Span) (x : Float) : SmallReadsOwn numerals parts size (.number span x) := by
  intro _ _
  refine .of_primary rfl (List.cons_ne_nil _ _) fun s _ => ?_
  rw [Expr.spelling, primary, Parse.peek_bind]
  dsimp only [TokenStream.peek_prepend, Token.ofNumeral]
  rw [numerals.reads]
  rfl

theorem object_readsOwn (span : Span) (ps : List Property) :
    SmallReadsOwn numerals parts size (.object span ps) := by
  intro wf small
  have wf : ps.all Property.isWellFormed := (propertiesAreWellFormed_eq_all ps).symm.trans wf
  simp only [Expr.spelling, length_braced, propertySpellings_eq_map] at small
  refine .of_primary rfl (List.cons_ne_nil _ _) fun s _ => ?_
  have reads := objectLiteral_reads h .nowhere wf (by omega) s trivial
  rw [Expr.bare, Expr.relocate, relocateProperties_eq_map, Expr.spelling, propertySpellings_eq_map]
  exact reads

theorem array_readsOwn (span : Span) (es : List Expr) :
    SmallReadsOwn numerals parts size (.array span es) := by
  intro wf small
  have wf : es.all Expr.isWellFormed := (exprsAreWellFormed_eq_all es).symm.trans wf
  simp only [Expr.spelling, length_bracketed, exprSpellings_eq_map] at small
  refine .of_primary rfl (List.cons_ne_nil _ _) fun s _ => ?_
  have reads := arrayLiteral_reads h .nowhere wf (by omega) s trivial
  rw [Expr.bare, Expr.relocate, relocateExprs_eq_map, Expr.spelling, exprSpellings_eq_map]
  exact reads

theorem binary_readsOwn (span : Span) {left right : Expr} (operator : Operator)
    (leftOwn : SmallReadsOwn numerals parts size left)
    (rightOwn : SmallReadsOwn numerals parts size right) :
    SmallReadsOwn numerals parts size (.binary span left operator right) := by
  intro wf small
  rw [Expr.isWellFormed, Bool.and_eq_true] at wf
  have spelled := small
  simp only [Expr.spelling, List.length_append, List.length_cons] at small
  have leftShort := length_le_parenthesizedIf (left.level < operator.level) (left.spelling numerals)
  have rightShort :=
    length_le_parenthesizedIf (right.level < operator.level + 1) (right.spelling numerals)
  have high : operator.level ≤ 5 := Nat.le_succ_of_le operator.level_le
  have leftChained := operand_chained h _ operator.le_level high wf.1 (by omega)
    (leftOwn wf.1 (by omega))
  have rightReads := operand_reads h (operator.level + 1) (Nat.succ_le_succ high) wf.2 (by omega)
    (rightOwn wf.2 (by omega))
  have bound := h.bound
  refine .of_chained h operator.le_level high spelled ?_ fun chain => ?_
  · refine leftChained.step (by omega) (List.cons_ne_nil _ _) fun k s hs => ⟨EndsAt.operator operator, ?_⟩
    rw [levelLoop_operator, rightReads.bind hs, bare_span]
    rfl
  · -- a chain of members has no operator outside parentheses
    rw [Expr.isChain, Bool.and_eq_true, decide_eq_true_eq] at chain
    exact absurd (Nat.le_trans chain.1 operator.level_le) (by decide)

theorem assign_readsOwn (span : Span) {target value : Expr}
    (targetOwn : SmallReadsOwn numerals parts size target) :
    SmallReadsOwn numerals parts size (.assign span target value) := by
  intro wf small
  simp only [Expr.isWellFormed, Bool.and_eq_true] at wf
  obtain ⟨⟨targeted, targetWf⟩, valueWf⟩ := wf
  have high := level_of_isTarget targeted
  have begin := target.begins_spelling numerals targetWf
  have nonempty := List.length_pos_iff.mpr begin.ne_nil
  simp only [Expr.spelling, List.length_append, List.length_cons] at small
  have positive : 0 < parts.bound := Nat.lt_of_le_of_lt (Nat.zero_le size) h.bound
  have targetReads : Reads (instantiation parts) (target.spelling numerals) target.bare (EndsAt 1) :=
    Reads.loosen_to 1 positive target.level_le (by omega) begin
      (targetOwn targetWf (by omega)).reads
  have bareTargeted : isTarget target.bare := (isTarget_relocate _ target).trans targeted
  -- the value is a phrase of its own, so the readers of the smaller bound read it
  have valueReads := assignmentTo_reads h _ bareTargeted valueWf (by omega)
  refine ⟨fun s hs => ?_, fun low _ => absurd low (show ¬2 ≤ 0 by decide),
    fun chain => absurd chain Bool.false_ne_true⟩
  obtain ⟨t, rest, ht, hk, -⟩ := begin
  rw [Expr.spelling, TokenStream.prepend_append]
  refine (expression_of_begins parts ?_).trans ?_
  · rw [ht]
    exact Kind.begins_of_le (by omega) hk
  · rw [targetReads.bind (s := s.prepend (.ofSign .assign :: _)) EndsAt.assign, valueReads s hs,
      bare_span]
    rfl

theorem member_readsOwn (span : Span) {base : Expr} (property : Expr) (computed : Bool)
    (baseOwn : SmallReadsOwn numerals parts size base) :
    SmallReadsOwn numerals parts size (.member span base property computed) := by
  intro wf small
  simp only [Expr.isWellFormed, Bool.and_eq_true] at wf
  obtain ⟨⟨baseWf, propertyWf⟩, named⟩ := wf
  have spelled : (Expr.member span base property computed).spelling numerals =
    parenthesizedIf (base.level < 5) (base.spelling numerals) ++
      memberTail numerals property computed := rfl
  have lengths := small
  rw [spelled, List.length_append] at lengths
  have baseShort := length_le_parenthesizedIf (base.level < 5) (base.spelling numerals)
  have own := baseOwn baseWf (by omega)
  have bound := h.bound
  refine .of_chained h (show 2 ≤ 5 by decide) (Nat.le_refl 5) small ?_ fun chain => ?_
  · have chained := operand_chained h 5 (by decide) (by decide) baseWf (by omega) own
    have withMember := Chained.member h (by omega) (chained.mono fun kind _ => EndsAt.primary kind)
      (callsAfter_member parts) propertyWf named (by omega)
    exact withMember.mono fun _ _ => trivial
  · -- in a chain of members only what is not a chain stands in parentheses
    have same : (!base.isChain) = decide (base.level < 5) := by
      simp only [Expr.isChain, Expr.beginsWithCall, Bool.and_eq_true] at chain ⊢
      rw [chain.2, Bool.and_true, ← decide_not, decide_eq_decide]
      exact Nat.not_le
    have chained := target_chained h baseWf (by rw [same]; omega) own
    rw [same] at chained
    exact Chained.member h (by omega) chained (membersAfter_member parts) propertyWf named (by omega)

theorem call_readsOwn (span : Span) {callee : Expr} (args : List Expr)
    (calleeOwn : SmallReadsOwn numerals parts size callee) :
    SmallReadsOwn numerals parts size (.call span callee args) := by
  intro wf small
  rw [Expr.isWellFormed, Bool.and_eq_true, exprsAreWellFormed_eq_all] at wf
  have spelled : (Expr.call span callee args).spelling numerals =
      parenthesizedIf (callee.level < 5) (callee.spelling numerals) ++
        parenthesized (separated (args.map (Expr.spelling numerals))) := by
    rw [Expr.spelling, exprSpellings_eq_map]
  have isBare : (Expr.call span callee args).bare = .call .nowhere callee.bare (args.map Expr.bare) := by
    rw [Expr.bare, Expr.relocate, relocateExprs_eq_map]
    rfl
  have lengths := small
  rw [spelled, List.length_append, length_parenthesized] at lengths
  have calleeShort := length_le_parenthesizedIf (callee.level < 5) (callee.spelling numerals)
  have bound := h.bound
  have calleeChained := operand_chained h 5 (by decide) (by decide) wf.1 (by omega)
    (calleeOwn wf.1 (by omega))
  have argumentsRead := arguments_reads h .callStart wf.2 (by omega)
  refine .of_chained h (show 2 ≤ 5 by decide) (Nat.le_refl 5) small ?_ fun chain => ?_
  · rw [spelled, isBare]
    refine calleeChained.step (by omega) (List.cons_ne_nil _ _) fun k s _ => ⟨EndsAt.primary _, ?_⟩
    refine (callsAfter_call parts k _ s _).trans ((argumentsRead.bind trivial _).trans ?_)
    rw [bare_span]
    rfl
  · cases chain

theorem function_readsOwn (span : Span) (d : FunctionDeclaration) :
    SmallReadsOwn numerals parts size (.function span d) := by
  intro wf small
  rw [Expr.isWellFormed, Bool.and_eq_true, Option.isNone_iff_eq_none] at wf
  have reads := functionDeclaration_reads h wf.2 (fun visible => by rw [wf.1] at visible; cases visible)
    small
  refine ⟨fun s _ => ?_, fun low _ => absurd low (show ¬2 ≤ 0 by decide),
    fun chain => absurd chain Bool.false_ne_true⟩
  have result := Parse.bind_of_ok (reads s trivial) fun f => pure (Expr.function .nowhere f)
  rw [wf.1] at result
  -- the words of a function are the ones that an expression looks for first
  obtain ⟨_, _, _, isAsync, _⟩ := d
  cases isAsync <;> exact result

theorem instantiate_readsOwn (span : Span) {target : Expr} (args : List Expr)
    (targetOwn : SmallReadsOwn numerals parts size target) :
    SmallReadsOwn numerals parts size (.instantiate span target args) := by
  intro wf small
  rw [Expr.isWellFormed, Bool.and_eq_true, exprsAreWellFormed_eq_all] at wf
  have spelled : (Expr.instantiate span target args).spelling numerals =
      .ofKeyword .newWord :: (parenthesizedIf (!target.isChain) (target.spelling numerals) ++
        parenthesized (separated (args.map (Expr.spelling numerals)))) := by
    rw [Expr.spelling, exprSpellings_eq_map, List.cons_append]
  have isBare : (Expr.instantiate span target args).bare =
      .instantiate .nowhere target.bare (args.map Expr.bare) := by
    rw [Expr.bare, Expr.relocate, relocateExprs_eq_map]
    rfl
  rw [spelled, List.length_cons, List.length_append, length_parenthesized] at small
  have targetShort := length_le_parenthesizedIf (!target.isChain) (target.spelling numerals)
  have bound := h.bound
  -- the loop over members stops at the parenthesis, which the loop over calls would take
  have chained := target_chained h wf.1 (by omega) (targetOwn wf.1 (by omega))
  have targetReads : Reads (primary parts >>= membersAfter parts parts.bound) _ target.bare
      (· = .sign .leftParen) :=
    chained.reads (by omega) fun k s hs => ⟨trivial, membersAfter_call parts k _ hs⟩
  have argumentsRead := arguments_reads h .classArguments wf.2 (by omega)
  refine ⟨fun s hs => ?_, fun low _ => absurd low (show ¬2 ≤ 1 by decide),
    fun chain => absurd chain Bool.false_ne_true⟩
  rw [spelled, isBare]
  show (primary parts >>= fun first => membersAfter parts parts.bound first >>= fun target =>
    arguments parts .classArguments >>= fun args => pure (Expr.instantiate .nowhere target args))
      (s.prepend _) = _
  rw [Parse.bind_bind_run, TokenStream.prepend_append,
    targetReads.bind (s := s.prepend (parenthesized _)) rfl, argumentsRead.bind trivial]
  rfl

/-- Every well-formed expression of `size + 1` tokens at most is read back, given that those of `size`
tokens are. -/
theorem readsOwn : ∀ e : Expr, SmallReadsOwn numerals parts size e
  | .identifier _ _ => fun _ _ => .of_primary rfl (List.cons_ne_nil _ _) fun _ _ => rfl
  | .string _ _ => fun _ _ => .of_primary rfl (List.cons_ne_nil _ _) fun _ _ => rfl
  | .null _ => fun wf _ => absurd wf Bool.false_ne_true
  | .number span x => number_readsOwn span x
  | .object span ps => object_readsOwn h span ps
  | .array span es => array_readsOwn h span es
  | .binary span left operator right => binary_readsOwn h span operator (readsOwn left) (readsOwn right)
  | .assign span target _ => assign_readsOwn h span (readsOwn target)
  | .member span base property computed => member_readsOwn h span property computed (readsOwn base)
  | .call span callee args => call_readsOwn h span args (readsOwn callee)
  | .function span d => function_readsOwn h span d
  | .instantiate span target args => instantiate_readsOwn h span args (readsOwn target)

theorem expression_reads {e : Expr} (wf : e.isWellFormed) (small : (e.spelling numerals).length ≤ size + 1) :
    Reads (expression parts) (e.spelling numerals) e.bare (EndsAt 0) :=
  operand_reads h 0 (Nat.zero_le 6) wf small (readsOwn h e wf small)

end

end Grammar

end ScriptLang
