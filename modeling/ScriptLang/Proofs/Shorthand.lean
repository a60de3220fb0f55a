/-
# ScriptLang.Proofs.Shorthand — an assignment in short form is what it is written out as.

An assignment sign that combines, such as the one for adding, stands for an assignment of an operation on the
target; a sign that steps, for an operation with one.  The two forms go different ways through the grammar: the
short one keeps the target that it has read and reads an operand at the level of `new`, the other one reads the
target twice and the operand in parentheses.  They come to the same tree but for its places, as statements and
as iterators of loops, and so they do the same on every machine.
-/
import ScriptLang.Proofs.Places
import ScriptLang.Proofs.Syntax.Taken

namespace ScriptLang

namespace Grammar

open Parse (Local Settles anyKind)

/-! ## Assignments -/

/-- The signs of assignments in short form, each with what it stands for: a step by one, or an operation with an
operand. -/
def shorthands : List (Sign × Update) :=
  [(.plusPlus, .step .add), (.minusMinus, .step .subtract), (.plusEqual, .combine .add),
    (.minusEqual, .combine .subtract), (.starEqual, .combine .multiply), (.slashEqual, .combine .divide),
    (.percentEqual, .combine .modulo)]

/-- The grammar knows these short forms and no others. -/
theorem update?_iff_shorthand {kind : Kind} {update : Update} (short : update ≠ .replace) :
    update? kind = some update ↔ ∃ mark, kind = .sign mark ∧ (mark, update) ∈ shorthands := by
  constructor
  · intro meaning
    unfold update? at meaning
    split at meaning <;> cases meaning
    case h_1 => exact absurd rfl short
    all_goals exact ⟨_, rfl, by decide⟩
  · rintro ⟨mark, rfl, row⟩
    simp only [shorthands, List.mem_cons, List.not_mem_nil, or_false, Prod.mk.injEq] at row
    rcases row with ⟨rfl, rfl⟩ | ⟨rfl, rfl⟩ | ⟨rfl, rfl⟩ | ⟨rfl, rfl⟩ | ⟨rfl, rfl⟩ | ⟨rfl, rfl⟩ | ⟨rfl, rfl⟩ <;> rfl

/-- The tokens of the value that an assignment sign stands for, from those of its target and of what follows
the sign. -/
def expandedValue (target operand : List Token) : Update → List Token
  | .replace => operand
  | .combine operator => target ++ .ofSign operator.sign :: parenthesized operand
  | .step operator => target ++ [.ofSign operator.sign, .ofNumeral "1"]

/-- The tokens of an assignment that is written out. -/
def expansion (target operand : List Token) (update : Update) : List Token :=
  target ++ .ofSign .assign :: expandedValue target operand update

variable {n : Nat} {s : TokenStream} {sign : Token} {update : Update} {target operand : List Token}

/-- What follows a target in short form is read to a value, and that value is read, but for its places, from the
tokens that the short form stands for. -/
theorem assignmentTo_expands (meaning : update? sign.kind = some update) (short : update ≠ .replace) {e x : Expr}
    (taken : TakenAt 1 target e) (hs : (s.prepend (sign :: operand)).Proper)
    (read : assignmentTo (.within n) e (s.prepend (sign :: operand)) = .ok (x, s)) :
    isTarget e ∧ ∃ value value', x = .assign e.span e value ∧ value'.bare = value.bare ∧
      TakenAt 0 (expandedValue target operand update) value' := by
  unfold assignmentTo at read
  rw [Parse.peek_bind, TokenStream.peek_prepend] at read
  simp only [meaning] at read
  by_cases targeted : isTarget e
  · rw [if_pos targeted, Parse.advance_bind, TokenStream.next_prepend] at read
    have tight (operator : Operator) := (taken.of_isTarget targeted).loosen_to (operator.level + 1)
      (Nat.succ_le_succ operator.level_le) (by decide)
    refine ⟨targeted, ?_⟩
    cases update with
    | replace => exact absurd rfl short
    | step operator =>
      obtain ⟨rfl, -⟩ := Prod.mk.inj (Except.ok.inj read)
      have high := operator.level_le
      have one := numeral_takenAt.loosen_to (operator.level + 1) (by omega) (by decide)
      have value := ((tight operator).operation one).loosen_to 0 (Nat.zero_le _) (by omega)
      exact ⟨_, .binary e.span e operator (.number .nowhere 1.0), rfl, rfl, value⟩
    | combine operator =>
      obtain ⟨right, t, second, read⟩ := Parse.bind_eq_ok.1 read
      cases read
      have high := operator.level_le
      have behind : TakenAt 1 operand right :=
        .of_read (by decide) (by decide) hs.tail second
      have inside := (behind.loosen (by decide)).parenthesized.loosen_to (operator.level + 1) (by omega) (by decide)
      have value := ((tight operator).operation inside).loosen_to 0 (Nat.zero_le _) (by omega)
      exact ⟨_, .binary e.span e operator right, rfl, rfl, value⟩
  · rw [if_neg targeted] at read
    cases read

/-! ## Statements -/

theorem bareStatement_takes {w : List Token} {e : Expr} (h : TakenAt 0 w e)
    (begin : ∀ s : TokenStream, (s.prepend w).peek.kind.begins 1) :
    Takes bareStatement (EndsAt 0) w (.expression (TokenStream.only w).peek.span e) := by
  refine ⟨h.inner, fun n short s hs ends => ?_⟩
  have first : (s.prepend w).peek = (TokenStream.only w).peek := by
    cases w with
    | nil => cases begin (.only [])
    | cons t rest => rfl
  rw [bareStatement_of_begins (begin s), first]
  exact Parse.map_of_ok (h.reads n short s hs ends) _

/-- In front of `s` the tokens of a target, an assignment sign and the tokens of an operand are read as the
statement `x`. -/
structure StatementAt (n : Nat) (s : TokenStream) (target : List Token) (sign : Token) (operand : List Token)
    (x : Stmt) : Prop where
  proper : ((s.prepend (sign :: operand)).prepend target).Proper
  left : ∃ e, instantiation (.within n) ((s.prepend (sign :: operand)).prepend target) =
    .ok (e, s.prepend (sign :: operand))
  reads : bareStatement (.within n) ((s.prepend (sign :: operand)).prepend target) = .ok (x, s)

theorem StatementAt.expands (meaning : update? sign.kind = some update) (short : update ≠ .replace) {x : Stmt}
    (h : StatementAt n s target sign operand x) :
    ∃ x', Takes bareStatement (EndsAt 0) (expansion target operand update) x' ∧ x'.bare = x.bare := by
  obtain ⟨proper, ⟨e, first⟩, read⟩ := h
  have taken : TakenAt 1 target e := .of_read (by decide) (by decide) proper first
  have begin := taken.begins (by decide) (by decide)
  rw [bareStatement_of_begins (begin _)] at read
  obtain ⟨whole, assigned, rfl⟩ := Parse.map_eq_ok.1 read
  rw [expression_of_begins _ (begin _), Parse.bind_of_ok first] at assigned
  obtain ⟨targeted, value, value', rfl, same, takenValue⟩ :=
    assignmentTo_expands meaning short taken proper.rest assigned
  refine ⟨_, bareStatement_takes (taken.assignment targeted takenValue) fun u => ?_, ?_⟩
  · rw [expansion, TokenStream.prepend_append]
    exact begin _
  · exact congrArg (fun value => Stmt.expression .nowhere (.assign .nowhere e.bare value)) same

/-! ## Loops -/

section

variable (self : Phrases)

/-- The head of a loop over a counter as far as its iterator. -/
def loopFront : Parse (VariableDeclaration × Expr) := do
  let _ ← Parse.expect (.sign .leftParen) (.after (.keyword .forWord))
  let counter ← loopCounter self
  let _ ← Parse.expect (.sign .semicolon) .afterLoopVariable
  let condition ← self.expression
  let _ ← Parse.expect (.sign .semicolon) .afterLoopCondition
  return (counter, condition)

/-- What comes after the iterator of a loop. -/
def loopBack : Parse (List Stmt) := do
  let _ ← Parse.expect (.sign .rightParen) .loopHeaderEnd
  block self .loopBodyStart

theorem forLoop_eq :
    forLoop self = do
      let (counter, condition) ← loopFront self
      let iterator ← loopIterator self counter.name
      let body ← loopBack self
      return ⟨counter, condition, iterator, body⟩ := by
  simp only [forLoop, loopFront, loopBack, bind_assoc, pure_bind]

end

theorem loopFront_steady : Steady loopFront anyKind where
  ends := trivial
  settles h := by
    refine (Settles.expect _ (by decide)).takes_bind fun _ => ?_
    refine ((loopCounter_settles h).lower (Nat.le_succ _)).bind fun counter => ?_
    refine (Settles.expect _ (by decide)).bind fun _ => h.expression.bind fun condition => ?_
    exact (Settles.expect _ (by decide)).le.bind fun _ => .pure _
  sees h := by
    refine (Local.expect _ (by decide)).weaken.before fun _ => (loopCounter_local h).before fun counter => ?_
    refine (Local.expect _ (by decide)).weaken.before fun _ => h.expression.before fun condition => ?_
    exact (Local.expect _ (by decide)).andThen fun _ => .pure _

theorem loopBack_steady : Steady loopBack anyKind where
  ends := trivial
  settles h := (Settles.expect _ (by decide)).bind fun _ => block_settles h _
  sees h := (Local.expect _ (by decide)).weaken.before fun _ => block_local h _

variable {word name : Token} {front rest : List Token}

/-- An iterator in short form is read as what it is written out as. -/
theorem loopIterator_expands (meaning : update? sign.kind = some update) (short : update ≠ .replace)
    {counter : String} {x : Expr} (hs : (s.prepend (name :: sign :: operand)).Proper)
    (read : loopIterator (.within n) counter (s.prepend (name :: sign :: operand)) = .ok (x, s)) :
    ∃ x', Takes (loopIterator · counter) (EndsAt 0) (expansion [name] operand update) x' ∧ x'.bare = x.bare := by
  obtain ⟨named, read⟩ := Parse.expect_bind_eq_ok.1 read
  rw [TokenStream.peek_prepend] at named read
  obtain ⟨iterator, t, read, checked⟩ := Parse.bind_eq_ok.1 read
  by_cases stepping : steps counter iterator
  · rw [if_pos stepping] at checked
    cases checked
    have taken := (identifier_takenAt named).loosen_to 1 (by decide) (by decide)
    obtain ⟨targeted, value, value', rfl, same, takenValue⟩ :=
      assignmentTo_expands meaning short taken hs.tail read
    refine ⟨.assign name.span (.identifier name.span name.value) value', ⟨?_, fun N small u hu ends => ?_⟩, ?_⟩
    · exact (taken.assignment targeted takenValue).inner
    · rw [expansion, List.length_append, List.length_cons, List.length_cons] at small
      obtain ⟨N, rfl⟩ : ∃ m, N = m + 1 := ⟨N - 1, by omega⟩
      have value : assignmentTo (.within (N + 1)) _ (u.prepend (.ofSign .assign :: _)) = _ :=
        assignmentTo_assign targeted (takenValue.reads N (by omega) u hu ends)
      refine Parse.expect_bind_eq_ok.2 ⟨named, (Parse.bind_of_ok value _).trans ?_⟩
      exact congrFun (if_pos stepping) u
    · exact congrArg (fun value => Expr.assign .nowhere (.identifier .nowhere name.value) value) same
  · rw [if_neg stepping] at checked
    cases checked

/-- The parts of a loop, with their tokens, from left to right. -/
theorem forLoop_takes {counter : VariableDeclaration} {condition iterator : Expr} {body : List Stmt}
    {w : List Token} (head : Takes loopFront anyKind front (counter, condition))
    (step : Takes (loopIterator · counter.name) (EndsAt 0) w iterator) (back : Takes loopBack anyKind rest body) :
    Takes forLoop anyKind (front ++ (w ++ rest)) ⟨counter, condition, iterator, body⟩ := by
  refine ⟨?_, fun n short s hs _ => ?_⟩
  · simp only [List.forall_mem_append]
    exact ⟨head.inner, step.inner, back.inner⟩
  · simp only [List.length_append] at short
    have last := back.reads n (by omega) s hs trivial
    have closes : (s.prepend rest).peek.kind = .sign .rightParen := (Parse.expect_bind_eq_ok.1 last).1
    have properBack := hs.prepend back.inner
    have middle := step.reads n (by omega) _ properBack (by rw [closes]; exact .closer (by decide) 0)
    have first := head.reads n (by omega) _ (properBack.prepend step.inner) trivial
    rw [forLoop_eq, TokenStream.prepend_append, TokenStream.prepend_append, Parse.bind_of_ok first]
    exact (Parse.bind_of_ok middle _).trans (Parse.bind_of_ok last _)

theorem bareStatement_for {parts : Phrases} (loop : word.kind = .keyword .forWord) (s : TokenStream)
    (w : List Token) :
    bareStatement parts (s.prepend (word :: w)) = (Stmt.forLoop word.span <$> forLoop parts) (s.prepend w) := by
  unfold bareStatement
  rw [Parse.peek_bind, TokenStream.peek_prepend]
  simp only [loop]
  rfl

/-- In front of `s` the word `for`, the tokens of a loop's head as far as its iterator, those of the iterator
and those of what comes after it are read as the statement `x`. -/
structure LoopAt (n : Nat) (s : TokenStream) (word : Token) (front : List Token) (name sign : Token)
    (operand rest : List Token) (x : Stmt) : Prop where
  proper : (((s.prepend rest).prepend (name :: sign :: operand)).prepend (word :: front)).Proper
  loop : word.kind = .keyword .forWord
  parts : ∃ counter condition iterator,
    loopFront (.within n) (((s.prepend rest).prepend (name :: sign :: operand)).prepend front) =
      .ok ((counter, condition), (s.prepend rest).prepend (name :: sign :: operand)) ∧
    loopIterator (.within n) counter.name ((s.prepend rest).prepend (name :: sign :: operand)) =
      .ok (iterator, s.prepend rest)
  reads : bareStatement (.within n) (((s.prepend rest).prepend (name :: sign :: operand)).prepend (word :: front)) =
    .ok (x, s)

theorem LoopAt.expands (meaning : update? sign.kind = some update) (short : update ≠ .replace) {x : Stmt}
    (h : LoopAt n s word front name sign operand rest x) :
    ∃ x', Takes bareStatement anyKind (word :: front ++ (expansion [name] operand update ++ rest)) x' ∧
      x'.bare = x.bare := by
  obtain ⟨proper, isLoop, ⟨counter, condition, iterator, head, step⟩, read⟩ := h
  rw [bareStatement_for isLoop] at read
  obtain ⟨loop, looped, rfl⟩ := Parse.map_eq_ok.1 read
  rw [forLoop_eq, Parse.bind_of_ok head] at looped
  obtain ⟨body, t, back, built⟩ := Parse.bind_eq_ok.1 ((Parse.bind_of_ok step _).symm.trans looped)
  cases built
  obtain ⟨iterator', stepTaken, same⟩ := loopIterator_expands meaning short proper.tail.rest step
  have taken := forLoop_takes (.of_read loopFront_steady proper.tail head) stepTaken
    (.of_read loopBack_steady proper.tail.rest.rest back)
  refine ⟨.forLoop word.span ⟨counter, condition, iterator', body⟩, ⟨?_, fun N small u hu _ => ?_⟩, ?_⟩
  · rw [List.cons_append, List.forall_mem_cons]
    exact ⟨by rw [isLoop]; nofun, taken.inner⟩
  · rw [List.cons_append, bareStatement_for isLoop]
    exact Parse.map_of_ok (taken.reads N (Nat.le_of_succ_le small) u hu trivial) _
  · exact congrArg (fun iterator => Stmt.forLoop .nowhere
      ⟨counter.relocate _, condition.bare, iterator, relocateStmts _ body⟩) same

/-! ## Other places -/

/-- Wherever the tokens `w` stand, and a token of a kind of `next` after them, they are read as a statement that
is `x` but for its places; and from every machine it comes to the same end, but for the places in it. -/
def ReadsLike (next : Kind → Prop) (w : List Token) (x : Stmt) : Prop :=
  ∀ n, w.length ≤ n → ∀ s : TokenStream, s.Proper → next s.peek.kind →
    ∃ x', bareStatement (.within n) (s.prepend w) = .ok (x', s) ∧ x'.bare = x.bare ∧
      ∀ fuel strict m, Ended .places (Flow.Alike .places) (Eval.statement (.bounded fuel) x strict m)
        (Eval.statement (.bounded fuel) x' strict m)

theorem Takes.readsLike {next : Kind → Prop} {w long : List Token} {x x' : Stmt}
    (h : Takes bareStatement next w x') (same : x'.bare = x.bare) (spelled : long.map Token.bare = w.map Token.bare) :
    ReadsLike next long x := by
  intro n short s hs stops
  have lengths : long.length = w.length := by
    simpa only [List.length_map] using congrArg List.length spelled
  have inner : ∀ t ∈ long, t.kind ≠ .eof := by
    intro t member
    obtain ⟨u, taken, bare⟩ := List.mem_map.1 (spelled ▸ List.mem_map_of_mem (f := Token.bare) member)
    have kinds : u.bare.kind = t.bare.kind := congrArg Token.kind bare
    exact kinds ▸ h.inner u taken
  have parts : (Phrases.within n).Relocates fun _ => .nowhere :=
    ⟨(readers_relocate _ n).1, (readers_relocate _ n).2⟩
  have sees := bareStatement_local (within_local (n := n) fun _ : Unit => Nat.le_refl n)
  obtain ⟨x'', read, bare⟩ :=
    (bareStatement_relocates parts).copy sees (hs.prepend inner) spelled (h.reads n (lengths ▸ short) s hs stops)
  have like : x''.bare = x.bare := Eq.trans bare same
  exact ⟨x'', read, like, fun fuel strict m => Stmt.ends_alike_of_bare like.symm fuel strict m⟩

end Grammar

open Grammar Parse

/-- An assignment in short form is exactly what it is written out as, under each sign that combines or steps:
these are the seven of the table, and they mean what it says.  A statement `t += e`, whatever its target `t` and
its operand `e` are, is the same tree as `t = t + (e)` but for its places, and `t++` is the same as `t = t + 1`;
likewise the iterator of a loop on its counter.  Wherever the longer form stands it is read as that tree, and from
every machine the two come to the same end. -/
theorem shorthand_is_its_expansion {n : Nat} {s : TokenStream} {sign : Token} {update : Update} {x : Stmt}
    (meaning : update? sign.kind = some update) (short : update ≠ .replace) :
    (∀ target operand, StatementAt n s target sign operand x →
      ∀ long, long.map Token.bare = (expansion target operand update).map Token.bare →
        ReadsLike (EndsAt 0) long x) ∧
    (∀ word front name operand rest, LoopAt n s word front name sign operand rest x →
      ∀ long, long.map Token.bare = (word :: front ++ (expansion [name] operand update ++ rest)).map Token.bare →
        ReadsLike anyKind long x) ∧
    ∀ kind other, other ≠ .replace →
      (update? kind = some other ↔ ∃ mark, kind = .sign mark ∧ (mark, other) ∈ shorthands) := by
  refine ⟨fun target operand h long spelled => ?_, fun word front name operand rest h long spelled => ?_,
    fun kind other => update?_iff_shorthand⟩
  · obtain ⟨x', takes, same⟩ := h.expands meaning short
    exact takes.readsLike same spelled
  · obtain ⟨x', takes, same⟩ := h.expands meaning short
    exact takes.readsLike same spelled

namespace Shorthand

/-- The tokens of `p.q`. -/
def member : List Token :=
  [⟨.identifier, "p", ⟨1, 1, 1⟩⟩, ⟨.sign .dot, ".", ⟨1, 2, 1⟩⟩, ⟨.identifier, "q", ⟨1, 3, 1⟩⟩]

/-- The sign that adds to a target. -/
def plus : Token := ⟨.sign .plusEqual, "+=", ⟨1, 5, 2⟩⟩

/-- The sign that subtracts from a target. -/
def minus : Token := ⟨.sign .minusEqual, "-=", ⟨1, 5, 2⟩⟩

/-- The sign that takes one from a target. -/
def down : Token := ⟨.sign .minusMinus, "--", ⟨1, 4, 2⟩⟩

/-- The tokens of `a < b`, which are looser than a sum. -/
def less : List Token :=
  [⟨.identifier, "a", ⟨1, 8, 1⟩⟩, ⟨.sign .less, "<", ⟨1, 10, 1⟩⟩, ⟨.identifier, "b", ⟨1, 12, 1⟩⟩]

/-- The tokens of `(let i = 0; i < n;`. -/
def head : List Token :=
  [⟨.sign .leftParen, "(", ⟨2, 5, 1⟩⟩, ⟨.keyword .letWord, "let", ⟨2, 6, 3⟩⟩, ⟨.identifier, "i", ⟨2, 10, 1⟩⟩,
    ⟨.sign .assign, "=", ⟨2, 12, 1⟩⟩, ⟨.number, "0", ⟨2, 14, 1⟩⟩, ⟨.sign .semicolon, ";", ⟨2, 15, 1⟩⟩,
    ⟨.identifier, "i", ⟨2, 17, 1⟩⟩, ⟨.sign .less, "<", ⟨2, 19, 1⟩⟩, ⟨.identifier, "n", ⟨2, 21, 1⟩⟩,
    ⟨.sign .semicolon, ";", ⟨2, 22, 1⟩⟩]

/-- The end of the head and an empty body. -/
def back : List Token := .ofSign .rightParen :: braced []

/-- `p.q += a < b` is read, and `p.q = p.q + (a < b)` like it; so are `p.q -= a < b` and `p.q--`, which subtract, and
a loop that counts in this way. -/
theorem sum_of_comparison_is_its_expansion :
    ∃ x z one y, StatementAt 7 (.only []) member plus less x ∧
      ReadsLike (EndsAt 0) (expansion member less (.combine .add)) x ∧
      StatementAt 7 (.only []) member minus less z ∧
      ReadsLike (EndsAt 0) (expansion member less (.combine .subtract)) z ∧
      StatementAt 7 (.only []) member down [] one ∧
      ReadsLike (EndsAt 0) (expansion member [] (.step .subtract)) one ∧
      LoopAt 18 (.only []) (.ofKeyword .forWord) head (.ofName "i") plus less back y ∧
      ReadsLike anyKind (.ofKeyword .forWord :: head ++ (expansion [.ofName "i"] less (.combine .add) ++ back)) y := by
  obtain ⟨x, sum⟩ : ∃ x, StatementAt 7 (.only []) member plus less x := ⟨_, ⟨rfl, by decide⟩, ⟨_, rfl⟩, rfl⟩
  obtain ⟨z, difference⟩ : ∃ z, StatementAt 7 (.only []) member minus less z :=
    ⟨_, ⟨rfl, by decide⟩, ⟨_, rfl⟩, rfl⟩
  obtain ⟨one, lessOne⟩ : ∃ one, StatementAt 7 (.only []) member down [] one := ⟨_, ⟨rfl, by decide⟩, ⟨_, rfl⟩, rfl⟩
  obtain ⟨y, loop⟩ : ∃ y, LoopAt 18 (.only []) (.ofKeyword .forWord) head (.ofName "i") plus less back y :=
    ⟨_, ⟨rfl, by decide⟩, rfl, ⟨_, _, _, rfl, rfl⟩, rfl⟩
  have adds : update? plus.kind = some (.combine .add) := rfl
  have subtracts : update? minus.kind = some (.combine .subtract) := rfl
  have steps : update? down.kind = some (.step .subtract) := rfl
  refine ⟨x, z, one, y, sum, ?_, difference, ?_, lessOne, ?_, loop, ?_⟩
  · exact (shorthand_is_its_expansion adds (by decide)).1 _ _ sum _ rfl
  · exact (shorthand_is_its_expansion subtracts (by decide)).1 _ _ difference _ rfl
  · exact (shorthand_is_its_expansion steps (by decide)).1 _ _ lessOne _ rfl
  · exact (shorthand_is_its_expansion adds (by decide)).2.1 _ _ _ _ _ loop _ rfl

end Shorthand

end ScriptLang
