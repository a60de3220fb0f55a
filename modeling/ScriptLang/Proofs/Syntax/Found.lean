/-
# ScriptLang.Proofs.Syntax.Found — statements are found in the order in which they stand.

A reader goes over its tokens from left to right.  The statements in what it reads, at every depth, are found
on its way: one after the other it comes to their first tokens, reads them there, and goes on behind these
tokens to those inside and those after.  Only what an assignment in short form puts into its value is not
found there, since the target is written once and stands twice in the tree.

Each rule of the grammar finds what its parts find, in the order of its parts, behind what it holds already;
and an expression finds nothing at its first token, so that a statement which is one has its own place there.
-/
import ScriptLang.Proofs.Syntax.Taken
import ScriptLang.Proofs.Syntax.WellFormed

namespace ScriptLang

/-! ## Statements in trees -/

open Classical in
/-- Statements that stand in the left operand of a value that is given to `target`; none if that operand is the
target itself, as it is in an assignment in short form. -/
noncomputable def Expr.unlessCopied (target left : Expr) (inside : List Stmt) : List Stmt :=
  if left = target then [] else inside

mutual

/-- The statements in an expression at all depths, from left to right. -/
noncomputable def Expr.nested : Expr → List Stmt
  | .identifier _ _ | .number _ _ | .string _ _ | .null _ => []
  | .object _ properties => nestedInProperties properties
  | .array _ elements => nestedInExprs elements
  | .binary _ left _ right => left.nested ++ right.nested
  | .assign _ target (.binary _ left _ right) =>
    target.nested ++ (target.unlessCopied left left.nested ++ right.nested)
  | .assign _ target value => target.nested ++ value.nested
  | .member _ object property _ => object.nested ++ property.nested
  | .call _ callee arguments => callee.nested ++ nestedInExprs arguments
  | .function _ d => d.nested
  | .instantiate _ target arguments => target.nested ++ nestedInExprs arguments

@[inherit_doc Expr.nested]
noncomputable def nestedInExprs : List Expr → List Stmt
  | [] => []
  | e :: rest => e.nested ++ nestedInExprs rest

@[inherit_doc Expr.nested]
noncomputable def nestedInValue : Option Expr → List Stmt
  | none => []
  | some e => e.nested

@[inherit_doc Expr.nested]
noncomputable def Property.nested : Property → List Stmt
  | ⟨_, value, _⟩ => nestedInValue value

@[inherit_doc Expr.nested]
noncomputable def nestedInProperties : List Property → List Stmt
  | [] => []
  | p :: rest => p.nested ++ nestedInProperties rest

@[inherit_doc Expr.nested]
noncomputable def VariableDeclaration.nested : VariableDeclaration → List Stmt
  | ⟨_, _, value, _⟩ => nestedInValue value

@[inherit_doc Expr.nested]
noncomputable def FunctionDeclaration.nested : FunctionDeclaration → List Stmt
  | ⟨_, _, body, _, _⟩ => statementsIn body

/-- The statements in a statement at all depths, from left to right, without the statement itself. -/
noncomputable def Stmt.nested : Stmt → List Stmt
  | .variableDeclaration _ d => d.nested
  | .functionDeclaration _ d => d.nested
  | .classDeclaration _ d => d.nested
  | .ifBlock _ condition body => condition.nested ++ statementsIn body
  | .whileLoop _ condition body => condition.nested ++ statementsIn body
  | .forLoop _ loop => loop.nested
  | .breakLoop _ => []
  | .returnValue _ value => value.nested
  | .expression _ value => value.nested

/-- Statements with those in them at all depths, in the order in which a walk from left to right comes to
them. -/
noncomputable def statementsIn : List Stmt → List Stmt
  | [] => []
  | x :: rest => (x :: x.nested) ++ statementsIn rest

@[inherit_doc Expr.nested]
noncomputable def ForLoop.nested : ForLoop → List Stmt
  | ⟨counter, condition, iterator, body⟩ =>
    counter.nested ++ (condition.nested ++ (iterator.nested ++ statementsIn body))

@[inherit_doc Expr.nested]
noncomputable def ClassDeclaration.nested : ClassDeclaration → List Stmt
  | ⟨_, _, members⟩ => nestedInMembers members

@[inherit_doc Expr.nested]
noncomputable def Member.nested : Member → List Stmt
  | .property _ d => d.nested
  | .method _ d => d.nested

@[inherit_doc Expr.nested]
noncomputable def nestedInMembers : List Member → List Stmt
  | [] => []
  | m :: rest => m.nested ++ nestedInMembers rest

end

/-- The statements of a program at all depths, from left to right. -/
noncomputable def Program.statements (p : Program) : List Stmt := statementsIn p

theorem nestedInExprs_eq (es : List Expr) : nestedInExprs es = es.flatMap Expr.nested := by
  induction es with
  | nil => rfl
  | cons e rest ih => rw [nestedInExprs, ih, List.flatMap_cons]

theorem nestedInProperties_eq (ps : List Property) : nestedInProperties ps = ps.flatMap Property.nested := by
  induction ps with
  | nil => rfl
  | cons p rest ih => rw [nestedInProperties, ih, List.flatMap_cons]

theorem nestedInMembers_eq (ms : List Member) : nestedInMembers ms = ms.flatMap Member.nested := by
  induction ms with
  | nil => rfl
  | cons m rest ih => rw [nestedInMembers, ih, List.flatMap_cons]

theorem statementsIn_eq (xs : List Stmt) : statementsIn xs = xs.flatMap fun x => x :: x.nested := by
  induction xs with
  | nil => rfl
  | cons x rest ih => rw [statementsIn, ih, List.flatMap_cons]

namespace Expr

/-- An assignment holds the statements of its target and then those of its value, or some of them. -/
theorem nested_assign (span : Span) (target value : Expr) :
    ∃ inside, inside.Sublist value.nested ∧ (assign span target value).nested = target.nested ++ inside := by
  cases value with
  | binary _ left _ right =>
    refine ⟨target.unlessCopied left left.nested ++ right.nested, ?_, rfl⟩
    refine List.Sublist.append ?_ (List.Sublist.refl _)
    unfold unlessCopied
    split
    · exact List.nil_sublist _
    · exact List.Sublist.refl _
  | _ => exact ⟨_, List.Sublist.refl _, rfl⟩

/-- An assignment in short form holds the statements of its target once. -/
theorem nested_assign_copied (span span' : Span) (target : Expr) (operator : Operator) (right : Expr) :
    (assign span target (.binary span' target operator right)).nested = target.nested ++ right.nested := by
  have none : target.unlessCopied target target.nested = [] := if_pos rfl
  rw [nested, none, List.nil_append]

end Expr

/-! ## Statements on the way -/

namespace TokenStream

variable {s t : TokenStream}

/-- What is left of a stream behind its first `k` tokens. -/
def past (k : Nat) (s : TokenStream) : TokenStream := { s with tokens := s.tokens.drop k }

theorem past_one (s : TokenStream) : s.past 1 = s.next := by
  rw [past, List.drop_one]
  rfl

theorem leaves_past (k : Nat) (s : TokenStream) : s.Leaves 0 (s.past k) where
  eof := rfl
  suffix := List.drop_suffix _ _
  taken := (List.drop_suffix _ _).length_le

theorem Leaves.past (h : s.Leaves 0 t) (k : Nat) : (s.past k).Leaves 0 (t.past k) := by
  have suffix : (t.past k).tokens <:+ (s.past k).tokens := by
    show t.tokens.drop k <:+ s.tokens.drop k
    rw [List.suffix_iff_eq_drop.1 h.suffix, List.drop_drop, Nat.add_comm, ← List.drop_drop]
    exact List.drop_suffix _ _
  exact ⟨h.eof, suffix, suffix.length_le⟩

end TokenStream

/-- On the way from one stream to another the statements are found one after the other: their first tokens
come in this order, none of them the end, each has the span of its first token, and it is read there. -/
inductive Found : TokenStream → List Stmt → TokenStream → Prop
  | done {s t : TokenStream} (left : s.Leaves 0 t) : Found s [] t
  | next {s t u v : TokenStream} {n : Nat} {x : Stmt} {xs : List Stmt} (left : s.Leaves 0 t)
    (more : t.peek.kind ≠ .eof) (first : x.span = t.peek.span) (read : readStatement n t = .ok (x, u))
    (rest : Found t.next xs v) : Found s (x :: xs) v

namespace Found

variable {s t u : TokenStream} {xs ys : List Stmt}

theorem leaves (h : Found s xs t) : s.Leaves 0 t := by
  induction h with
  | done left => exact left
  | next left _ _ _ _ ih => exact left.trans ((TokenStream.leaves_next _).trans ih)

theorem before (left : s.Leaves 0 t) (h : Found t xs u) : Found s xs u := by
  cases h with
  | done left' => exact .done (left.trans left')
  | next left' more first read rest => exact .next (left.trans left') more first read rest

theorem append (h : Found s xs t) (h' : Found t ys u) : Found s (xs ++ ys) u := by
  induction h with
  | done left => exact before left h'
  | next left more first read _ ih => exact .next left more first read (ih h')

/-- Some of the statements are found as well. -/
theorem sublist (h : Found s xs t) (fewer : ys.Sublist xs) : Found s ys t := by
  induction h generalizing ys with
  | done left =>
    obtain rfl := List.sublist_nil.1 fewer
    exact .done left
  | @next s t u v n x xs left more first read rest ih =>
    cases fewer with
    | cons _ fewer => exact before (left.trans (TokenStream.leaves_next t)) (ih fewer)
    | cons_cons _ fewer => exact .next left more first read (ih fewer)

end Found

/-! ## Readers -/

namespace Parse

variable {α β : Type} {k : Nat} {xs : List Stmt} {w : α → List Stmt} {v : β → List Stmt} {p q : Parse α}
  {c : α → Parse β}

/-- What the reader gives holds the statements `xs`, as before, and then those that are found on the way from
behind its first `k` tokens to where it stops. -/
def Finds (k : Nat) (xs : List Stmt) (w : α → List Stmt) (p : Parse α) : Prop :=
  ∀ s a t, p s = .ok (a, t) → ∃ ys, w a = xs ++ ys ∧ Found (s.past k) ys t

namespace Finds

theorem soon (h : Finds k xs w p) : Finds 0 xs w p := by
  intro s a t read
  obtain ⟨ys, whole, found⟩ := h s a t read
  exact ⟨ys, whole, found.before (s.leaves_past k)⟩

/-- Two readers in turn, of which the second one goes on with what the first one holds. -/
theorem bind (h : Finds k xs w p) (l : ∀ a, Finds 0 (w a) v (c a)) : Finds k xs v (p >>= c) := by
  intro s b u read
  obtain ⟨a, t, first, second⟩ := bind_eq_ok.1 read
  obtain ⟨ys, whole, found⟩ := h s a t first
  obtain ⟨zs, whole', found'⟩ := l a t b u second
  exact ⟨ys ++ zs, by rw [whole', whole, List.append_assoc], found.append found'⟩

/-- A reader after one that finds nothing. -/
theorem after (h : Finds 0 xs (fun _ => xs) p) (l : ∀ a, Finds k xs v (c a)) : Finds k xs v (p >>= c) := by
  intro s b u read
  obtain ⟨a, t, first, second⟩ := bind_eq_ok.1 read
  obtain ⟨ys, -, found⟩ := h s a t first
  obtain ⟨zs, whole, found'⟩ := l a t b u second
  exact ⟨zs, whole, found'.before (found.leaves.past k)⟩

theorem onto (xs : List Stmt) (h : Finds k [] w p) : Finds k xs (fun a => xs ++ w a) p := by
  intro s a t read
  obtain ⟨ys, whole, found⟩ := h s a t read
  exact ⟨ys, congrArg (xs ++ ·) whole, found⟩

/-- What is given may hold some of the statements that are found. -/
theorem thin {w' : α → List Stmt} (h : Finds k [] w p)
    (fewer : ∀ a, ∃ ys, ys.Sublist (w a) ∧ w' a = xs ++ ys) : Finds k xs w' p := by
  intro s a t read
  obtain ⟨ys, whole, found⟩ := h s a t read
  obtain ⟨zs, fewer, whole'⟩ := fewer a
  rw [whole] at fewer
  exact ⟨zs, whole', found.sublist fewer⟩

theorem map {f : α → β} (h : Finds k xs w p) (same : ∀ a, v (f a) = w a) : Finds k xs v (f <$> p) := by
  intro s b t read
  obtain ⟨a, first, rfl⟩ := map_eq_ok.1 read
  rw [same]
  exact h s a t first

theorem ite {cond : Prop} [Decidable cond] (h : Finds k xs w p) (h' : Finds k xs w q) :
    Finds k xs w (if cond then p else q) := by
  split
  · exact h
  · exact h'

theorem pure {a : α} (same : w a = xs) : Finds 0 xs w (Pure.pure a) := by
  intro s b t read
  cases read
  exact ⟨[], by rw [same, List.append_nil], .done (.refl s)⟩

theorem invalid (span : Span) (breach : RuleBreach) : Finds k xs w (Parse.invalid span breach) := by
  intro s a t read
  cases read

theorem unexpected (kind : Kind) (place : Place) : Finds k xs w (Parse.unexpected kind place) := by
  intro s a t read
  cases read

theorem tooDeep : Finds k xs w Parse.tooDeep := by
  intro s a t read
  cases read

theorem look {c : Token → Parse β} (h : ∀ t, Finds k xs v (c t)) : Finds k xs v (Parse.peek >>= c) :=
  fun s b u read => h s.peek s b u read

theorem advance : Finds 1 xs (fun _ => xs) Parse.advance := by
  intro s a t read
  cases read
  exact ⟨[], (List.append_nil xs).symm, s.past_one ▸ .done (.refl _)⟩

theorem accept (kind : Kind) : Finds 0 xs (fun _ => xs) (Parse.accept kind) := by
  intro s a t read
  unfold Parse.accept at read
  split at read
  all_goals cases read
  · exact ⟨[], (List.append_nil xs).symm, .done s.leaves_next⟩
  · exact ⟨[], (List.append_nil xs).symm, .done (.refl s)⟩

theorem expect (kind : Kind) (place : Place) : Finds 1 xs (fun _ => xs) (Parse.expect kind place) := by
  intro s a t read
  unfold Parse.expect at read
  split at read
  all_goals cases read
  exact ⟨[], (List.append_nil xs).symm, s.past_one ▸ .done (.refl _)⟩

theorem expectName (place : Place) : Finds 1 xs (fun _ => xs) (Parse.expectName place) :=
  (expect .identifier place).bind fun _ => .pure rfl

theorem skipSemicolons : Finds 0 xs (fun _ => xs) Parse.skipSemicolons := by
  intro s a t read
  cases read
  exact ⟨[], (List.append_nil xs).symm, .done s.leaves_dropSemicolons⟩

end Finds

end Parse

/-- The readers of the two phrases that contain themselves find the statements in what they read. -/
structure Phrases.Find (parts : Phrases) : Prop where
  expression : parts.expression.Finds 1 [] Expr.nested
  statement : parts.statement.Finds 0 [] fun x => x :: x.nested

namespace Grammar

open Parse (Finds)

/-! ## Lists of phrases -/

section

variable {α : Type} {k : Nat} {w : α → List Stmt} {p : Parse α} (h : p.Finds k [] w)

include h

theorem phrasesToEnd_finds (ends : Kind → Bool) (n : Nat) (xs : List Stmt) :
    (phrasesToEnd p ends n).Finds 0 xs fun as => xs ++ as.flatMap w := by
  induction n generalizing xs with
  | zero => exact .tooDeep
  | succ n ih =>
    refine Finds.skipSemicolons.bind fun _ => .look fun t => .ite (.pure (by simp)) ?_
    exact (h.onto xs).soon.bind fun first => (ih _).bind fun rest => .pure (by simp)

theorem phrasesByComma_finds (n : Nat) (xs : List Stmt) :
    (phrasesByComma p n).Finds 0 xs fun as => xs ++ as.flatMap w := by
  induction n generalizing xs with
  | zero => exact .tooDeep
  | succ n ih =>
    refine (h.onto xs).soon.bind fun first => (Finds.accept _).bind fun more => ?_
    exact .ite ((ih _).bind fun rest => .pure (by simp)) (.pure (by simp))

theorem phrasesInLiteral_finds (closing : Kind) (between : Place) (n : Nat) (xs : List Stmt) :
    (phrasesInLiteral p closing between n).Finds 0 xs fun as => xs ++ as.flatMap w := by
  induction n generalizing xs with
  | zero => exact .tooDeep
  | succ n ih =>
    refine .look fun t => .ite (.pure (by simp)) ?_
    refine (h.onto xs).soon.bind fun first => .look fun next => ?_
    have rest : (phrasesInLiteral p closing between n >>= fun rest => Pure.pure (first :: rest)).Finds 0
        (xs ++ w first) fun as => xs ++ as.flatMap w :=
      (ih _).bind fun rest => .pure (by simp)
    exact .ite ((Finds.expect _ _).soon.bind fun _ => rest) rest

theorem untilParenthesis_finds (parts : Phrases) (place : Place) (xs : List Stmt) :
    (untilParenthesis parts p place).Finds 0 xs fun as => xs ++ as.flatMap w := by
  have close (items : List α) :
      (Parse.expect (.sign .rightParen) place >>= fun _ => Pure.pure items).Finds 0 (xs ++ items.flatMap w)
        fun as => xs ++ as.flatMap w :=
    (Finds.expect _ _).soon.bind fun _ => .pure rfl
  refine .look fun t => .ite ?_ ((phrasesByComma_finds h _ xs).bind close)
  exact (Finds.pure (w := fun as => xs ++ as.flatMap w) (by simp)).bind close

end

theorem operandsAfter_finds (operator? : Kind → Option Operator) {operand : Parse Expr}
    (h : operand.Finds 1 [] Expr.nested) (n : Nat) (left : Expr) :
    (operandsAfter operator? operand n left).Finds 0 left.nested Expr.nested := by
  induction n generalizing left with
  | zero => exact .tooDeep
  | succ n ih =>
    refine .look fun t => ?_
    cases operator? t.kind with
    | none => exact .pure rfl
    | some operator =>
      exact Finds.advance.soon.bind fun _ => (h.onto _).soon.bind fun right =>
        ih (.binary left.span left operator right)

variable {parts : Phrases} (h : parts.Find)

include h

/-! ## Declarations -/

theorem block_finds (place : Place) (xs : List Stmt) :
    (block parts place).Finds 0 xs fun body => xs ++ statementsIn body := by
  refine (Finds.expect _ _).soon.bind fun _ => (phrasesToEnd_finds h.statement _ _ xs).bind fun body => ?_
  exact (Finds.expect _ _).soon.bind fun _ => .pure (by rw [statementsIn_eq])

theorem variableDeclaration_finds (visibility : Option Visibility) :
    (variableDeclaration parts visibility).Finds 1 [] VariableDeclaration.nested := by
  refine Finds.advance.bind fun first => (Finds.expectName _).soon.bind fun name => ?_
  refine .look fun t => .ite (.ite (.invalid _ _) (.pure rfl)) ?_
  exact (Finds.expect _ _).soon.bind fun _ => h.expression.soon.bind fun value => .pure rfl

omit h in
theorem parameter_finds : parameter.Finds 0 [] fun _ => [] :=
  .look fun _ => .ite (Finds.advance.soon.bind fun _ => .pure rfl) (.invalid _ _)

theorem functionDeclaration_finds (visibility : Option Visibility) :
    (functionDeclaration parts visibility).Finds 1 [] FunctionDeclaration.nested := by
  refine .look fun first => (Finds.accept _).after fun isAsync => ?_
  refine (Finds.expect _ _).bind fun _ => .look fun t => ?_
  have rest (name : Option String) :
      (if name.isNone && visibility.isSome then Parse.invalid first.span .anonymousMember
       else do
        let _ ← Parse.expect (.sign .leftParen) .parametersStart
        let parameters ← untilParenthesis parts parameter .parametersEnd
        let body ← block parts .functionBodyStart
        return (⟨name, parameters, body, isAsync, visibility⟩ : FunctionDeclaration)).Finds 0 []
        FunctionDeclaration.nested := by
    refine .ite (.invalid _ _) ((Finds.expect _ _).soon.bind fun _ => ?_)
    refine (untilParenthesis_finds parameter_finds parts _ []).bind fun parameters => ?_
    have none : ([] ++ parameters.flatMap fun _ => ([] : List Stmt)) = [] := by simp
    rw [none]
    exact (block_finds h _ []).bind fun body => .pure rfl
  exact .ite (Finds.advance.soon.bind fun _ => (Finds.pure (w := fun _ => []) rfl).bind rest)
    ((Finds.pure (w := fun _ => []) rfl).bind rest)

omit h in
theorem visibilityMark_finds : visibilityMark.Finds 0 [] fun _ => [] := by
  refine .look fun t => ?_
  split
  case h_1 | h_2 => exact Finds.advance.soon.bind fun _ => .pure rfl
  case h_3 => exact .pure rfl

theorem classMember_finds : (classMember parts).Finds 0 [] Member.nested := by
  refine .look fun first => visibilityMark_finds.bind fun visibility => .look fun t => ?_
  split
  case h_1 | h_2 =>
    refine (variableDeclaration_finds h visibility).soon.bind fun property => ?_
    cases visibility with
    | none => exact .invalid _ _
    | some visibility => exact (Finds.accept _).bind fun _ => .pure rfl
  case h_3 | h_4 =>
    refine (functionDeclaration_finds h visibility).soon.bind fun method => ?_
    cases method.name with
    | none => exact .invalid _ _
    | some name =>
      refine .ite (.invalid _ _) ?_
      cases visibility with
      | none => exact .ite (.pure rfl) (.invalid _ _)
      | some visibility => exact .pure rfl
  case h_5 => exact .invalid _ _

theorem classDeclaration_finds : (classDeclaration parts).Finds 1 [] ClassDeclaration.nested := by
  refine Finds.advance.bind fun _ => (Finds.expectName _).soon.bind fun name => ?_
  refine .look fun t => .ite (.invalid _ _) ((Finds.accept _).bind fun derived => ?_)
  have rest (superclass : Option String) :
      (do
        let _ ← Parse.expect (.sign .leftBrace) .classBodyStart
        let members ← phrasesToEnd (classMember parts) endsBody parts.bound
        let _ ← Parse.expect (.sign .rightBrace) .classBodyEnd
        return (⟨name, superclass, members⟩ : ClassDeclaration)).Finds 0 [] ClassDeclaration.nested := by
    refine (Finds.expect _ _).soon.bind fun _ => ?_
    refine (phrasesToEnd_finds (classMember_finds h) _ _ []).bind fun members => ?_
    exact (Finds.expect _ _).soon.bind fun _ => .pure (by rw [ClassDeclaration.nested, nestedInMembers_eq]; rfl)
  exact .ite (((Finds.expectName _).soon.map (v := fun _ => []) fun _ => rfl).bind rest)
    ((Finds.pure (w := fun _ => []) rfl).bind rest)

/-! ## Expressions -/

theorem arrayLiteral_finds (span : Span) : (arrayLiteral parts span).Finds 0 [] Expr.nested := by
  refine (phrasesInLiteral_finds h.expression _ _ _ []).bind fun elements => ?_
  exact (Finds.expect _ _).soon.bind fun _ => .pure (by rw [Expr.nested, nestedInExprs_eq]; rfl)

theorem property_finds : (property parts).Finds 0 [] Property.nested := by
  refine .look fun first => (Finds.expectName _).soon.bind fun key => (Finds.accept _).bind fun valued => ?_
  have value : (some <$> parts.expression).Finds 0 [] nestedInValue := h.expression.soon.map fun e => rfl
  exact .ite (value.bind fun value => .pure rfl)
    ((Finds.pure (w := nestedInValue) rfl).bind fun value => .pure rfl)

theorem objectLiteral_finds (span : Span) : (objectLiteral parts span).Finds 0 [] Expr.nested := by
  refine (phrasesInLiteral_finds (property_finds h) _ _ _ []).bind fun properties => ?_
  exact (Finds.expect _ _).soon.bind fun _ => .pure (by rw [Expr.nested, nestedInProperties_eq]; rfl)

theorem primary_finds : (primary parts).Finds 1 [] Expr.nested := by
  refine .look fun t => ?_
  split
  case h_1 | h_3 => exact Finds.advance.bind fun _ => .pure rfl
  case h_2 =>
    cases Number.read? t.value with
    | none => exact .invalid _ _
    | some x => exact Finds.advance.bind fun _ => .pure rfl
  case h_4 =>
    refine Finds.advance.bind fun _ => h.expression.soon.bind fun e => ?_
    exact (Finds.expect _ _).soon.bind fun _ => .pure rfl
  case h_5 => exact Finds.advance.bind fun _ => arrayLiteral_finds h _
  case h_6 => exact Finds.advance.bind fun _ => objectLiteral_finds h _
  case h_7 | h_8 | h_9 => exact .invalid _ _

theorem memberOf_finds (object : Expr) : (memberOf parts object).Finds 0 object.nested Expr.nested := by
  refine Finds.advance.soon.bind fun first => .ite ?_ ?_
  · refine (h.expression.onto _).soon.bind fun property => ?_
    exact (Finds.expect _ _).soon.bind fun _ => .pure rfl
  · exact (Finds.expect _ _).soon.bind fun t => .pure (List.append_nil _)

theorem arguments_finds (place : Place) (xs : List Stmt) :
    (arguments parts place).Finds 0 xs fun args => xs ++ nestedInExprs args := by
  simp only [nestedInExprs_eq]
  exact (Finds.expect _ _).soon.bind fun _ => untilParenthesis_finds h.expression parts _ xs

theorem callsAfter_finds (n : Nat) (e : Expr) : (callsAfter parts n e).Finds 0 e.nested Expr.nested := by
  induction n generalizing e with
  | zero => exact .tooDeep
  | succ n ih =>
    refine .look fun t => ?_
    split
    case h_1 => exact (arguments_finds h _ _).bind fun args => ih (.call e.span e args)
    case h_2 | h_3 => exact (memberOf_finds h e).bind ih
    case h_4 => exact .pure rfl

theorem membersAfter_finds (n : Nat) (e : Expr) : (membersAfter parts n e).Finds 0 e.nested Expr.nested := by
  induction n generalizing e with
  | zero => exact .tooDeep
  | succ n ih =>
    refine .look fun t => ?_
    split
    case h_1 | h_2 => exact (memberOf_finds h e).bind ih
    case h_3 => exact .pure rfl

theorem callChain_finds : (callChain parts).Finds 1 [] Expr.nested :=
  (primary_finds h).bind fun e => callsAfter_finds h _ e

theorem product_finds : (product parts).Finds 1 [] Expr.nested :=
  (callChain_finds h).bind fun e => operandsAfter_finds _ (callChain_finds h) _ e

theorem sum_finds : (sum parts).Finds 1 [] Expr.nested :=
  (product_finds h).bind fun e => operandsAfter_finds _ (product_finds h) _ e

theorem comparison_finds : (comparison parts).Finds 1 [] Expr.nested :=
  (sum_finds h).bind fun e => operandsAfter_finds _ (sum_finds h) _ e

theorem instantiation_finds : (instantiation parts).Finds 1 [] Expr.nested := by
  refine .look fun t => .ite ?_ (comparison_finds h)
  refine Finds.advance.bind fun _ => (primary_finds h).soon.bind fun first => ?_
  refine (membersAfter_finds h _ first).bind fun target => ?_
  exact (arguments_finds h _ _).bind fun args => .pure rfl

/-- In short form the target is held once, though it stands twice in what is given. -/
theorem assignmentTo_finds (target : Expr) : (assignmentTo parts target).Finds 0 target.nested Expr.nested := by
  refine .look fun t => ?_
  cases update? t.kind with
  | none => exact .pure rfl
  | some update =>
    refine .ite (Finds.advance.soon.bind fun _ => ?_) (.invalid _ _)
    cases update with
    | replace =>
      have assigned := h.expression.soon.thin fun value => Expr.nested_assign target.span target value
      exact assigned.bind fun value => .pure rfl
    | step operator =>
      refine .pure ?_
      rw [Expr.nested_assign_copied]
      exact List.append_nil _
    | combine operator =>
      exact ((instantiation_finds h).onto _).soon.bind fun right => .pure (Expr.nested_assign_copied _ _ _ _ _)

theorem expression_finds : (expression parts).Finds 1 [] Expr.nested := by
  refine .look fun t => ?_
  split
  case h_1 | h_2 => exact (functionDeclaration_finds h none).bind fun d => .pure rfl
  case h_3 => exact (instantiation_finds h).bind fun target => assignmentTo_finds h target

/-! ## Statements -/

theorem returnedValue_finds (span : Span) : (returnedValue parts span).Finds 0 [] Expr.nested := by
  refine .look fun t => ?_
  split
  case h_1 | h_2 | h_3 => exact .pure rfl
  case h_4 => exact h.expression.soon

theorem conditional_finds (word : Keyword) :
    (conditional parts word).Finds 0 [] fun r => r.1.nested ++ statementsIn r.2 := by
  refine (Finds.expect _ _).soon.bind fun _ => h.expression.soon.bind fun condition => ?_
  refine (Finds.expect _ _).soon.bind fun _ => ?_
  exact (block_finds h _ _).bind fun body => .pure rfl

theorem loopCounter_finds : (loopCounter parts).Finds 0 [] VariableDeclaration.nested := by
  refine .look fun t => ?_
  split
  case h_1 | h_2 =>
    exact (variableDeclaration_finds h none).soon.bind fun counter => .ite (.pure rfl) (.invalid _ _)
  case h_3 => exact .unexpected _ _

theorem loopIterator_finds (name : String) : (loopIterator parts name).Finds 0 [] Expr.nested := by
  refine (Finds.expect _ _).soon.bind fun t => ?_
  exact (assignmentTo_finds h (.identifier t.span t.value)).bind fun iterator => .ite (.pure rfl) (.invalid _ _)

theorem forLoop_finds : (forLoop parts).Finds 0 [] ForLoop.nested := by
  refine (Finds.expect _ _).soon.bind fun _ => (loopCounter_finds h).bind fun counter => ?_
  refine (Finds.expect _ _).soon.bind fun _ => (h.expression.onto _).soon.bind fun condition => ?_
  refine (Finds.expect _ _).soon.bind fun _ => ((loopIterator_finds h _).onto _).bind fun iterator => ?_
  refine (Finds.expect _ _).soon.bind fun _ => (block_finds h _ _).bind fun body => .pure ?_
  simp only [ForLoop.nested, List.append_assoc]

theorem bareStatement_finds : (bareStatement parts).Finds 1 [] Stmt.nested := by
  refine .look fun t => ?_
  split
  case h_1 | h_2 => exact (variableDeclaration_finds h none).map fun _ => rfl
  case h_3 | h_4 => exact (functionDeclaration_finds h none).map fun _ => rfl
  case h_5 => exact (classDeclaration_finds h).map fun _ => rfl
  case h_6 | h_7 => exact .invalid _ _
  case h_8 => exact Finds.advance.bind fun _ => (returnedValue_finds h _).map fun _ => rfl
  case h_9 => exact Finds.advance.bind fun _ => .pure rfl
  case h_10 | h_11 => exact Finds.advance.bind fun _ => (conditional_finds h _).bind fun _ => .pure rfl
  case h_12 => exact Finds.advance.bind fun _ => (forLoop_finds h).map fun _ => rfl
  case h_13 => exact (expression_finds h).map fun _ => rfl

theorem statement_finds : (statement parts).Finds 1 [] Stmt.nested :=
  (bareStatement_finds h).bind fun _ => (Finds.accept _).bind fun _ => .pure rfl

/-! ### The first token of a statement -/

omit h in
/-- No expression begins at the end. -/
theorem expression_begins {s t : TokenStream} {e : Expr} (read : expression parts s = .ok (e, t)) :
    s.peek.kind ≠ .eof := by
  intro eof
  unfold expression at read
  rw [Parse.peek_bind] at read
  simp only [eof] at read
  obtain ⟨target, u, first, -⟩ := Parse.bind_eq_ok.1 read
  have begins : s.peek.kind.begins 1 := levelReader_begins (by decide) (by decide) first
  rw [eof] at begins
  cases begins

omit h in
/-- What is read as a statement has the span of the token that is looked at first. -/
theorem bareStatement_looks (parts : Phrases) : ∃ c : Token → Parse Stmt, bareStatement parts = Parse.peek >>= c ∧
    ∀ t, (c t).Gives fun x => x.span = t.span := by
  have anything {α : Type} (p : Parse α) : p.Gives fun _ => True := fun _ _ _ _ => trivial
  refine ⟨_, rfl, fun t => ?_⟩
  dsimp only
  split
  case h_1 | h_2 | h_3 | h_4 | h_5 | h_13 => exact (anything _).map fun _ _ => rfl
  case h_6 | h_7 => exact .invalid _ _
  case h_8 | h_12 => exact .after _ fun _ => (anything _).map fun _ _ => rfl
  case h_9 => exact .after _ fun _ => .pure rfl
  case h_10 | h_11 => exact .after _ fun _ => .after _ fun _ => .pure rfl

omit h in
/-- A statement begins with a token that is not the end, and has the span of that token. -/
theorem bareStatement_begins {s t : TokenStream} {x : Stmt} (read : bareStatement parts s = .ok (x, t)) :
    s.peek.kind ≠ .eof ∧ x.span = s.peek.span := by
  obtain ⟨c, looks, gives⟩ := bareStatement_looks parts
  refine ⟨fun eof => ?_, ?_⟩
  · unfold bareStatement at read
    rw [Parse.peek_bind] at read
    simp only [eof] at read
    obtain ⟨e, value, -⟩ := Parse.map_eq_ok.1 read
    exact expression_begins value eof
  · rw [looks] at read
    exact gives s.peek s x t read

omit h in
theorem statement_begins {s t : TokenStream} {x : Stmt} (read : statement parts s = .ok (x, t)) :
    s.peek.kind ≠ .eof ∧ x.span = s.peek.span := by
  obtain ⟨y, u, bare, rest⟩ := Parse.bind_eq_ok.1 read
  obtain ⟨_, v, -, given⟩ := Parse.bind_eq_ok.1 rest
  cases given
  exact bareStatement_begins bare

end Grammar

/-- The readers of bounded nesting find the statements in what they read. -/
theorem readers_find (n : Nat) :
    Parse.Finds 1 [] Expr.nested (readExpression n) ∧ Parse.Finds 0 [] (fun x => x :: x.nested) (readStatement n) := by
  induction n with
  | zero => exact ⟨.tooDeep, .tooDeep⟩
  | succ n ih =>
    have parts : Phrases.Find ⟨n + 1, readExpression n, readStatement n⟩ := ⟨ih.1, ih.2⟩
    refine ⟨Grammar.expression_finds parts, fun s x t read => ?_⟩
    -- the statement itself is found first, and what is in it behind its first token
    obtain ⟨more, first⟩ := Grammar.statement_begins read
    obtain ⟨ys, inside, found⟩ := Grammar.statement_finds parts s x t read
    rw [TokenStream.past_one, ← List.nil_append ys, ← inside] at found
    exact ⟨x :: x.nested, rfl, .next (.refl s) more first read found⟩

/-- The statements of a program are found on the way from its first token to the end. -/
theorem Program.statements_found {ts : List Token} {p : Program} (read : ofTokens? ts = .ok p) :
    ∃ t, Found (TokenStream.ofList ts) p.statements t := by
  have list (n : Nat) := Grammar.phrasesToEnd_finds (readers_find n).2 (· = .eof) n []
  obtain ⟨ys, inside, found⟩ := list _ _ _ _ (Program.reads_all read)
  have same : p.statements = ys := (statementsIn_eq p).trans inside
  exact ⟨_, same ▸ found⟩

end ScriptLang
