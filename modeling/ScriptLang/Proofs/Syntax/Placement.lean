/-
# ScriptLang.Proofs.Syntax.Placement — where tokens stand changes no reading.

To relocate something is to send every span in it through one function.  A reader takes spans from its
tokens to its trees and to its errors and looks at none of them, so reading relocated tokens is the same
as relocating what was read.  There is one lemma for each rule of the grammar, and the bound on nesting
carries them to whole programs.  Spans that are all sent to one place are spans that are forgotten: what
is left of a tree is its shape.
-/
import ScriptLang.Syntax.Grammar

namespace ScriptLang

/-! ## Relocation -/

/-- A token with its span sent through `f`. -/
def Token.relocate (f : Span → Span) (t : Token) : Token := { t with span := f t.span }

@[simp] theorem Token.relocate_kind (f : Span → Span) (t : Token) : (t.relocate f).kind = t.kind := rfl

@[simp] theorem Token.relocate_value (f : Span → Span) (t : Token) : (t.relocate f).value = t.value := rfl

@[simp] theorem Token.relocate_span (f : Span → Span) (t : Token) : (t.relocate f).span = f t.span := rfl

/-- An error with its span sent through `f`. -/
def ParseError.relocate (f : Span → Span) (e : ParseError) : ParseError := { e with span := f e.span }

@[inherit_doc Token.relocate]
def ScanError.relocate (f : Span → Span) (e : ScanError) : ScanError := { e with span := f e.span }

@[inherit_doc Token.relocate]
def Error.relocate (f : Span → Span) : Error → Error
  | .scan e => .scan (e.relocate f)
  | .parse e => .parse (e.relocate f)
  | .runtime s fault => .runtime (f s) fault

/-- A stream with every span sent through `f`. -/
def TokenStream.relocate (f : Span → Span) (s : TokenStream) : TokenStream :=
  ⟨s.tokens.map (Token.relocate f), s.eof.relocate f⟩

mutual

/-- An expression with every span sent through `f`. -/
def Expr.relocate (f : Span → Span) : Expr → Expr
  | .identifier s name => .identifier (f s) name
  | .number s x => .number (f s) x
  | .string s text => .string (f s) text
  | .null s => .null (f s)
  | .object s ps => .object (f s) (relocateProperties f ps)
  | .array s es => .array (f s) (relocateExprs f es)
  | .binary s left operator right => .binary (f s) (left.relocate f) operator (right.relocate f)
  | .assign s target value => .assign (f s) (target.relocate f) (value.relocate f)
  | .member s object property computed =>
    .member (f s) (object.relocate f) (property.relocate f) computed
  | .call s callee arguments => .call (f s) (callee.relocate f) (relocateExprs f arguments)
  | .function s d => .function (f s) (d.relocate f)
  | .instantiate s target arguments => .instantiate (f s) (target.relocate f) (relocateExprs f arguments)

/-- Expressions with every span sent through `f`. -/
def relocateExprs (f : Span → Span) : List Expr → List Expr
  | [] => []
  | e :: rest => e.relocate f :: relocateExprs f rest

/-- A value that may be left out, with every span sent through `f`. -/
def relocateValue (f : Span → Span) : Option Expr → Option Expr
  | none => none
  | some e => some (e.relocate f)

/-- An entry of an object literal with every span sent through `f`. -/
def Property.relocate (f : Span → Span) : Property → Property
  | ⟨key, value, s⟩ => ⟨key, relocateValue f value, f s⟩

/-- Entries of an object literal with every span sent through `f`. -/
def relocateProperties (f : Span → Span) : List Property → List Property
  | [] => []
  | p :: rest => p.relocate f :: relocateProperties f rest

/-- A declaration of a variable with every span sent through `f`. -/
def VariableDeclaration.relocate (f : Span → Span) : VariableDeclaration → VariableDeclaration
  | ⟨name, constant, value, visibility⟩ => ⟨name, constant, relocateValue f value, visibility⟩

/-- A declaration of a function with every span sent through `f`. -/
def FunctionDeclaration.relocate (f : Span → Span) : FunctionDeclaration → FunctionDeclaration
  | ⟨name, parameters, body, isAsync, visibility⟩ =>
    ⟨name, parameters, relocateStmts f body, isAsync, visibility⟩

/-- A statement with every span sent through `f`. -/
def Stmt.relocate (f : Span → Span) : Stmt → Stmt
  | .variableDeclaration s d => .variableDeclaration (f s) (d.relocate f)
  | .functionDeclaration s d => .functionDeclaration (f s) (d.relocate f)
  | .classDeclaration s d => .classDeclaration (f s) (d.relocate f)
  | .ifBlock s condition body => .ifBlock (f s) (condition.relocate f) (relocateStmts f body)
  | .whileLoop s condition body => .whileLoop (f s) (condition.relocate f) (relocateStmts f body)
  | .forLoop s loop => .forLoop (f s) (loop.relocate f)
  | .breakLoop s => .breakLoop (f s)
  | .returnValue s value => .returnValue (f s) (value.relocate f)
  | .expression s value => .expression (f s) (value.relocate f)

/-- Statements with every span sent through `f`. -/
def relocateStmts (f : Span → Span) : List Stmt → List Stmt
  | [] => []
  | s :: rest => s.relocate f :: relocateStmts f rest

/-- A loop over a counter with every span sent through `f`. -/
def ForLoop.relocate (f : Span → Span) : ForLoop → ForLoop
  | ⟨counter, condition, iterator, body⟩ =>
    ⟨counter.relocate f, condition.relocate f, iterator.relocate f, relocateStmts f body⟩

/-- A class with every span sent through `f`. -/
def ClassDeclaration.relocate (f : Span → Span) : ClassDeclaration → ClassDeclaration
  | ⟨name, superclass, members⟩ => ⟨name, superclass, relocateMembers f members⟩

/-- A member of a class with every span sent through `f`. -/
def Member.relocate (f : Span → Span) : Member → Member
  | .property visibility d => .property visibility (d.relocate f)
  | .method visibility d => .method visibility (d.relocate f)

/-- Members of a class with every span sent through `f`. -/
def relocateMembers (f : Span → Span) : List Member → List Member
  | [] => []
  | m :: rest => m.relocate f :: relocateMembers f rest

end

section

variable (f : Span → Span)

@[simp] theorem relocateExprs_eq_map (es : List Expr) :
    relocateExprs f es = es.map (Expr.relocate f) := by
  induction es with
  | nil => rfl
  | cons e rest ih => rw [relocateExprs, ih, List.map_cons]

@[simp] theorem relocateProperties_eq_map (ps : List Property) :
    relocateProperties f ps = ps.map (Property.relocate f) := by
  induction ps with
  | nil => rfl
  | cons p rest ih => rw [relocateProperties, ih, List.map_cons]

@[simp] theorem relocateStmts_eq_map (ss : List Stmt) :
    relocateStmts f ss = ss.map (Stmt.relocate f) := by
  induction ss with
  | nil => rfl
  | cons s rest ih => rw [relocateStmts, ih, List.map_cons]

@[simp] theorem relocateMembers_eq_map (ms : List Member) :
    relocateMembers f ms = ms.map (Member.relocate f) := by
  induction ms with
  | nil => rfl
  | cons m rest ih => rw [relocateMembers, ih, List.map_cons]

@[simp] theorem relocateValue_eq_map (value : Option Expr) :
    relocateValue f value = value.map (Expr.relocate f) := by
  cases value <;> rfl

@[simp] theorem Expr.relocate_span (e : Expr) : (e.relocate f).span = f e.span := by
  cases e <;> rfl

@[simp] theorem FunctionDeclaration.relocate_name (d : FunctionDeclaration) :
    (d.relocate f).name = d.name := by
  cases d
  rfl

@[simp] theorem VariableDeclaration.relocate_name (d : VariableDeclaration) :
    (d.relocate f).name = d.name := by
  cases d
  rfl

/-! ## Questions about trees that no span answers -/

mutual

theorem Stmt.relocate_returns (s : Stmt) : (s.relocate f).returns = s.returns := by
  cases s with
  | ifBlock _ _ body => exact returnsIn_relocate body
  | whileLoop _ _ body => exact returnsIn_relocate body
  | forLoop _ loop =>
    obtain ⟨_, _, _, body⟩ := loop
    exact returnsIn_relocate body
  | _ => rfl

theorem returnsIn_relocate (body : List Stmt) : returnsIn (relocateStmts f body) = returnsIn body := by
  cases body with
  | nil => rfl
  | cons s rest => rw [relocateStmts, returnsIn, returnsIn, s.relocate_returns, returnsIn_relocate rest]

end

@[simp] theorem FunctionDeclaration.relocate_returns (d : FunctionDeclaration) :
    returnsIn (d.relocate f).body = returnsIn d.body := by
  cases d
  exact returnsIn_relocate f _

namespace Grammar

@[simp] theorem isTarget_relocate (e : Expr) : isTarget (e.relocate f) = isTarget e := by
  cases e <;> rfl

@[simp] theorem startsAtNumber_relocate (d : VariableDeclaration) :
    startsAtNumber (d.relocate f) = startsAtNumber d := by
  obtain ⟨name, constant, value, visibility⟩ := d
  rcases value with _ | e
  · rfl
  · cases e <;> rfl

@[simp] theorem steps_relocate (name : String) (e : Expr) : steps name (e.relocate f) = steps name e := by
  cases e with
  | assign _ target value => cases target <;> rfl
  | _ => rfl

end Grammar

end

/-! ## Streams -/

namespace TokenStream

variable (f : Span → Span) (s : TokenStream)

@[simp] theorem relocate_peek : (s.relocate f).peek = s.peek.relocate f := by
  obtain ⟨_ | ⟨t, rest⟩, eof⟩ := s <;> rfl

@[simp] theorem relocate_next : (s.relocate f).next = s.next.relocate f := by
  obtain ⟨_ | ⟨t, rest⟩, eof⟩ := s <;> rfl

@[simp] theorem relocate_dropSemicolons :
    (s.relocate f).dropSemicolons = s.dropSemicolons.relocate f := by
  obtain ⟨tokens, eof⟩ := s
  simp only [relocate, dropSemicolons, List.dropWhile_map]
  rfl

end TokenStream

/-! ## Readers -/

/-- The result of a reader with every span sent through `f`, and through `g` where it is part of what was
read. -/
def relocateResult {α β : Type} (f : Span → Span) (g : α → β) :
    Except ParseError (α × TokenStream) → Except ParseError (β × TokenStream)
  | .ok (a, s) => .ok (g a, s.relocate f)
  | .error e => .error (e.relocate f)

namespace Parse

variable {α β γ δ : Type} {f : Span → Span}

/-- On relocated tokens the reader `q` reads the relocation of what `p` reads. -/
def Relocates (f : Span → Span) (g : α → β) (p : Parse α) (q : Parse β) : Prop :=
  ∀ s, q (s.relocate f) = relocateResult f g (p s)

namespace Relocates

theorem pure {g : α → β} {a : α} {b : β} (h : g a = b) :
    Relocates f g (Pure.pure a) (Pure.pure b) := by
  subst h
  exact fun _ => rfl

theorem bind {g : α → β} {g' : γ → δ} {p : Parse α} {q : Parse β} {c : α → Parse γ} {d : β → Parse δ}
    (h : Relocates f g p q) (k : ∀ a, Relocates f g' (c a) (d (g a))) :
    Relocates f g' (p >>= c) (q >>= d) := by
  intro s
  rw [bind_run, bind_run, h s]
  rcases p s with e | ⟨a, t⟩
  · rfl
  · exact k a t

theorem map {g : α → β} {g' : γ → δ} {p : Parse α} {q : Parse β} {c : α → γ} {d : β → δ}
    (h : Relocates f g p q) (k : ∀ a, g' (c a) = d (g a)) : Relocates f g' (c <$> p) (d <$> q) := by
  intro s
  rw [map_run, map_run, h s]
  rcases p s with e | ⟨a, t⟩
  · rfl
  · simp only [relocateResult, k a]

theorem peek : Relocates f (Token.relocate f) Parse.peek Parse.peek := by
  intro s
  simp only [Parse.peek, relocateResult, TokenStream.relocate_peek]

theorem advance : Relocates f (Token.relocate f) Parse.advance Parse.advance := by
  intro s
  simp only [Parse.advance, relocateResult, TokenStream.relocate_peek, TokenStream.relocate_next]

theorem skipSemicolons : Relocates f id Parse.skipSemicolons Parse.skipSemicolons := by
  intro s
  simp only [Parse.skipSemicolons, relocateResult, TokenStream.relocate_dropSemicolons, id]

theorem invalid {g : α → β} {span span' : Span} (breach : RuleBreach) (h : f span = span') :
    Relocates f g (Parse.invalid span breach) (Parse.invalid span' breach) := by
  subst h
  exact fun _ => rfl

theorem unexpected {g : α → β} (expected : Kind) (place : Place) :
    Relocates f g (Parse.unexpected expected place) (Parse.unexpected expected place) := by
  intro s
  simp only [Parse.unexpected, relocateResult, TokenStream.relocate_peek]
  rfl

theorem tooDeep {g : α → β} : Relocates f g Parse.tooDeep Parse.tooDeep := by
  intro s
  simp only [Parse.tooDeep, relocateResult, TokenStream.relocate_peek]
  rfl

theorem accept (kind : Kind) : Relocates f id (Parse.accept kind) (Parse.accept kind) := by
  intro s
  simp only [Parse.accept, TokenStream.relocate_peek, TokenStream.relocate_next, Token.relocate_kind]
  split <;> rfl

theorem expect (kind : Kind) (place : Place) :
    Relocates f (Token.relocate f) (Parse.expect kind place) (Parse.expect kind place) := by
  intro s
  simp only [Parse.expect, TokenStream.relocate_peek, TokenStream.relocate_next, Token.relocate_kind]
  split <;> rfl

theorem expectName (place : Place) : Relocates f id (Parse.expectName place) (Parse.expectName place) :=
  (expect .identifier place).bind fun _ => pure rfl

theorem ite {g : α → β} {c : Prop} [Decidable c] {p p' : Parse α} {q q' : Parse β}
    (h : c → Relocates f g p q) (h' : ¬c → Relocates f g p' q') :
    Relocates f g (if c then p else p') (if c then q else q') := by
  split
  · exact h ‹_›
  · exact h' ‹_›

end Relocates

end Parse

/-! ## Lists of phrases -/

namespace Grammar

open Parse (Relocates)

section

variable {α β : Type} {f : Span → Span} {g : α → β} {p : Parse α} {q : Parse β}

theorem phrasesToEnd_relocates (h : Relocates f g p q) (ends : Kind → Bool) (n : Nat) :
    Relocates f (List.map g) (phrasesToEnd p ends n) (phrasesToEnd q ends n) := by
  induction n with
  | zero => exact .tooDeep
  | succ n ih =>
    refine Relocates.skipSemicolons.bind fun _ => Relocates.peek.bind fun t => ?_
    refine .ite (fun _ => .pure rfl) fun _ => ?_
    exact h.bind fun first => ih.bind fun rest => .pure rfl

theorem phrasesByComma_relocates (h : Relocates f g p q) (n : Nat) :
    Relocates f (List.map g) (phrasesByComma p n) (phrasesByComma q n) := by
  induction n with
  | zero => exact .tooDeep
  | succ n ih =>
    refine h.bind fun first => (Relocates.accept _).bind fun more => ?_
    exact .ite (fun _ => ih.bind fun rest => .pure rfl) fun _ => .pure rfl

theorem phrasesInLiteral_relocates (h : Relocates f g p q) (closing : Kind) (between : Place) (n : Nat) :
    Relocates f (List.map g) (phrasesInLiteral p closing between n)
      (phrasesInLiteral q closing between n) := by
  induction n with
  | zero => exact .tooDeep
  | succ n ih =>
    refine Relocates.peek.bind fun t => .ite (fun _ => .pure rfl) fun _ => ?_
    refine h.bind fun first => Relocates.peek.bind fun after => ?_
    -- a phrase at the closing sign needs no comma
    refine .ite (fun _ => ?_) fun _ => ?_
    · exact (Relocates.expect _ _).bind fun _ => ih.bind fun rest => .pure rfl
    · exact ih.bind fun rest => .pure rfl

end

theorem operandsAfter_relocates {f : Span → Span} {operand : Parse Expr}
    (h : Relocates f (Expr.relocate f) operand operand) (operator? : Kind → Option Operator) (n : Nat)
    (left : Expr) :
    Relocates f (Expr.relocate f) (operandsAfter operator? operand n left)
      (operandsAfter operator? operand n (left.relocate f)) := by
  induction n generalizing left with
  | zero => exact .tooDeep
  | succ n ih =>
    refine Relocates.peek.bind fun t => ?_
    rw [Token.relocate_kind]
    cases operator? t.kind with
    | none => exact .pure rfl
    | some operator =>
      refine Relocates.advance.bind fun _ => h.bind fun right => ?_
      have next := ih (.binary left.span left operator right)
      rw [Expr.relocate, ← Expr.relocate_span f left] at next
      exact next

end Grammar

/-- The readers of the two phrases that contain themselves read relocations. -/
structure Phrases.Relocates (f : Span → Span) (parts : Phrases) : Prop where
  expression : Parse.Relocates f (Expr.relocate f) parts.expression parts.expression
  statement : Parse.Relocates f (Stmt.relocate f) parts.statement parts.statement

namespace Grammar

open Parse (Relocates)

variable {f : Span → Span} {parts : Phrases} (h : parts.Relocates f)

include h

/-! ## Declarations -/

theorem block_relocates (place : Place) :
    Relocates f (List.map (Stmt.relocate f)) (block parts place) (block parts place) := by
  refine (Relocates.expect _ _).bind fun _ => ?_
  refine (phrasesToEnd_relocates h.statement _ _).bind fun body => ?_
  exact (Relocates.expect _ _).bind fun _ => .pure rfl

theorem variableDeclaration_relocates (visibility : Option Visibility) :
    Relocates f (VariableDeclaration.relocate f) (variableDeclaration parts visibility)
      (variableDeclaration parts visibility) := by
  refine Relocates.advance.bind fun first => (Relocates.expectName _).bind fun name => ?_
  refine Relocates.peek.bind fun t => .ite (fun _ => ?_) fun _ => ?_
  · exact .ite (fun _ => .invalid _ rfl) fun _ => .pure rfl
  · refine (Relocates.expect _ _).bind fun _ => h.expression.bind fun value => ?_
    exact .pure rfl

omit h in
theorem parameter_relocates : Relocates f id parameter parameter := by
  refine Relocates.peek.bind fun t => .ite (fun _ => ?_) fun _ => .invalid _ rfl
  exact Relocates.advance.bind fun _ => .pure rfl

omit h in
theorem untilParenthesis_relocates {α β : Type} {g : α → β} {p : Parse α} {q : Parse β}
    (hp : Relocates f g p q) (place : Place) :
    Relocates f (List.map g) (untilParenthesis parts p place) (untilParenthesis parts q place) := by
  have close (items : List α) : Relocates f (List.map g)
      (Parse.expect (.sign .rightParen) place >>= fun _ => pure items)
      (Parse.expect (.sign .rightParen) place >>= fun _ => pure (items.map g)) :=
    (Relocates.expect _ _).bind fun _ => .pure rfl
  refine Relocates.peek.bind fun t => .ite (fun _ => ?_) fun _ => ?_
  · exact Relocates.bind (.pure rfl) close
  · exact (phrasesByComma_relocates hp _).bind close

theorem functionDeclaration_relocates (visibility : Option Visibility) :
    Relocates f (FunctionDeclaration.relocate f) (functionDeclaration parts visibility)
      (functionDeclaration parts visibility) := by
  refine Relocates.peek.bind fun first => (Relocates.accept _).bind fun isAsync => ?_
  refine (Relocates.expect _ _).bind fun _ => Relocates.peek.bind fun t => ?_
  refine .ite (fun _ => Relocates.advance.bind fun _ => Relocates.bind (g := id) (.pure rfl) fun name => ?_)
    fun _ => Relocates.bind (g := id) (.pure rfl) fun name => ?_
  -- with a name or without one, the rest is read in the same way
  all_goals
    refine .ite (fun _ => .invalid _ rfl) fun _ => ?_
    refine (Relocates.expect _ _).bind fun _ => ?_
    refine (untilParenthesis_relocates parameter_relocates _).bind fun parameters => ?_
    refine (block_relocates h _).bind fun body => .pure ?_
    simp only [FunctionDeclaration.relocate, relocateStmts_eq_map, List.map_id, id]

omit h in
theorem visibilityMark_relocates : Relocates f id visibilityMark visibilityMark := by
  refine Relocates.peek.bind fun t => ?_
  simp only [Token.relocate_kind]
  split
  · exact Relocates.advance.bind fun _ => .pure rfl
  · exact Relocates.advance.bind fun _ => .pure rfl
  · exact .pure rfl

theorem classMember_relocates :
    Relocates f (Member.relocate f) (classMember parts) (classMember parts) := by
  refine Relocates.peek.bind fun first => visibilityMark_relocates.bind fun visibility => ?_
  refine Relocates.peek.bind fun t => ?_
  simp only [Token.relocate_kind, id]
  split
  case h_1 | h_2 =>
    refine (variableDeclaration_relocates h _).bind fun property => ?_
    rw [VariableDeclaration.relocate_name]
    cases visibility with
    | none => exact .invalid _ rfl
    | some visibility => exact (Relocates.accept _).bind fun _ => .pure rfl
  case h_3 | h_4 =>
    refine (functionDeclaration_relocates h _).bind fun method => ?_
    rw [FunctionDeclaration.relocate_name, FunctionDeclaration.relocate_returns]
    cases method.name with
    | none => exact .invalid _ rfl
    | some name =>
      refine .ite (fun _ => .invalid _ rfl) fun _ => ?_
      cases visibility with
      | none => exact .ite (fun _ => .pure rfl) fun _ => .invalid _ rfl
      | some visibility => exact .pure rfl
  case h_5 => exact .invalid _ rfl

theorem classDeclaration_relocates :
    Relocates f (ClassDeclaration.relocate f) (classDeclaration parts) (classDeclaration parts) := by
  refine Relocates.advance.bind fun _ => (Relocates.expectName _).bind fun name => ?_
  refine Relocates.peek.bind fun t => .ite (fun _ => .invalid _ rfl) fun _ => ?_
  have superclass : Relocates f id
      (some <$> Parse.expectName (.after (.keyword .extendsWord)))
      (some <$> Parse.expectName (.after (.keyword .extendsWord))) :=
    (Relocates.expectName _).map fun _ => rfl
  refine (Relocates.accept _).bind fun derived => .ite (fun _ => superclass.bind fun superclass => ?_)
    fun _ => Relocates.bind (g := id) (.pure rfl) fun superclass => ?_
  -- with a superclass or without one, the body is read in the same way
  all_goals
    refine (Relocates.expect _ _).bind fun _ => ?_
    refine (phrasesToEnd_relocates (classMember_relocates h) _ _).bind fun members => ?_
    refine (Relocates.expect _ _).bind fun _ => .pure ?_
    simp only [ClassDeclaration.relocate, relocateMembers_eq_map, id]

/-! ## Expressions -/

theorem arrayLiteral_relocates (span : Span) :
    Relocates f (Expr.relocate f) (arrayLiteral parts span) (arrayLiteral parts (f span)) := by
  refine (phrasesInLiteral_relocates h.expression _ _ _).bind fun elements => ?_
  refine (Relocates.expect _ _).bind fun _ => .pure ?_
  simp only [Expr.relocate, relocateExprs_eq_map]

theorem property_relocates :
    Relocates f (Property.relocate f) (property parts) (property parts) := by
  refine Relocates.peek.bind fun first => (Relocates.expectName _).bind fun key => ?_
  have value : Relocates f (Option.map (Expr.relocate f)) (some <$> parts.expression)
      (some <$> parts.expression) :=
    h.expression.map fun _ => rfl
  refine (Relocates.accept _).bind fun valued => .ite (fun _ => value.bind fun value => .pure ?_)
    fun _ => Relocates.bind (g := Option.map (Expr.relocate f)) (.pure rfl) fun value => .pure ?_
  all_goals simp only [Property.relocate, relocateValue_eq_map, id, Token.relocate_span]

theorem objectLiteral_relocates (span : Span) :
    Relocates f (Expr.relocate f) (objectLiteral parts span) (objectLiteral parts (f span)) := by
  refine (phrasesInLiteral_relocates (property_relocates h) _ _ _).bind fun properties => ?_
  refine (Relocates.expect _ _).bind fun _ => .pure ?_
  simp only [Expr.relocate, relocateProperties_eq_map]

theorem primary_relocates : Relocates f (Expr.relocate f) (primary parts) (primary parts) := by
  refine Relocates.peek.bind fun t => ?_
  simp only [Token.relocate_kind, Token.relocate_value, Token.relocate_span]
  split
  case h_1 => exact Relocates.advance.bind fun _ => .pure rfl
  case h_2 =>
    cases Number.read? t.value with
    | none => exact .invalid _ rfl
    | some x => exact Relocates.advance.bind fun _ => .pure rfl
  case h_3 => exact Relocates.advance.bind fun _ => .pure rfl
  case h_4 =>
    refine Relocates.advance.bind fun _ => h.expression.bind fun e => ?_
    exact (Relocates.expect _ _).bind fun _ => .pure rfl
  case h_5 => exact Relocates.advance.bind fun _ => arrayLiteral_relocates h _
  case h_6 => exact Relocates.advance.bind fun _ => objectLiteral_relocates h _
  case h_7 | h_8 | h_9 => exact .invalid _ rfl

theorem memberOf_relocates (object : Expr) :
    Relocates f (Expr.relocate f) (memberOf parts object) (memberOf parts (object.relocate f)) := by
  refine Relocates.advance.bind fun first => .ite (fun _ => ?_) fun _ => ?_
  · refine h.expression.bind fun property => (Relocates.expect _ _).bind fun _ => .pure ?_
    rw [Expr.relocate, Expr.relocate_span]
  · refine (Relocates.expect _ _).bind fun t => .pure ?_
    rw [Expr.relocate, Expr.relocate, Expr.relocate_span]
    rfl

theorem arguments_relocates (place : Place) :
    Relocates f (List.map (Expr.relocate f)) (arguments parts place) (arguments parts place) :=
  (Relocates.expect _ _).bind fun _ => untilParenthesis_relocates h.expression _

theorem callsAfter_relocates (n : Nat) (e : Expr) :
    Relocates f (Expr.relocate f) (callsAfter parts n e) (callsAfter parts n (e.relocate f)) := by
  induction n generalizing e with
  | zero => exact .tooDeep
  | succ n ih =>
    refine Relocates.peek.bind fun t => ?_
    simp only [Token.relocate_kind]
    split
    case h_1 =>
      refine (arguments_relocates h _).bind fun args => ?_
      have next := ih (.call e.span e args)
      rw [Expr.relocate, relocateExprs_eq_map, ← Expr.relocate_span f e] at next
      exact next
    case h_2 | h_3 => exact (memberOf_relocates h e).bind ih
    case h_4 => exact .pure rfl

theorem membersAfter_relocates (n : Nat) (e : Expr) :
    Relocates f (Expr.relocate f) (membersAfter parts n e) (membersAfter parts n (e.relocate f)) := by
  induction n generalizing e with
  | zero => exact .tooDeep
  | succ n ih =>
    refine Relocates.peek.bind fun t => ?_
    simp only [Token.relocate_kind]
    split
    case h_1 | h_2 => exact (memberOf_relocates h e).bind ih
    case h_3 => exact .pure rfl

theorem callChain_relocates : Relocates f (Expr.relocate f) (callChain parts) (callChain parts) :=
  (primary_relocates h).bind fun e => callsAfter_relocates h _ e

theorem product_relocates : Relocates f (Expr.relocate f) (product parts) (product parts) :=
  (callChain_relocates h).bind fun e => operandsAfter_relocates (callChain_relocates h) _ _ e

theorem sum_relocates : Relocates f (Expr.relocate f) (sum parts) (sum parts) :=
  (product_relocates h).bind fun e => operandsAfter_relocates (product_relocates h) _ _ e

theorem comparison_relocates : Relocates f (Expr.relocate f) (comparison parts) (comparison parts) :=
  (sum_relocates h).bind fun e => operandsAfter_relocates (sum_relocates h) _ _ e

theorem instantiation_relocates :
    Relocates f (Expr.relocate f) (instantiation parts) (instantiation parts) := by
  refine Relocates.peek.bind fun t => .ite (fun _ => ?_) fun _ => comparison_relocates h
  refine Relocates.advance.bind fun _ => (primary_relocates h).bind fun first => ?_
  refine (membersAfter_relocates h _ first).bind fun target => ?_
  refine (arguments_relocates h _).bind fun args => .pure ?_
  rw [Expr.relocate, relocateExprs_eq_map]
  rfl

theorem assignmentTo_relocates (target : Expr) :
    Relocates f (Expr.relocate f) (assignmentTo parts target)
      (assignmentTo parts (target.relocate f)) := by
  refine Relocates.peek.bind fun t => ?_
  rw [Token.relocate_kind]
  cases update? t.kind with
  | none => exact .pure rfl
  | some update =>
    simp only [isTarget_relocate, Expr.relocate_span]
    refine .ite (fun _ => Relocates.advance.bind fun _ => ?_) fun _ => .invalid _ rfl
    have assign (value : Expr) : Relocates f (Expr.relocate f)
        (pure (.assign target.span target value))
        (pure (.assign (f target.span) (target.relocate f) (value.relocate f))) :=
      .pure rfl
    cases update with
    | replace => exact h.expression.bind assign
    | step operator => exact Relocates.bind (.pure rfl) assign
    | combine operator =>
      exact (instantiation_relocates h).bind fun right => Relocates.bind (.pure rfl) assign

theorem expression_relocates : Relocates f (Expr.relocate f) (expression parts) (expression parts) := by
  refine Relocates.peek.bind fun t => ?_
  simp only [Token.relocate_kind]
  split
  case h_1 | h_2 => exact (functionDeclaration_relocates h none).bind fun d => .pure rfl
  case h_3 => exact (instantiation_relocates h).bind fun target => assignmentTo_relocates h target

/-! ## Statements -/

theorem returnedValue_relocates (span : Span) :
    Relocates f (Expr.relocate f) (returnedValue parts span) (returnedValue parts (f span)) := by
  refine Relocates.peek.bind fun t => ?_
  simp only [Token.relocate_kind]
  split
  case h_1 | h_2 | h_3 => exact .pure rfl
  case h_4 => exact h.expression

theorem conditional_relocates (word : Keyword) :
    Relocates f (Prod.map (Expr.relocate f) (List.map (Stmt.relocate f))) (conditional parts word)
      (conditional parts word) := by
  refine (Relocates.expect _ _).bind fun _ => h.expression.bind fun condition => ?_
  refine (Relocates.expect _ _).bind fun _ => ?_
  exact (block_relocates h _).bind fun body => .pure rfl

theorem loopCounter_relocates :
    Relocates f (VariableDeclaration.relocate f) (loopCounter parts) (loopCounter parts) := by
  refine Relocates.peek.bind fun t => ?_
  simp only [Token.relocate_kind]
  split
  case h_1 | h_2 =>
    refine (variableDeclaration_relocates h none).bind fun counter => ?_
    rw [startsAtNumber_relocate, VariableDeclaration.relocate_name]
    exact .ite (fun _ => .pure rfl) fun _ => .invalid _ rfl
  case h_3 => exact .unexpected _ _

theorem loopIterator_relocates (name : String) :
    Relocates f (Expr.relocate f) (loopIterator parts name) (loopIterator parts name) := by
  refine (Relocates.expect _ _).bind fun t => ?_
  refine (assignmentTo_relocates h (.identifier t.span t.value)).bind fun iterator => ?_
  rw [steps_relocate, Expr.relocate_span]
  exact .ite (fun _ => .pure rfl) fun _ => .invalid _ rfl

theorem forLoop_relocates : Relocates f (ForLoop.relocate f) (forLoop parts) (forLoop parts) := by
  refine (Relocates.expect _ _).bind fun _ => (loopCounter_relocates h).bind fun counter => ?_
  refine (Relocates.expect _ _).bind fun _ => h.expression.bind fun condition => ?_
  rw [VariableDeclaration.relocate_name]
  refine (Relocates.expect _ _).bind fun _ => (loopIterator_relocates h _).bind fun iterator => ?_
  refine (Relocates.expect _ _).bind fun _ => (block_relocates h _).bind fun body => .pure ?_
  simp only [ForLoop.relocate, relocateStmts_eq_map]

theorem bareStatement_relocates :
    Relocates f (Stmt.relocate f) (bareStatement parts) (bareStatement parts) := by
  refine Relocates.peek.bind fun t => ?_
  simp only [Token.relocate_kind, Token.relocate_span]
  split
  case h_1 | h_2 => exact (variableDeclaration_relocates h none).map fun _ => rfl
  case h_3 | h_4 => exact (functionDeclaration_relocates h none).map fun _ => rfl
  case h_5 => exact (classDeclaration_relocates h).map fun _ => rfl
  case h_6 | h_7 => exact .invalid _ rfl
  case h_8 => exact Relocates.advance.bind fun _ => (returnedValue_relocates h _).map fun _ => rfl
  case h_9 => exact Relocates.advance.bind fun _ => .pure rfl
  case h_10 | h_11 =>
    refine Relocates.advance.bind fun _ => (conditional_relocates h _).bind fun parts => .pure ?_
    simp only [Stmt.relocate, relocateStmts_eq_map, Prod.map]
  case h_12 => exact Relocates.advance.bind fun _ => (forLoop_relocates h).map fun _ => rfl
  case h_13 => exact (expression_relocates h).map fun _ => rfl

theorem statement_relocates : Relocates f (Stmt.relocate f) (statement parts) (statement parts) :=
  (bareStatement_relocates h).bind fun _ => (Relocates.accept _).bind fun _ => .pure rfl

end Grammar

/-! ## Programs -/

/-- The readers of bounded nesting read relocations. -/
theorem readers_relocate (f : Span → Span) (n : Nat) :
    Parse.Relocates f (Expr.relocate f) (readExpression n) (readExpression n) ∧
      Parse.Relocates f (Stmt.relocate f) (readStatement n) (readStatement n) := by
  induction n with
  | zero => exact ⟨.tooDeep, .tooDeep⟩
  | succ n ih =>
    have parts : Phrases.Relocates f ⟨n + 1, readExpression n, readStatement n⟩ := ⟨ih.1, ih.2⟩
    exact ⟨Grammar.expression_relocates parts, Grammar.statement_relocates parts⟩

/-- A list of tokens and its stream are relocated together, but for the end token of an empty list, which
stands at the zero span. -/
theorem TokenStream.ofList_relocate {f : Span → Span} {ts : List Token}
    (h : ts = [] → f ⟨0, 0, 0⟩ = ⟨0, 0, 0⟩) :
    TokenStream.ofList (ts.map (Token.relocate f)) = (TokenStream.ofList ts).relocate f := by
  have kinds : (fun t : Token => decide (t.kind ≠ .eof)) ∘ Token.relocate f =
      fun t => decide (t.kind ≠ .eof) := rfl
  unfold TokenStream.ofList
  rw [List.dropWhile_map, List.takeWhile_map, kinds]
  cases ts.dropWhile (fun t => decide (t.kind ≠ .eof)) with
  | cons eof rest => rfl
  | nil =>
    -- the end token that is put there stands where the last token stands
    rw [List.map_nil, TokenStream.relocate, List.getLast?_map]
    cases last : ts.getLast? with
    | none => simp [Token.relocate, h (List.getLast?_eq_none_iff.1 last)]
    | some t => rfl

/-- Where tokens stand changes no reading: relocated tokens spell the relocation of what the tokens
spell, and fail where these fail. -/
theorem Program.ofTokens?_relocate_of {f : Span → Span} {ts : List Token}
    (h : ts = [] → f ⟨0, 0, 0⟩ = ⟨0, 0, 0⟩) :
    Program.ofTokens? (ts.map (Token.relocate f)) =
      match Program.ofTokens? ts with
      | .ok p => .ok (p.map (Stmt.relocate f))
      | .error e => .error (e.relocate f) := by
  unfold Program.ofTokens?
  rw [TokenStream.ofList_relocate h]
  generalize TokenStream.ofList ts = s
  have length : (s.relocate f).tokens.length = s.tokens.length := List.length_map _
  have read := Grammar.phrasesToEnd_relocates (readers_relocate f (s.tokens.length + 1)).2 (· = .eof)
    (s.tokens.length + 1) s
  simp only [length, read]
  rcases Grammar.phrasesToEnd (readStatement (s.tokens.length + 1)) (· = .eof) (s.tokens.length + 1) s
    with e | ⟨p, t⟩ <;> rfl

theorem Program.ofTokens?_relocate {f : Span → Span} (h : f ⟨0, 0, 0⟩ = ⟨0, 0, 0⟩) (ts : List Token) :
    Program.ofTokens? (ts.map (Token.relocate f)) =
      match Program.ofTokens? ts with
      | .ok p => .ok (p.map (Stmt.relocate f))
      | .error e => .error (e.relocate f) :=
  ofTokens?_relocate_of fun _ => h

/-! ## Only spans of tokens -/

/-- All spans can be sent to those of given tokens, with these left where they are. -/
theorem Token.exists_into_spans {ts : List Token} (some : ts ≠ []) :
    ∃ f : Span → Span, (∀ t ∈ ts, f t.span = t.span) ∧ ∀ s, ∃ t ∈ ts, t.span = f s := by
  obtain ⟨t, ht⟩ := List.exists_mem_of_ne_nil ts some
  refine ⟨fun s => if s ∈ ts.map Token.span then s else t.span, ?_, ?_⟩
  · intro t ht
    exact if_pos (List.mem_map_of_mem ht)
  · intro s
    by_cases found : s ∈ ts.map Token.span
    · obtain ⟨u, hu, same⟩ := List.mem_map.1 found
      exact ⟨u, hu, same.trans (if_pos found).symm⟩
    · exact ⟨t, ht, (if_neg found).symm⟩

/-- What tokens are read as has no spans but theirs: it stays as it is when all others are sent
elsewhere. -/
theorem Program.ofTokens?_eq_self {f : Span → Span} {ts : List Token} (some : ts ≠ [])
    (fixed : ∀ t ∈ ts, f t.span = t.span) :
    Program.ofTokens? ts =
      match Program.ofTokens? ts with
      | .ok p => .ok (p.map (Stmt.relocate f))
      | .error e => .error (e.relocate f) := by
  have tokens : ts.map (Token.relocate f) = ts := by
    refine (List.map_congr_left fun t ht => ?_).trans (List.map_id ts)
    simp only [Token.relocate, fixed t ht, id]
  have relocated := Program.ofTokens?_relocate_of (f := f) fun none => absurd none some
  rwa [tokens] at relocated

/-- An error of tokens has the span of one of them. -/
theorem Program.error_at_token {ts : List Token} (some : ts ≠ []) {e : ParseError}
    (h : Program.ofTokens? ts = .error e) : ∃ t ∈ ts, t.span = e.span := by
  obtain ⟨f, fixed, inside⟩ := Token.exists_into_spans some
  have same := Program.ofTokens?_eq_self some fixed
  rw [h] at same
  have there : e = e.relocate f := Except.error.inj same
  obtain ⟨t, ht, at_⟩ := inside e.span
  rw [there]
  exact ⟨t, ht, at_⟩

end ScriptLang
