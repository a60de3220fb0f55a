/-
# ScriptLang.Proofs.SourceOrder — the places in a tree are those of its source, in order.

Spans are handed from node to node while a source is read: an operation and a call take the one of their left
operand, parentheses leave none, what an assignment in short form puts into its value takes the one of the sign,
and a `return` without a value gives its own to what it returns.  Whatever the way, only spans of tokens are
handed on, since no reader makes one up.  A statement has the span of its first token; and the first tokens of
all statements come in the order in which a walk over the tree from left to right comes to the statements,
and so do their lines and columns.
-/
import ScriptLang.Proofs.Alike.Source
import ScriptLang.Proofs.Syntax.Found
import ScriptLang.Proofs.Token.Order

namespace ScriptLang

/-! ## The spans of a tree -/

mutual

/-- The spans in an expression, from left to right. -/
def Expr.spans : Expr → List Span
  | .identifier s _ | .number s _ | .string s _ | .null s => [s]
  | .object s properties => s :: spansOfProperties properties
  | .array s elements => s :: spansOfExprs elements
  | .binary s left _ right => s :: (left.spans ++ right.spans)
  | .assign s target value => s :: (target.spans ++ value.spans)
  | .member s object property _ => s :: (object.spans ++ property.spans)
  | .call s callee arguments => s :: (callee.spans ++ spansOfExprs arguments)
  | .function s d => s :: d.spans
  | .instantiate s target arguments => s :: (target.spans ++ spansOfExprs arguments)

@[inherit_doc Expr.spans]
def spansOfExprs : List Expr → List Span
  | [] => []
  | e :: rest => e.spans ++ spansOfExprs rest

@[inherit_doc Expr.spans]
def spansOfValue : Option Expr → List Span
  | none => []
  | some e => e.spans

@[inherit_doc Expr.spans]
def Property.spans : Property → List Span
  | ⟨_, value, s⟩ => s :: spansOfValue value

@[inherit_doc Expr.spans]
def spansOfProperties : List Property → List Span
  | [] => []
  | p :: rest => p.spans ++ spansOfProperties rest

@[inherit_doc Expr.spans]
def VariableDeclaration.spans : VariableDeclaration → List Span
  | ⟨_, _, value, _⟩ => spansOfValue value

@[inherit_doc Expr.spans]
def FunctionDeclaration.spans : FunctionDeclaration → List Span
  | ⟨_, _, body, _, _⟩ => spansOfStmts body

@[inherit_doc Expr.spans]
def Stmt.spans : Stmt → List Span
  | .variableDeclaration s d => s :: d.spans
  | .functionDeclaration s d => s :: d.spans
  | .classDeclaration s d => s :: d.spans
  | .ifBlock s condition body => s :: (condition.spans ++ spansOfStmts body)
  | .whileLoop s condition body => s :: (condition.spans ++ spansOfStmts body)
  | .forLoop s loop => s :: loop.spans
  | .breakLoop s => [s]
  | .returnValue s value => s :: value.spans
  | .expression s value => s :: value.spans

@[inherit_doc Expr.spans]
def spansOfStmts : List Stmt → List Span
  | [] => []
  | x :: rest => x.spans ++ spansOfStmts rest

@[inherit_doc Expr.spans]
def ForLoop.spans : ForLoop → List Span
  | ⟨counter, condition, iterator, body⟩ =>
    counter.spans ++ (condition.spans ++ (iterator.spans ++ spansOfStmts body))

@[inherit_doc Expr.spans]
def ClassDeclaration.spans : ClassDeclaration → List Span
  | ⟨_, _, members⟩ => spansOfMembers members

@[inherit_doc Expr.spans]
def Member.spans : Member → List Span
  | .property _ d => d.spans
  | .method _ d => d.spans

@[inherit_doc Expr.spans]
def spansOfMembers : List Member → List Span
  | [] => []
  | m :: rest => m.spans ++ spansOfMembers rest

end

/-- The spans in a program: of its statements, its expressions and the entries of its objects. -/
def Program.spans (p : Program) : List Span := spansOfStmts p

section

variable (f : Span → Span)

mutual

theorem Expr.spans_relocate (e : Expr) : (e.relocate f).spans = e.spans.map f := by
  cases e with
  | identifier | number | string | null => rfl
  | object _ ps => simp only [Expr.relocate, Expr.spans, spansOfProperties_relocate ps, List.map_cons]
  | array _ es => simp only [Expr.relocate, Expr.spans, spansOfExprs_relocate es, List.map_cons]
  | binary _ left _ right =>
    simp only [Expr.relocate, Expr.spans, left.spans_relocate, right.spans_relocate, List.map_cons, List.map_append]
  | assign _ target value =>
    simp only [Expr.relocate, Expr.spans, target.spans_relocate, value.spans_relocate, List.map_cons, List.map_append]
  | member _ object property =>
    simp only [Expr.relocate, Expr.spans, object.spans_relocate, property.spans_relocate, List.map_cons, List.map_append]
  | call _ callee arguments =>
    simp only [Expr.relocate, Expr.spans, callee.spans_relocate, spansOfExprs_relocate arguments, List.map_cons,
      List.map_append]
  | function _ d => simp only [Expr.relocate, Expr.spans, d.spans_relocate, List.map_cons]
  | instantiate _ target arguments =>
    simp only [Expr.relocate, Expr.spans, target.spans_relocate, spansOfExprs_relocate arguments, List.map_cons,
      List.map_append]
termination_by structural e

theorem spansOfExprs_relocate (es : List Expr) : spansOfExprs (relocateExprs f es) = (spansOfExprs es).map f := by
  cases es with
  | nil => rfl
  | cons e rest =>
    simp only [relocateExprs, spansOfExprs, e.spans_relocate, spansOfExprs_relocate rest, List.map_append]
termination_by structural es

theorem spansOfValue_relocate (value : Option Expr) :
    spansOfValue (relocateValue f value) = (spansOfValue value).map f := by
  cases value with
  | none => rfl
  | some e => exact e.spans_relocate
termination_by structural value

theorem Property.spans_relocate (p : Property) : (p.relocate f).spans = p.spans.map f := by
  obtain ⟨_, value, _⟩ := p
  simp only [Property.relocate, Property.spans, spansOfValue_relocate value, List.map_cons]
termination_by structural p

theorem spansOfProperties_relocate (ps : List Property) :
    spansOfProperties (relocateProperties f ps) = (spansOfProperties ps).map f := by
  cases ps with
  | nil => rfl
  | cons p rest =>
    simp only [relocateProperties, spansOfProperties, p.spans_relocate, spansOfProperties_relocate rest,
      List.map_append]
termination_by structural ps

theorem VariableDeclaration.spans_relocate (d : VariableDeclaration) : (d.relocate f).spans = d.spans.map f := by
  obtain ⟨_, _, value, _⟩ := d
  exact spansOfValue_relocate value
termination_by structural d

theorem FunctionDeclaration.spans_relocate (d : FunctionDeclaration) : (d.relocate f).spans = d.spans.map f := by
  obtain ⟨_, _, body, _, _⟩ := d
  exact spansOfStmts_relocate body
termination_by structural d

theorem Stmt.spans_relocate (x : Stmt) : (x.relocate f).spans = x.spans.map f := by
  cases x with
  | variableDeclaration _ d => simp only [Stmt.relocate, Stmt.spans, d.spans_relocate, List.map_cons]
  | functionDeclaration _ d => simp only [Stmt.relocate, Stmt.spans, d.spans_relocate, List.map_cons]
  | classDeclaration _ d => simp only [Stmt.relocate, Stmt.spans, d.spans_relocate, List.map_cons]
  | ifBlock _ condition body =>
    simp only [Stmt.relocate, Stmt.spans, condition.spans_relocate, spansOfStmts_relocate body, List.map_cons,
      List.map_append]
  | whileLoop _ condition body =>
    simp only [Stmt.relocate, Stmt.spans, condition.spans_relocate, spansOfStmts_relocate body, List.map_cons,
      List.map_append]
  | forLoop _ loop => simp only [Stmt.relocate, Stmt.spans, loop.spans_relocate, List.map_cons]
  | breakLoop => rfl
  | returnValue _ value => simp only [Stmt.relocate, Stmt.spans, value.spans_relocate, List.map_cons]
  | expression _ value => simp only [Stmt.relocate, Stmt.spans, value.spans_relocate, List.map_cons]
termination_by structural x

theorem spansOfStmts_relocate (xs : List Stmt) : spansOfStmts (relocateStmts f xs) = (spansOfStmts xs).map f := by
  cases xs with
  | nil => rfl
  | cons x rest =>
    simp only [relocateStmts, spansOfStmts, x.spans_relocate, spansOfStmts_relocate rest, List.map_append]
termination_by structural xs

theorem ForLoop.spans_relocate (l : ForLoop) : (l.relocate f).spans = l.spans.map f := by
  obtain ⟨counter, condition, iterator, body⟩ := l
  simp only [ForLoop.relocate, ForLoop.spans, counter.spans_relocate, condition.spans_relocate, iterator.spans_relocate,
    spansOfStmts_relocate body, List.map_append]
termination_by structural l

theorem ClassDeclaration.spans_relocate (d : ClassDeclaration) : (d.relocate f).spans = d.spans.map f := by
  obtain ⟨_, _, members⟩ := d
  exact spansOfMembers_relocate members
termination_by structural d

theorem Member.spans_relocate (m : Member) : (m.relocate f).spans = m.spans.map f := by
  cases m with
  | property _ d => exact d.spans_relocate
  | method _ d => exact d.spans_relocate
termination_by structural m

theorem spansOfMembers_relocate (ms : List Member) :
    spansOfMembers (relocateMembers f ms) = (spansOfMembers ms).map f := by
  cases ms with
  | nil => rfl
  | cons m rest =>
    simp only [relocateMembers, spansOfMembers, m.spans_relocate, spansOfMembers_relocate rest, List.map_append]
termination_by structural ms

end

end

/-- A program has no spans but those of the tokens of its source. -/
theorem Program.spans_of_tokens {source : String} {ts : List Token} {p : Program}
    (scanned : Token.scan source = .ok ts) (read : ofSource? source = .ok p) :
    ∀ s ∈ p.spans, ∃ t ∈ ts, t.span = s := by
  intro s member
  obtain ⟨f, fixed, inside⟩ := Token.exists_into_spans (Token.scans_of_scanFrom scanned).ne_nil
  have same : p.map (Stmt.relocate f) = p := relocate_eq_self scanned read fixed
  rw [← relocateStmts_eq_map] at same
  have spans : p.spans.map f = p.spans := by
    rw [Program.spans, ← spansOfStmts_relocate, same]
  rw [← spans] at member
  obtain ⟨s', -, rfl⟩ := List.mem_map.1 member
  exact inside s'

/-! ## The places of statements -/

/-- In a list of tokens the statement is read from index `i` on, and has the span of the token there. -/
def Stmt.ReadAt (ts : List Token) (x : Stmt) (i : Nat) : Prop :=
  ∃ t n left, ts[i]? = some t ∧ x.span = t.span ∧ readStatement n (TokenStream.ofList (ts.drop i)) = .ok (x, left)

/-- Statements that are found on the way from a place in a list stand at places from there on, in order. -/
theorem Found.places {ts : List Token} (closed : ts.getLast?.map Token.kind = some .eof) {s t : TokenStream}
    {xs : List Stmt} (h : Found s xs t) {i : Nat} (stands : s.Stands ts i) :
    ∃ places : List Nat, (∀ j ∈ places, i ≤ j) ∧ places.Pairwise (· < ·) ∧
      List.Forall₂ (Stmt.ReadAt ts) xs places := by
  induction h generalizing i with
  | done => exact ⟨[], nofun, .nil, .nil⟩
  | @next s t u v n x xs left more first read rest ih =>
    obtain ⟨j, le, there⟩ := stands.leave closed left
    have ended : t.eof.kind = .eof := there.left ▸ TokenStream.ofList_eof _
    obtain ⟨k, less, further⟩ := there.leave closed (TokenStream.leaves_next_of_ne ended more)
    obtain ⟨places, later, increasing, stand⟩ := ih further
    refine ⟨j :: places, ?_, ?_, .cons ⟨t.peek, n, u, there.shows, first, there.left ▸ read⟩ stand⟩
    · refine List.forall_mem_cons.2 ⟨by omega, fun l member => ?_⟩
      have after := later l member
      omega
    · refine List.pairwise_cons.2 ⟨fun l member => ?_, increasing⟩
      have after := later l member
      omega

theorem Stmt.exists_place {ts : List Token} {xs : List Stmt} {places : List Nat}
    (stand : List.Forall₂ (Stmt.ReadAt ts) xs places) : ∀ x ∈ xs, ∃ j ∈ places, x.ReadAt ts j := by
  induction stand with
  | nil => exact nofun
  | cons here _ ih =>
    refine List.forall_mem_cons.2 ⟨⟨_, List.mem_cons_self, here⟩, fun x member => ?_⟩
    obtain ⟨j, later, there⟩ := ih x member
    exact ⟨j, List.mem_cons_of_mem _ later, there⟩

/-- What stands at later places has later spans. -/
theorem Stmt.spans_ordered {ts : List Token} (ordered : ts.Pairwise fun t u => t.span.Before u.span)
    {xs : List Stmt} {places : List Nat} (increasing : places.Pairwise (· < ·))
    (stand : List.Forall₂ (Stmt.ReadAt ts) xs places) : (xs.map Stmt.span).Pairwise Span.Before := by
  induction stand with
  | nil => exact .nil
  | @cons x i xs places here stand ih =>
    obtain ⟨later, increasing⟩ := List.pairwise_cons.1 increasing
    refine List.pairwise_cons.2 ⟨fun s member => ?_, ih increasing⟩
    obtain ⟨y, there, rfl⟩ := List.mem_map.1 member
    obtain ⟨j, after, t, _, _, shows, span, -⟩ := Stmt.exists_place stand y there
    obtain ⟨u, _, _, shows', span', -⟩ := here
    obtain ⟨inside, rfl⟩ := List.getElem?_eq_some_iff.1 shows
    obtain ⟨inside', rfl⟩ := List.getElem?_eq_some_iff.1 shows'
    rw [span, span']
    exact List.pairwise_iff_getElem.1 ordered i j inside' inside (later j after)

/-- The places in a tree are those of the tokens that it was read from, in order.  Every span in the tree of a
program is the span of a token of its source.  Every statement in it, at whatever depth, is read from a token on
whose span it has; a walk over the tree from left to right comes to these tokens in the order in which they
stand, and so the statements begin at later and later lines and columns. -/
theorem tree_follows_source {source : String} {p : Program} (read : Program.ofSource? source = .ok p) :
    ∃ ts, Token.scan source = .ok ts ∧
      (∀ s ∈ p.spans, ∃ t ∈ ts, t.span = s) ∧
      (∃ places : List Nat, places.Pairwise (· < ·) ∧ List.Forall₂ (Stmt.ReadAt ts) p.statements places) ∧
      (p.statements.map Stmt.span).Pairwise Span.Before := by
  obtain ⟨ts, scanned, spelled⟩ := Program.ofSource?_eq_ok read
  have closed : ts.getLast?.map Token.kind = some .eof := by
    obtain ⟨lexemes, eof, rfl, ended, -⟩ := (Token.scans_of_scanFrom scanned).ends
    rw [List.getLast?_concat, Option.map_some, ended]
  have stands : (TokenStream.ofList ts).Stands ts 0 := by
    have front := Token.closed_stands ts
    rwa [Token.closed, if_pos closed] at front
  obtain ⟨t, found⟩ := Program.statements_found spelled
  obtain ⟨places, -, increasing, stand⟩ := found.places closed stands
  have ordered := (Token.tokens_tile_source scanned).1.ordered
  exact ⟨ts, scanned, Program.spans_of_tokens scanned read, ⟨places, increasing, stand⟩,
    Stmt.spans_ordered ordered increasing stand⟩

/-- A target that holds a statement and is added to, and a `return` without a value. -/
def addedTarget : String := "a[function () \x7b b; \x7d] += 1; return;"

def addedTargetTokens : List Token :=
  [⟨.identifier, "a", ⟨1, 1, 1⟩⟩, ⟨.sign .leftBracket, "[", ⟨1, 2, 1⟩⟩,
    ⟨.keyword .functionWord, "function", ⟨1, 3, 8⟩⟩, ⟨.sign .leftParen, "(", ⟨1, 12, 1⟩⟩,
    ⟨.sign .rightParen, ")", ⟨1, 13, 1⟩⟩, ⟨.sign .leftBrace, "\x7b", ⟨1, 15, 1⟩⟩, ⟨.identifier, "b", ⟨1, 17, 1⟩⟩,
    ⟨.sign .semicolon, ";", ⟨1, 18, 1⟩⟩, ⟨.sign .rightBrace, "\x7d", ⟨1, 20, 1⟩⟩,
    ⟨.sign .rightBracket, "]", ⟨1, 21, 1⟩⟩, ⟨.sign .plusEqual, "+=", ⟨1, 23, 2⟩⟩, ⟨.number, "1", ⟨1, 26, 1⟩⟩,
    ⟨.sign .semicolon, ";", ⟨1, 27, 1⟩⟩, ⟨.keyword .returnWord, "return", ⟨1, 29, 6⟩⟩,
    ⟨.sign .semicolon, ";", ⟨1, 35, 1⟩⟩, ⟨.eof, "", ⟨1, 36, 0⟩⟩]

/-- The tree, in which the target stands twice. -/
def addedTargetTree : Program :=
  let target : Expr := .member ⟨1, 1, 1⟩ (.identifier ⟨1, 1, 1⟩ "a") (.function ⟨1, 3, 8⟩
    ⟨none, [], [.expression ⟨1, 17, 1⟩ (.identifier ⟨1, 17, 1⟩ "b")], false, none⟩) true
  [.expression ⟨1, 1, 1⟩
      (.assign ⟨1, 1, 1⟩ target (.binary ⟨1, 23, 2⟩ target .add (.number ⟨1, 26, 1⟩ 1.0))),
    .returnValue ⟨1, 29, 6⟩ (.null ⟨1, 29, 6⟩)]

theorem addedTarget_in_order :
    Program.ofSource? addedTarget = .ok addedTargetTree ∧
      addedTargetTree.statements.map Stmt.span = [⟨1, 1, 1⟩, ⟨1, 17, 1⟩, ⟨1, 29, 6⟩] ∧
      (addedTargetTree.statements.map Stmt.span).Pairwise Span.Before ∧
      ∃ ts, Token.scan addedTarget = .ok ts ∧ ∀ s ∈ addedTargetTree.spans, ∃ t ∈ ts, t.span = s := by
  have scanned : Token.scan addedTarget = .ok addedTargetTokens := by decide +kernel
  have read : Program.ofSource? addedTarget = .ok addedTargetTree := by
    unfold Program.ofSource?
    rw [scanned]
    rfl
  have statements : addedTargetTree.statements.map Stmt.span = [⟨1, 1, 1⟩, ⟨1, 17, 1⟩, ⟨1, 29, 6⟩] := by
    simp only [Program.statements, addedTargetTree, statementsIn, Stmt.nested, Expr.nested_assign_copied]
    rfl
  obtain ⟨ts, scanned, spans, -, ordered⟩ := tree_follows_source read
  exact ⟨read, statements, ordered, ts, scanned, spans⟩

end ScriptLang
