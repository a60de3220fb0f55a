/-
# ScriptLang.Proofs.Alike.Tree — trees that differ only in places.

Two trees are alike when they are built in the same way from the same names, numbers and texts.  Where
their tokens stand may differ.  How far is left open: a likeness says which spans may stand for each
other, and also which names, native functions and sources it speaks about at all.  With every span allowed
for every other, likeness forgets places; with the spans of some sources allowed each for itself, it says
that no other places occur.
-/
import ScriptLang.Proofs.Syntax.Names
import ScriptLang.Proofs.Syntax.Placement
import ScriptLang.Eval
import Mathlib.Data.List.Forall2

namespace ScriptLang

/-- Which spans may stand for each other, and which names, native functions and nested sources may
occur. -/
structure Likeness where
  spans : Span → Span → Prop
  names : String → Prop
  natives : Native → Prop
  sources : String → Prop

mutual

/-- Expressions that differ only in places. -/
inductive Expr.Alike (L : Likeness) : Expr → Expr → Prop
  | identifier {s s' : Span} {name : String} (hs : L.spans s s') (hn : L.names name) :
    Expr.Alike L (.identifier s name) (.identifier s' name)
  | number {s s' : Span} {x : Float} (hs : L.spans s s') : Expr.Alike L (.number s x) (.number s' x)
  | string {s s' : Span} {text : String} (hs : L.spans s s') :
    Expr.Alike L (.string s text) (.string s' text)
  | null {s s' : Span} (hs : L.spans s s') : Expr.Alike L (.null s) (.null s')
  | object {s s' : Span} {ps ps' : List Property} (hs : L.spans s s')
    (h : List.Forall₂ (Property.Alike L) ps ps') : Expr.Alike L (.object s ps) (.object s' ps')
  | array {s s' : Span} {es es' : List Expr} (hs : L.spans s s')
    (h : List.Forall₂ (Expr.Alike L) es es') : Expr.Alike L (.array s es) (.array s' es')
  | binary {s s' : Span} {left left' right right' : Expr} {operator : Operator} (hs : L.spans s s')
    (hl : Expr.Alike L left left') (hr : Expr.Alike L right right') :
    Expr.Alike L (.binary s left operator right) (.binary s' left' operator right')
  | assign {s s' : Span} {target target' value value' : Expr} (hs : L.spans s s')
    (ht : Expr.Alike L target target') (hv : Expr.Alike L value value') :
    Expr.Alike L (.assign s target value) (.assign s' target' value')
  | member {s s' : Span} {object object' property property' : Expr} {computed : Bool}
    (hs : L.spans s s') (ho : Expr.Alike L object object') (hp : Expr.Alike L property property') :
    Expr.Alike L (.member s object property computed) (.member s' object' property' computed)
  | call {s s' : Span} {callee callee' : Expr} {arguments arguments' : List Expr} (hs : L.spans s s')
    (hc : Expr.Alike L callee callee') (ha : List.Forall₂ (Expr.Alike L) arguments arguments') :
    Expr.Alike L (.call s callee arguments) (.call s' callee' arguments')
  | function {s s' : Span} {d d' : FunctionDeclaration} (hs : L.spans s s')
    (h : FunctionDeclaration.Alike L d d') : Expr.Alike L (.function s d) (.function s' d')
  | instantiate {s s' : Span} {target target' : Expr} {arguments arguments' : List Expr}
    (hs : L.spans s s') (ht : Expr.Alike L target target')
    (ha : List.Forall₂ (Expr.Alike L) arguments arguments') :
    Expr.Alike L (.instantiate s target arguments) (.instantiate s' target' arguments')

/-- Entries of object literals that differ only in places. -/
inductive Property.Alike (L : Likeness) : Property → Property → Prop
  | named {s s' : Span} {key : String} (hs : L.spans s s') (hn : L.names key) :
    Property.Alike L ⟨key, none, s⟩ ⟨key, none, s'⟩
  | valued {s s' : Span} {key : String} {e e' : Expr} (hs : L.spans s s') (h : Expr.Alike L e e') :
    Property.Alike L ⟨key, some e, s⟩ ⟨key, some e', s'⟩

/-- Declarations of variables that differ only in places. -/
inductive VariableDeclaration.Alike (L : Likeness) : VariableDeclaration → VariableDeclaration → Prop
  | mk {name : String} {constant : Bool} {value value' : Option Expr} {visibility : Option Visibility}
    (hn : L.names name) (h : Option.Rel (Expr.Alike L) value value') :
    VariableDeclaration.Alike L ⟨name, constant, value, visibility⟩ ⟨name, constant, value', visibility⟩

/-- Declarations of functions that differ only in places. -/
inductive FunctionDeclaration.Alike (L : Likeness) : FunctionDeclaration → FunctionDeclaration → Prop
  | mk {name : Option String} {parameters : List String} {body body' : List Stmt} {isAsync : Bool}
    {visibility : Option Visibility} (hn : ∀ x ∈ name, L.names x) (hp : ∀ x ∈ parameters, L.names x)
    (h : List.Forall₂ (Stmt.Alike L) body body') :
    FunctionDeclaration.Alike L ⟨name, parameters, body, isAsync, visibility⟩
      ⟨name, parameters, body', isAsync, visibility⟩

/-- Statements that differ only in places. -/
inductive Stmt.Alike (L : Likeness) : Stmt → Stmt → Prop
  | variableDeclaration {s s' : Span} {d d' : VariableDeclaration} (hs : L.spans s s')
    (h : VariableDeclaration.Alike L d d') :
    Stmt.Alike L (.variableDeclaration s d) (.variableDeclaration s' d')
  | functionDeclaration {s s' : Span} {d d' : FunctionDeclaration} (hs : L.spans s s')
    (h : FunctionDeclaration.Alike L d d') :
    Stmt.Alike L (.functionDeclaration s d) (.functionDeclaration s' d')
  | classDeclaration {s s' : Span} {d d' : ClassDeclaration} (hs : L.spans s s')
    (h : ClassDeclaration.Alike L d d') : Stmt.Alike L (.classDeclaration s d) (.classDeclaration s' d')
  | ifBlock {s s' : Span} {condition condition' : Expr} {body body' : List Stmt} (hs : L.spans s s')
    (hc : Expr.Alike L condition condition') (hb : List.Forall₂ (Stmt.Alike L) body body') :
    Stmt.Alike L (.ifBlock s condition body) (.ifBlock s' condition' body')
  | whileLoop {s s' : Span} {condition condition' : Expr} {body body' : List Stmt} (hs : L.spans s s')
    (hc : Expr.Alike L condition condition') (hb : List.Forall₂ (Stmt.Alike L) body body') :
    Stmt.Alike L (.whileLoop s condition body) (.whileLoop s' condition' body')
  | forLoop {s s' : Span} {loop loop' : ForLoop} (hs : L.spans s s') (h : ForLoop.Alike L loop loop') :
    Stmt.Alike L (.forLoop s loop) (.forLoop s' loop')
  | breakLoop {s s' : Span} (hs : L.spans s s') : Stmt.Alike L (.breakLoop s) (.breakLoop s')
  | returnValue {s s' : Span} {e e' : Expr} (hs : L.spans s s') (h : Expr.Alike L e e') :
    Stmt.Alike L (.returnValue s e) (.returnValue s' e')
  | expression {s s' : Span} {e e' : Expr} (hs : L.spans s s') (h : Expr.Alike L e e') :
    Stmt.Alike L (.expression s e) (.expression s' e')

/-- Loops over a counter that differ only in places. -/
inductive ForLoop.Alike (L : Likeness) : ForLoop → ForLoop → Prop
  | mk {counter counter' : VariableDeclaration} {condition condition' iterator iterator' : Expr}
    {body body' : List Stmt} (hv : VariableDeclaration.Alike L counter counter')
    (hc : Expr.Alike L condition condition') (hi : Expr.Alike L iterator iterator')
    (hb : List.Forall₂ (Stmt.Alike L) body body') :
    ForLoop.Alike L ⟨counter, condition, iterator, body⟩ ⟨counter', condition', iterator', body'⟩

/-- Classes that differ only in places. -/
inductive ClassDeclaration.Alike (L : Likeness) : ClassDeclaration → ClassDeclaration → Prop
  | mk {name : String} {superclass : Option String} {members members' : List Member}
    (hn : L.names name) (hp : ∀ x ∈ superclass, L.names x)
    (h : List.Forall₂ (Member.Alike L) members members') :
    ClassDeclaration.Alike L ⟨name, superclass, members⟩ ⟨name, superclass, members'⟩

/-- Members of a class that differ only in places. -/
inductive Member.Alike (L : Likeness) : Member → Member → Prop
  | property {visibility : Visibility} {d d' : VariableDeclaration}
    (h : VariableDeclaration.Alike L d d') :
    Member.Alike L (.property visibility d) (.property visibility d')
  | method {visibility : Visibility} {d d' : FunctionDeclaration} (hn : L.names d.shownName)
    (h : FunctionDeclaration.Alike L d d') : Member.Alike L (.method visibility d) (.method visibility d')

end

/-- Programs that differ only in places. -/
abbrev Program.Alike (L : Likeness) : Program → Program → Prop := List.Forall₂ (Stmt.Alike L)

variable {L : Likeness}

/-! ## What is read off trees that are alike -/

theorem Expr.Alike.span {e e' : Expr} (h : e.Alike L e') : L.spans e.span e'.span := by
  cases h <;> assumption

theorem Stmt.Alike.span {s s' : Stmt} (h : s.Alike L s') : L.spans s.span s'.span := by
  cases h <;> assumption

theorem FunctionDeclaration.Alike.shownName {d d' : FunctionDeclaration} (h : d.Alike L d') :
    d'.shownName = d.shownName := by
  cases h
  rfl

theorem ClassDeclaration.Alike.name {d d' : ClassDeclaration} (h : d.Alike L d') : d'.name = d.name := by
  cases h
  rfl

theorem Eval.strictDirective?_alike {s s' : Stmt} (h : s.Alike L s') :
    strictDirective? s' = strictDirective? s := by
  cases h with
  | expression hs h => cases h <;> rfl
  | _ => rfl

theorem Eval.stepExpression_alike {e e' : Expr} (h : e.Alike L e') :
    (stepExpression e).Alike L (stepExpression e') := by
  cases h with
  | assign hs ht hv => exact hv
  | _ => constructor <;> assumption

/-! ## Trees with their spans sent elsewhere -/

/-- Two places for every span, which may stand for each other. -/
def Likeness.Pairs (L : Likeness) (f g : Span → Span) : Prop := ∀ s, L.spans (f s) (g s)

section

variable {f g : Span → Span}

mutual

/-- A tree with its spans sent to two places, which may stand for each other, comes to trees that are
alike. -/
theorem Expr.relocate_alike (hs : L.Pairs f g) (e : Expr) (hn : ∀ x ∈ e.names, L.names x) :
    Expr.Alike L (e.relocate f) (e.relocate g) := by
  cases e with
  | identifier s name => exact .identifier (hs s) (hn name List.mem_cons_self)
  | number s x => exact .number (hs s)
  | string s text => exact .string (hs s)
  | null s => exact .null (hs s)
  | object s ps => exact .object (hs s) (relocateProperties_alike hs ps hn)
  | array s es => exact .array (hs s) (relocateExprs_alike hs es hn)
  | binary s left operator right =>
    obtain ⟨hl, hr⟩ := List.forall_mem_append.1 hn
    exact .binary (hs s) (left.relocate_alike hs hl) (right.relocate_alike hs hr)
  | assign s target value =>
    obtain ⟨ht, hv⟩ := List.forall_mem_append.1 hn
    exact .assign (hs s) (target.relocate_alike hs ht) (value.relocate_alike hs hv)
  | member s object property computed =>
    obtain ⟨ho, hp⟩ := List.forall_mem_append.1 hn
    exact .member (hs s) (object.relocate_alike hs ho) (property.relocate_alike hs hp)
  | call s callee arguments =>
    obtain ⟨hc, ha⟩ := List.forall_mem_append.1 hn
    exact .call (hs s) (callee.relocate_alike hs hc) (relocateExprs_alike hs arguments ha)
  | function s d => exact .function (hs s) (d.relocate_alike hs hn)
  | instantiate s target arguments =>
    obtain ⟨ht, ha⟩ := List.forall_mem_append.1 hn
    exact .instantiate (hs s) (target.relocate_alike hs ht) (relocateExprs_alike hs arguments ha)

theorem relocateExprs_alike (hs : L.Pairs f g) (es : List Expr)
    (hn : ∀ x ∈ namesOfExprs es, L.names x) :
    List.Forall₂ (Expr.Alike L) (relocateExprs f es) (relocateExprs g es) := by
  cases es with
  | nil => exact .nil
  | cons e rest =>
    obtain ⟨he, hr⟩ := List.forall_mem_append.1 hn
    exact .cons (e.relocate_alike hs he) (relocateExprs_alike hs rest hr)

theorem relocateValue_alike (hs : L.Pairs f g) (value : Option Expr)
    (hn : ∀ x ∈ namesOfValue value, L.names x) :
    Option.Rel (Expr.Alike L) (relocateValue f value) (relocateValue g value) := by
  cases value with
  | none => exact .none
  | some e => exact .some (e.relocate_alike hs hn)

theorem Property.relocate_alike (hs : L.Pairs f g) (p : Property) (hn : ∀ x ∈ p.names, L.names x) :
    Property.Alike L (p.relocate f) (p.relocate g) := by
  obtain ⟨key, value, s⟩ := p
  cases value with
  | none => exact .named (hs s) (hn key List.mem_cons_self)
  | some e => exact .valued (hs s) (e.relocate_alike hs hn)

theorem relocateProperties_alike (hs : L.Pairs f g) (ps : List Property)
    (hn : ∀ x ∈ namesOfProperties ps, L.names x) :
    List.Forall₂ (Property.Alike L) (relocateProperties f ps) (relocateProperties g ps) := by
  cases ps with
  | nil => exact .nil
  | cons p rest =>
    obtain ⟨hp, hr⟩ := List.forall_mem_append.1 hn
    exact .cons (p.relocate_alike hs hp) (relocateProperties_alike hs rest hr)

theorem VariableDeclaration.relocate_alike (hs : L.Pairs f g) (d : VariableDeclaration)
    (hn : ∀ x ∈ d.names, L.names x) : VariableDeclaration.Alike L (d.relocate f) (d.relocate g) := by
  obtain ⟨name, constant, value, visibility⟩ := d
  obtain ⟨hx, hv⟩ := List.forall_mem_cons.1 hn
  exact .mk hx (relocateValue_alike hs value hv)

theorem FunctionDeclaration.relocate_alike (hs : L.Pairs f g) (d : FunctionDeclaration)
    (hn : ∀ x ∈ d.names, L.names x) : FunctionDeclaration.Alike L (d.relocate f) (d.relocate g) := by
  obtain ⟨name, parameters, body, isAsync, visibility⟩ := d
  obtain ⟨hd, hb⟩ := List.forall_mem_append.1 hn
  obtain ⟨hx, hp⟩ := List.forall_mem_append.1 hd
  exact .mk (fun x hm => hx x (Option.mem_toList.2 hm)) hp (relocateStmts_alike hs body hb)

theorem Stmt.relocate_alike (hs : L.Pairs f g) (s : Stmt) (hn : ∀ x ∈ s.names, L.names x) :
    Stmt.Alike L (s.relocate f) (s.relocate g) := by
  cases s with
  | variableDeclaration s d => exact .variableDeclaration (hs s) (d.relocate_alike hs hn)
  | functionDeclaration s d => exact .functionDeclaration (hs s) (d.relocate_alike hs hn)
  | classDeclaration s d => exact .classDeclaration (hs s) (d.relocate_alike hs hn)
  | ifBlock s condition body =>
    obtain ⟨hc, hb⟩ := List.forall_mem_append.1 hn
    exact .ifBlock (hs s) (condition.relocate_alike hs hc) (relocateStmts_alike hs body hb)
  | whileLoop s condition body =>
    obtain ⟨hc, hb⟩ := List.forall_mem_append.1 hn
    exact .whileLoop (hs s) (condition.relocate_alike hs hc) (relocateStmts_alike hs body hb)
  | forLoop s loop => exact .forLoop (hs s) (loop.relocate_alike hs hn)
  | breakLoop s => exact .breakLoop (hs s)
  | returnValue s e => exact .returnValue (hs s) (e.relocate_alike hs hn)
  | expression s e => exact .expression (hs s) (e.relocate_alike hs hn)

theorem relocateStmts_alike (hs : L.Pairs f g) (ss : List Stmt)
    (hn : ∀ x ∈ namesOfStmts ss, L.names x) :
    List.Forall₂ (Stmt.Alike L) (relocateStmts f ss) (relocateStmts g ss) := by
  cases ss with
  | nil => exact .nil
  | cons s rest =>
    obtain ⟨hd, hr⟩ := List.forall_mem_append.1 hn
    exact .cons (s.relocate_alike hs hd) (relocateStmts_alike hs rest hr)

theorem ForLoop.relocate_alike (hs : L.Pairs f g) (loop : ForLoop) (hn : ∀ x ∈ loop.names, L.names x) :
    ForLoop.Alike L (loop.relocate f) (loop.relocate g) := by
  obtain ⟨counter, condition, iterator, body⟩ := loop
  obtain ⟨hheader, hb⟩ := List.forall_mem_append.1 hn
  obtain ⟨hstart, hi⟩ := List.forall_mem_append.1 hheader
  obtain ⟨hv, hc⟩ := List.forall_mem_append.1 hstart
  exact .mk (counter.relocate_alike hs hv) (condition.relocate_alike hs hc) (iterator.relocate_alike hs hi)
    (relocateStmts_alike hs body hb)

theorem ClassDeclaration.relocate_alike (hs : L.Pairs f g) (d : ClassDeclaration)
    (hn : ∀ x ∈ d.names, L.names x) :
    ClassDeclaration.Alike L (d.relocate f) (d.relocate g) := by
  obtain ⟨name, superclass, members⟩ := d
  obtain ⟨hd, hm⟩ := List.forall_mem_append.1 hn
  obtain ⟨hx, hp⟩ := List.forall_mem_cons.1 hd
  exact .mk hx (fun x hm => hp x (Option.mem_toList.2 hm)) (relocateMembers_alike hs members hm)

theorem Member.relocate_alike (hs : L.Pairs f g) (m : Member) (hn : ∀ x ∈ m.names, L.names x) :
    Member.Alike L (m.relocate f) (m.relocate g) := by
  cases m with
  | property visibility d => exact .property (d.relocate_alike hs hn)
  | method visibility d =>
    obtain ⟨hx, hd⟩ := List.forall_mem_cons.1 hn
    have alike := d.relocate_alike hs hd
    refine .method ?_ alike
    rw [FunctionDeclaration.shownName, FunctionDeclaration.relocate_name]
    exact hx

theorem relocateMembers_alike (hs : L.Pairs f g) (ms : List Member)
    (hn : ∀ x ∈ namesOfMembers ms, L.names x) :
    List.Forall₂ (Member.Alike L) (relocateMembers f ms) (relocateMembers g ms) := by
  cases ms with
  | nil => exact .nil
  | cons m rest =>
    obtain ⟨hd, hr⟩ := List.forall_mem_append.1 hn
    exact .cons (m.relocate_alike hs hd) (relocateMembers_alike hs rest hr)

end

theorem Program.relocate_alike (hs : L.Pairs f g) (p : Program) (hn : ∀ x ∈ p.names, L.names x) :
    Program.Alike L (p.map (Stmt.relocate f)) (p.map (Stmt.relocate g)) := by
  have h := relocateStmts_alike hs p hn
  rwa [relocateStmts_eq_map, relocateStmts_eq_map] at h

end

end ScriptLang
