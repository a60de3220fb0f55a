/-
# ScriptLang.Proofs.Places — trees that are the same but for their places run alike.

Two trees that are the same tree once their spans are forgotten are alike when every span is allowed for
every other, and so a machine is alike to itself.  From one machine the two come to the same end: the same
kind of outcome, values and bindings that differ at most in the places of the trees that they hold, and the
same host, with all that was written to it.
-/
import ScriptLang.Proofs.Session

namespace ScriptLang

/-! ## Trees -/

mutual

theorem Expr.alike_of_relocate {f : Span → Span} {e e' : Expr} (h : e.relocate f = e'.relocate f) :
    e.Alike .places e' := by
  cases e with
  | identifier s name =>
    cases e' with
    | identifier s' name' =>
      obtain ⟨-, rfl⟩ := Expr.identifier.inj h
      exact .identifier trivial trivial
    | _ => cases h
  | number s x =>
    cases e' with
    | number s' x' =>
      obtain ⟨-, rfl⟩ := Expr.number.inj h
      exact .number trivial
    | _ => cases h
  | string s text =>
    cases e' with
    | string s' text' =>
      obtain ⟨-, rfl⟩ := Expr.string.inj h
      exact .string trivial
    | _ => cases h
  | null s =>
    cases e' with
    | null s' => exact .null trivial
    | _ => cases h
  | object s ps =>
    cases e' with
    | object s' ps' => exact .object trivial (propertiesAlike_of_relocate (Expr.object.inj h).2)
    | _ => cases h
  | array s es =>
    cases e' with
    | array s' es' => exact .array trivial (exprsAlike_of_relocate (Expr.array.inj h).2)
    | _ => cases h
  | binary s left operator right =>
    cases e' with
    | binary s' left' operator' right' =>
      obtain ⟨-, hl, rfl, hr⟩ := Expr.binary.inj h
      exact .binary trivial (Expr.alike_of_relocate hl) (Expr.alike_of_relocate hr)
    | _ => cases h
  | assign s target value =>
    cases e' with
    | assign s' target' value' =>
      obtain ⟨-, ht, hv⟩ := Expr.assign.inj h
      exact .assign trivial (Expr.alike_of_relocate ht) (Expr.alike_of_relocate hv)
    | _ => cases h
  | member s object property computed =>
    cases e' with
    | member s' object' property' computed' =>
      obtain ⟨-, ho, hp, rfl⟩ := Expr.member.inj h
      exact .member trivial (Expr.alike_of_relocate ho) (Expr.alike_of_relocate hp)
    | _ => cases h
  | call s callee arguments =>
    cases e' with
    | call s' callee' arguments' =>
      obtain ⟨-, hc, ha⟩ := Expr.call.inj h
      exact .call trivial (Expr.alike_of_relocate hc) (exprsAlike_of_relocate ha)
    | _ => cases h
  | function s d =>
    cases e' with
    | function s' d' => exact .function trivial (FunctionDeclaration.alike_of_relocate (Expr.function.inj h).2)
    | _ => cases h
  | instantiate s target arguments =>
    cases e' with
    | instantiate s' target' arguments' =>
      obtain ⟨-, ht, ha⟩ := Expr.instantiate.inj h
      exact .instantiate trivial (Expr.alike_of_relocate ht) (exprsAlike_of_relocate ha)
    | _ => cases h
termination_by structural e

theorem exprsAlike_of_relocate {f : Span → Span} {es es' : List Expr} (h : relocateExprs f es = relocateExprs f es') :
    List.Forall₂ (Expr.Alike .places) es es' := by
  cases es with
  | nil =>
    cases es' with
    | nil => exact .nil
    | cons e' rest' => cases h
  | cons e rest =>
    cases es' with
    | nil => cases h
    | cons e' rest' =>
      obtain ⟨he, hr⟩ := List.cons.inj h
      exact .cons (Expr.alike_of_relocate he) (exprsAlike_of_relocate hr)
termination_by structural es

theorem valueAlike_of_relocate {f : Span → Span} {value value' : Option Expr}
    (h : relocateValue f value = relocateValue f value') : Option.Rel (Expr.Alike .places) value value' := by
  cases value with
  | none =>
    cases value' with
    | none => exact .none
    | some e' => cases h
  | some e =>
    cases value' with
    | none => cases h
    | some e' => exact .some (Expr.alike_of_relocate (Option.some.inj h))
termination_by structural value

theorem Property.alike_of_relocate {f : Span → Span} {p p' : Property} (h : p.relocate f = p'.relocate f) :
    p.Alike .places p' := by
  obtain ⟨key, value, s⟩ := p
  obtain ⟨key', value', s'⟩ := p'
  obtain ⟨rfl, hv, -⟩ := Property.mk.inj h
  cases value with
  | none =>
    cases value' with
    | none => exact .named trivial trivial
    | some e' => cases hv
  | some e =>
    cases value' with
    | none => cases hv
    | some e' => exact .valued trivial (Expr.alike_of_relocate (Option.some.inj hv))
termination_by structural p

theorem propertiesAlike_of_relocate {f : Span → Span} {ps ps' : List Property}
    (h : relocateProperties f ps = relocateProperties f ps') : List.Forall₂ (Property.Alike .places) ps ps' := by
  cases ps with
  | nil =>
    cases ps' with
    | nil => exact .nil
    | cons p' rest' => cases h
  | cons p rest =>
    cases ps' with
    | nil => cases h
    | cons p' rest' =>
      obtain ⟨hp, hr⟩ := List.cons.inj h
      exact .cons (Property.alike_of_relocate hp) (propertiesAlike_of_relocate hr)
termination_by structural ps

theorem VariableDeclaration.alike_of_relocate {f : Span → Span} {d d' : VariableDeclaration}
    (h : d.relocate f = d'.relocate f) : d.Alike .places d' := by
  obtain ⟨name, constant, value, visibility⟩ := d
  obtain ⟨name', constant', value', visibility'⟩ := d'
  obtain ⟨rfl, rfl, hv, rfl⟩ := VariableDeclaration.mk.inj h
  exact .mk trivial (valueAlike_of_relocate hv)
termination_by structural d

theorem FunctionDeclaration.alike_of_relocate {f : Span → Span} {d d' : FunctionDeclaration}
    (h : d.relocate f = d'.relocate f) : d.Alike .places d' := by
  obtain ⟨name, parameters, body, isAsync, visibility⟩ := d
  obtain ⟨name', parameters', body', isAsync', visibility'⟩ := d'
  obtain ⟨rfl, rfl, hb, rfl, rfl⟩ := FunctionDeclaration.mk.inj h
  exact .mk (fun _ _ => trivial) (fun _ _ => trivial) (stmtsAlike_of_relocate hb)
termination_by structural d

theorem Stmt.alike_of_relocate {f : Span → Span} {s s' : Stmt} (h : s.relocate f = s'.relocate f) :
    s.Alike .places s' := by
  cases s with
  | variableDeclaration _ d =>
    cases s' with
    | variableDeclaration _ d' =>
      exact .variableDeclaration trivial (VariableDeclaration.alike_of_relocate (Stmt.variableDeclaration.inj h).2)
    | _ => cases h
  | functionDeclaration _ d =>
    cases s' with
    | functionDeclaration _ d' =>
      exact .functionDeclaration trivial (FunctionDeclaration.alike_of_relocate (Stmt.functionDeclaration.inj h).2)
    | _ => cases h
  | classDeclaration _ d =>
    cases s' with
    | classDeclaration _ d' =>
      exact .classDeclaration trivial (ClassDeclaration.alike_of_relocate (Stmt.classDeclaration.inj h).2)
    | _ => cases h
  | ifBlock _ condition body =>
    cases s' with
    | ifBlock _ condition' body' =>
      obtain ⟨-, hc, hb⟩ := Stmt.ifBlock.inj h
      exact .ifBlock trivial (Expr.alike_of_relocate hc) (stmtsAlike_of_relocate hb)
    | _ => cases h
  | whileLoop _ condition body =>
    cases s' with
    | whileLoop _ condition' body' =>
      obtain ⟨-, hc, hb⟩ := Stmt.whileLoop.inj h
      exact .whileLoop trivial (Expr.alike_of_relocate hc) (stmtsAlike_of_relocate hb)
    | _ => cases h
  | forLoop _ loop =>
    cases s' with
    | forLoop _ loop' => exact .forLoop trivial (ForLoop.alike_of_relocate (Stmt.forLoop.inj h).2)
    | _ => cases h
  | breakLoop _ =>
    cases s' with
    | breakLoop _ => exact .breakLoop trivial
    | _ => cases h
  | returnValue _ e =>
    cases s' with
    | returnValue _ e' => exact .returnValue trivial (Expr.alike_of_relocate (Stmt.returnValue.inj h).2)
    | _ => cases h
  | expression _ e =>
    cases s' with
    | expression _ e' => exact .expression trivial (Expr.alike_of_relocate (Stmt.expression.inj h).2)
    | _ => cases h
termination_by structural s

theorem stmtsAlike_of_relocate {f : Span → Span} {ss ss' : List Stmt} (h : relocateStmts f ss = relocateStmts f ss') :
    List.Forall₂ (Stmt.Alike .places) ss ss' := by
  cases ss with
  | nil =>
    cases ss' with
    | nil => exact .nil
    | cons s' rest' => cases h
  | cons s rest =>
    cases ss' with
    | nil => cases h
    | cons s' rest' =>
      obtain ⟨hs, hr⟩ := List.cons.inj h
      exact .cons (Stmt.alike_of_relocate hs) (stmtsAlike_of_relocate hr)
termination_by structural ss

theorem ForLoop.alike_of_relocate {f : Span → Span} {l l' : ForLoop} (h : l.relocate f = l'.relocate f) :
    l.Alike .places l' := by
  obtain ⟨counter, condition, iterator, body⟩ := l
  obtain ⟨counter', condition', iterator', body'⟩ := l'
  obtain ⟨hv, hc, hi, hb⟩ := ForLoop.mk.inj h
  exact .mk (VariableDeclaration.alike_of_relocate hv) (Expr.alike_of_relocate hc) (Expr.alike_of_relocate hi)
    (stmtsAlike_of_relocate hb)
termination_by structural l

theorem ClassDeclaration.alike_of_relocate {f : Span → Span} {d d' : ClassDeclaration}
    (h : d.relocate f = d'.relocate f) : d.Alike .places d' := by
  obtain ⟨name, superclass, members⟩ := d
  obtain ⟨name', superclass', members'⟩ := d'
  obtain ⟨rfl, rfl, hm⟩ := ClassDeclaration.mk.inj h
  exact .mk trivial (fun _ _ => trivial) (membersAlike_of_relocate hm)
termination_by structural d

theorem Member.alike_of_relocate {f : Span → Span} {m m' : Member} (h : m.relocate f = m'.relocate f) :
    m.Alike .places m' := by
  cases m with
  | property visibility d =>
    cases m' with
    | property visibility' d' =>
      obtain ⟨rfl, hd⟩ := Member.property.inj h
      exact .property (VariableDeclaration.alike_of_relocate hd)
    | method _ _ => cases h
  | method visibility d =>
    cases m' with
    | property _ _ => cases h
    | method visibility' d' =>
      obtain ⟨rfl, hd⟩ := Member.method.inj h
      exact .method trivial (FunctionDeclaration.alike_of_relocate hd)
termination_by structural m

theorem membersAlike_of_relocate {f : Span → Span} {ms ms' : List Member}
    (h : relocateMembers f ms = relocateMembers f ms') : List.Forall₂ (Member.Alike .places) ms ms' := by
  cases ms with
  | nil =>
    cases ms' with
    | nil => exact .nil
    | cons m' rest' => cases h
  | cons m rest =>
    cases ms' with
    | nil => cases h
    | cons m' rest' =>
      obtain ⟨hm, hr⟩ := List.cons.inj h
      exact .cons (Member.alike_of_relocate hm) (membersAlike_of_relocate hr)
termination_by structural ms

end

/-! ## Machines -/

mutual

theorem Value.alike_self (v : Value) : v.Alike .places v := by
  cases v with
  | null => exact .null
  | number x => exact .number x
  | string s => exact .string s
  | bool b => exact .bool b
  | array stamp vs => exact .array (elementsAlike_self vs)
  | object stamp ps => exact .object (entriesAlike_self ps)
  | function g => exact .function ⟨rfl, FunctionDeclaration.alike_of_relocate (f := id) rfl, rfl⟩
  | native stamp n => exact .native trivial
  | classValue c =>
    have layer (c : ClassLayer) : c.Alike .places c :=
      ⟨rfl, ClassDeclaration.alike_of_relocate (f := id) rfl, rfl⟩
    exact .classValue ⟨layer _, List.forall₂_same.2 fun c _ => layer c⟩

theorem elementsAlike_self (vs : List Value) : List.Forall₂ (Value.Alike .places) vs vs := by
  cases vs with
  | nil => exact .nil
  | cons v rest => exact .cons v.alike_self (elementsAlike_self rest)

theorem entriesAlike_self (ps : List (String × Value)) : List.Forall₂ (Entry.Alike .places) ps ps := by
  cases ps with
  | nil => exact .nil
  | cons entry rest =>
    obtain ⟨key, v⟩ := entry
    exact .cons (.mk v.alike_self) (entriesAlike_self rest)

end

theorem Machine.alike_self (m : Machine) : m.Alike .places m where
  scopes := by
    refine ⟨rfl, fun _ => rfl, fun id name _ => ?_⟩
    unfold Bindings.Alike
    cases (m.scopes.bindings id).get? name with
    | none => exact .none
    | some b => exact .some ⟨b.value.alike_self, rfl, rfl⟩
  frame := rfl
  stamps := rfl
  host := rfl
  admits _ _ _ := trivial

/-- Statements that are the same without their places come, from every machine, to the same end but for the
places in it. -/
theorem Stmt.ends_alike_of_bare {s s' : Stmt} (h : s.bare = s'.bare) (fuel : Nat) (strict : Bool) (m : Machine) :
    Ended .places (Flow.Alike .places) (Eval.statement (.bounded fuel) s strict m)
      (Eval.statement (.bounded fuel) s' strict m) :=
  Eval.statement_alike (Evaluator.bounded_alike Likeness.places_lawful fuel) (Stmt.alike_of_relocate h) strict
    m m m.alike_self

end ScriptLang
