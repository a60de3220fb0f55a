/-
# ScriptLang.Proofs.Alike.Value — values that differ only in places.

Functions and classes carry the trees of their declarations, and these carry places.  Values are alike
when they are the same but for the places in such trees.  Nothing that a program or a host can ask of a
value shows the difference: its kind, its text, its structured form, what it is equal to, what operators
and native functions make of it.
-/
import ScriptLang.Proofs.Alike.Tree

namespace ScriptLang

variable {L : Likeness}

/-- Functions that differ only in places. -/
structure Function.Alike (L : Likeness) (f f' : Function) : Prop where
  stamp : f'.stamp = f.stamp
  declaration : f.declaration.Alike L f'.declaration
  closure : f'.closure = f.closure

/-- Classes of a lineage that differ only in places. -/
structure ClassLayer.Alike (L : Likeness) (c c' : ClassLayer) : Prop where
  stamp : c'.stamp = c.stamp
  declaration : c.declaration.Alike L c'.declaration
  closure : c'.closure = c.closure

/-- Classes that differ, with all that they extend, only in places. -/
structure Class.Alike (L : Likeness) (c c' : Class) : Prop where
  layer : c.toClassLayer.Alike L c'.toClassLayer
  ancestors : List.Forall₂ (ClassLayer.Alike L) c.ancestors c'.ancestors

mutual

/-- Values that differ only in places. -/
inductive Value.Alike (L : Likeness) : Value → Value → Prop
  | null : Value.Alike L .null .null
  | number (x : Float) : Value.Alike L (.number x) (.number x)
  | string (s : String) : Value.Alike L (.string s) (.string s)
  | bool (b : Bool) : Value.Alike L (.bool b) (.bool b)
  | array {stamp : Stamp} {vs vs' : List Value} (h : List.Forall₂ (Value.Alike L) vs vs') :
    Value.Alike L (.array stamp vs) (.array stamp vs')
  | object {stamp : Stamp} {ps ps' : List (String × Value)} (h : List.Forall₂ (Entry.Alike L) ps ps') :
    Value.Alike L (.object stamp ps) (.object stamp ps')
  | function {f f' : Function} (h : f.Alike L f') : Value.Alike L (.function f) (.function f')
  | native {stamp : Stamp} {n : Native} (h : L.natives n) :
    Value.Alike L (.native stamp n) (.native stamp n)
  | classValue {c c' : Class} (h : c.Alike L c') : Value.Alike L (.classValue c) (.classValue c')

/-- Entries under one key whose values differ only in places. -/
inductive Entry.Alike (L : Likeness) : String × Value → String × Value → Prop
  | mk {key : String} {v v' : Value} (h : Value.Alike L v v') : Entry.Alike L (key, v) (key, v')

end

/-- Objects' properties that differ only in places. -/
abbrev Properties.Alike (L : Likeness) : Properties → Properties → Prop := List.Forall₂ (Entry.Alike L)

/-- Operations that fail with one fault, or succeed with related outcomes. -/
inductive Settled {α β : Type} (R : α → β → Prop) :
    Except RuntimeFault α → Except RuntimeFault β → Prop
  | ok {a : α} {b : β} (h : R a b) : Settled R (.ok a) (.ok b)
  | error (fault : RuntimeFault) : Settled R (.error fault) (.error fault)

/-- An operation and itself. -/
theorem Settled.refl {α : Type} (x : Except RuntimeFault α) : Settled Eq x x := by
  cases x with
  | error fault => exact .error fault
  | ok a => exact .ok rfl

namespace Value.Alike

/-! ## What is shown of a value -/

theorem kind {v v' : Value} (h : v.Alike L v') : v'.kind = v.kind := by
  cases h <;> rfl

theorem isNative {v v' : Value} (h : v.Alike L v') : v'.isNative = v.isNative := by
  cases h <;> rfl

theorem isTruthy {v v' : Value} (h : v.Alike L v') : v'.isTruthy = v.isTruthy := by
  cases h with
  | array h | object h => cases h <;> rfl
  | _ => rfl

end Value.Alike

namespace Value

mutual

/-- Values that are alike have the same text. -/
theorem text_alike (v v' : Value) (h : v.Alike L v') : v'.text = v.text := by
  cases h with
  | null | number | string | bool | native => rfl
  | array h => rw [text, text, elementsText_alike _ _ h]
  | object h =>
    have entries := propertiesText_alike _ _ h
    cases h with
    | nil => rfl
    | cons first rest => rw [text, text, entries]
  | function h => exact h.declaration.shownName
  | classValue h => exact congrArg ("class " ++ ·) h.layer.declaration.name

theorem elementsText_alike (vs vs' : List Value) (h : List.Forall₂ (Value.Alike L) vs vs') :
    elementsText vs' = elementsText vs := by
  cases h with
  | nil => rfl
  | cons first rest =>
    have head := text_alike _ _ first
    have tail := elementsText_alike _ _ rest
    cases rest with
    | nil => exact head
    | cons => exact congrArg₂ (· ++ ", " ++ ·) head tail

theorem propertiesText_alike (ps ps' : List (String × Value)) (h : List.Forall₂ (Entry.Alike L) ps ps') :
    propertiesText ps' = propertiesText ps := by
  cases h with
  | nil => rfl
  | cons first rest =>
    cases first with
    | @mk key v v' first =>
      have head := text_alike _ _ first
      have tail := propertiesText_alike _ _ rest
      cases rest with
      | nil => exact congrArg (key ++ ": " ++ ·) head
      | cons => exact congrArg₂ (key ++ ": " ++ · ++ ", " ++ ·) head tail

end

mutual

/-- Values that are alike have the same structured form. -/
theorem toJson_alike (v v' : Value) (h : v.Alike L v') : v'.toJson = v.toJson := by
  cases h with
  | null | number | string | bool | native => rfl
  | array h => exact congrArg Json.arr (elementsJson_alike _ _ h)
  | object h => exact congrArg Json.obj (propertiesJson_alike _ _ h)
  | function h => exact congrArg Json.str h.declaration.shownName
  | classValue h => exact congrArg (fun name => Json.str ("class " ++ name)) h.layer.declaration.name

theorem elementsJson_alike (vs vs' : List Value) (h : List.Forall₂ (Value.Alike L) vs vs') :
    elementsJson vs' = elementsJson vs := by
  cases h with
  | nil => rfl
  | cons first rest => exact congrArg₂ _ (toJson_alike _ _ first) (elementsJson_alike _ _ rest)

theorem propertiesJson_alike (ps ps' : List (String × Value)) (h : List.Forall₂ (Entry.Alike L) ps ps') :
    propertiesJson ps' = propertiesJson ps := by
  cases h with
  | nil => rfl
  | cons first rest =>
    cases first with
    | @mk key v v' first =>
      have head := toJson_alike _ _ first
      have tail := propertiesJson_alike _ _ rest
      exact congrArg₂ (fun a b => (key, a) :: b) head tail

end

/-! ## Equality -/

theorem same_alike {v v' w w' : Value} (hv : v.Alike L v') (hw : w.Alike L w') :
    same v' w' = same v w := by
  cases hv with
  | function hf =>
    cases hw with
    | function hg => simp only [same, hf.stamp, hg.stamp]
    | _ => rfl
  | classValue hc =>
    cases hw with
    | classValue hd => simp only [same, hc.layer.stamp, hd.layer.stamp]
    | _ => rfl
  | _ => cases hw <;> rfl

end Value

namespace Value.Alike

variable {vs vs' : List Value}

/-- The element at a place, null where there is none. -/
theorem element (h : List.Forall₂ (Value.Alike L) vs vs') (place : Nat) :
    Value.Alike L (vs[place]?.getD .null) (vs'[place]?.getD .null) := by
  induction h generalizing place with
  | nil => exact .null
  | cons first rest ih =>
    cases place with
    | zero => exact first
    | succ place => exact ih place

theorem set (h : List.Forall₂ (Value.Alike L) vs vs') (place : Nat) {v v' : Value} (hv : v.Alike L v') :
    List.Forall₂ (Value.Alike L) (vs.set place v) (vs'.set place v') := by
  induction h generalizing place with
  | nil => exact .nil
  | cons first rest ih =>
    cases place with
    | zero => exact .cons hv rest
    | succ place => exact .cons first (ih place)

end Value.Alike

namespace Properties.Alike

variable {ps ps' : Properties}

theorem get? (h : Properties.Alike L ps ps') (key : String) :
    Option.Rel (Value.Alike L) (Properties.get? key ps) (Properties.get? key ps') := by
  induction h with
  | nil => exact .none
  | cons first rest ih =>
    cases first with
    | mk first =>
      unfold Properties.get?
      split
      · exact .some first
      · exact ih

theorem has (h : Properties.Alike L ps ps') (key : String) :
    Properties.has key ps' = Properties.has key ps := by
  have found := h.get? key
  unfold Properties.has
  generalize Properties.get? key ps = before, Properties.get? key ps' = after at found
  cases found <;> rfl

theorem insert (h : Properties.Alike L ps ps') (key : String) {v v' : Value} (hv : v.Alike L v') :
    Properties.Alike L (Properties.insert key v ps) (Properties.insert key v' ps') := by
  induction h with
  | nil => exact .cons (.mk hv) .nil
  | cons first rest ih =>
    cases first with
    | mk first =>
      unfold Properties.insert
      split
      · exact .cons (.mk hv) rest
      · split
        · exact .cons (.mk hv) (.cons (.mk first) rest)
        · exact .cons (.mk first) ih

theorem keys (h : Properties.Alike L ps ps') :
    List.Forall₂ (Value.Alike L) (ps.map (.string ·.1)) (ps'.map (.string ·.1)) := by
  induction h with
  | nil => exact .nil
  | cons first rest ih =>
    cases first with
    | mk first => exact .cons (.string _) ih

theorem values (h : Properties.Alike L ps ps') :
    List.Forall₂ (Value.Alike L) (ps.map (·.2)) (ps'.map (·.2)) := by
  induction h with
  | nil => exact .nil
  | cons first rest ih =>
    cases first with
    | mk first => exact .cons first ih

end Properties.Alike

namespace Value

theorem sameProperties_alike {ps ps' qs qs' : Properties} (hp : Properties.Alike L ps ps')
    (hq : Properties.Alike L qs qs') : sameProperties ps' qs' = sameProperties ps qs := by
  unfold sameProperties
  rw [hp.length_eq, hq.length_eq]
  congr 1
  induction hp with
  | nil => rfl
  | cons first rest ih =>
    cases first with
    | @mk key v v' first =>
      rw [List.all_cons, List.all_cons, ih]
      congr 1
      have found := hq.get? key
      dsimp only
      generalize Properties.get? key qs = before, Properties.get? key qs' = after at found ⊢
      cases found with
      | none => rfl
      | some h => exact same_alike first h

/-- The equality of programs does not tell apart values that are alike. -/
theorem equal_alike {v v' w w' : Value} (hv : v.Alike L v') (hw : w.Alike L w') :
    equal v' w' = equal v w := by
  have loosely : looselyEqual v' w' = looselyEqual v w := by
    cases hv with
    | object hp =>
      cases hw with
      | object hq => exact sameProperties_alike hp hq
      | _ => rfl
    | _ => exact same_alike (by constructor <;> assumption) hw
  rw [equal, equal, hv.isNative, hw.isNative, loosely]

end Value

end ScriptLang
