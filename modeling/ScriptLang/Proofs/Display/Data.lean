/-
# ScriptLang.Proofs.Display.Data — data, as trees and as text.

Data is null, truth values, finite numbers that are not below zero, strings without quotes, and arrays and
objects of data, whose keys are names.  Its tree is the literal for it, where null and the truth values are
names of constants.  The text of data is scanned as the tokens of that tree: by induction on the data, each
part before what stands after it.
-/
import ScriptLang.Value.Text
import ScriptLang.Proofs.Display.Scan
import ScriptLang.Proofs.Syntax.ReadBack

namespace ScriptLang

/-! ## Data -/

/-- Data that a program can write as a literal.  The keys of an object are distinct and in order, as they are
in every object. -/
inductive Value.IsData : Value → Prop
  | null : IsData .null
  | bool (b : Bool) : IsData (.bool b)
  | number {x : Float} (finite : Binary64.isFinite x) (notBelow : ¬x < 0.0) : IsData (.number x)
  | string {s : String} (noQuote : '"' ∉ s.toList) : IsData (.string s)
  | array (stamp : Stamp) {vs : List Value} (elements : ∀ v ∈ vs, IsData v) : IsData (.array stamp vs)
  | object (stamp : Stamp) {ps : List (String × Value)} (ordered : (ps.map Prod.fst).Pairwise (· < ·))
    (keys : ∀ p ∈ ps, Kind.identifier.Spells p.1.toList) (values : ∀ p ∈ ps, IsData p.2) :
    IsData (.object stamp ps)

/-- Numbers written in the plain layout where it reads back, and else as their exact values. -/
def Numerals.plain : Numerals where
  text x :=
    if Binary64.isFinite x ∧ Binary64.isNegative x = false then Number.text x else Number.numeral x
  reads x := by
    split
    · next plain => rw [Number.read?_text plain.1 (.inl plain.2), Number.unsigned_of_clear plain.2]
    · exact Number.read?_numeral x

theorem Numerals.plain_unsigned {x : Float} (finite : Binary64.isFinite x)
    (clear : Binary64.isNegative x = false ∨ Binary64.magnitude x = 0) :
    Numerals.plain.text (Number.unsigned x) = Number.text x := by
  exact (if_pos (Number.isFinite_unsigned finite clear)).trans (Number.text_unsigned finite clear)

namespace Value

/-! ## Trees -/

mutual

/-- The literal for data. -/
def literal : Value → Expr
  | null => .identifier .nowhere "null"
  | bool b => .identifier .nowhere (if b then "true" else "false")
  | number x => .number .nowhere (Number.unsigned x)
  | string s => .string .nowhere s
  | array _ vs => .array .nowhere (literals vs)
  | object _ ps => .object .nowhere (entries ps)
  | function _ | native _ _ | classValue _ => .null .nowhere

/-- The literals for elements. -/
def literals : List Value → List Expr
  | [] => []
  | v :: rest => literal v :: literals rest

/-- The entries of an object literal for properties. -/
def entries : List (String × Value) → List Property
  | [] => []
  | (key, v) :: rest => ⟨key, some (literal v), .nowhere⟩ :: entries rest

end

/-- The entry of an object literal for a property. -/
def entry (p : String × Value) : Property := ⟨p.1, some p.2.literal, .nowhere⟩

@[simp] theorem literals_eq_map (vs : List Value) : literals vs = vs.map literal := by
  induction vs with
  | nil => rfl
  | cons v rest ih => rw [literals, ih, List.map_cons]

@[simp] theorem entries_eq_map (ps : List (String × Value)) : entries ps = ps.map entry := by
  induction ps with
  | nil => rfl
  | cons p rest ih => rw [entries, ih, List.map_cons, entry]

theorem literal_isFunction (v : Value) : v.literal.isFunction = false := by
  cases v <;> rfl

theorem IsData.literal_isWellFormed {v : Value} (h : v.IsData) : v.literal.isWellFormed := by
  induction h with
  | null | bool | number | string => rfl
  | array stamp elements ih => simpa [literal, Expr.isWellFormed] using ih
  | object stamp ordered keys values ih =>
    simpa [literal, Expr.isWellFormed, entry, Property.isWellFormed, valueIsWellFormed] using ih

theorem IsData.literal_bare {v : Value} (h : v.IsData) : v.literal.bare = v.literal := by
  induction h with
  | null | bool | number | string => rfl
  | @array stamp vs elements ih =>
    have same : ∀ v ∈ vs, v.literal.relocate (fun _ => .nowhere) = v.literal := ih
    simpa [literal, Expr.bare, Expr.relocate] using same
  | @object stamp ps ordered keys values ih =>
    have same : ∀ p ∈ ps, (entry p).relocate (fun _ => .nowhere) = entry p := fun p hp =>
      congrArg (Property.mk p.1 · .nowhere) (congrArg some (ih p hp))
    simpa [literal, Expr.bare, Expr.relocate] using same

/-! ## Texts -/

theorem elementsText_toList (vs : List Value) :
    (elementsText vs).toList = Token.commaText (vs.map fun v => v.text.toList) := by
  induction vs with
  | nil => rfl
  | cons v rest ih =>
    cases rest with
    | nil => rfl
    | cons w rest =>
      rw [elementsText, String.toList_append, String.toList_append, ih, List.append_assoc]
      · rfl
      · nofun

theorem array_text (stamp : Stamp) (vs : List Value) :
    (array stamp vs).text.toList = ['['] ++ (Token.commaText (vs.map fun v => v.text.toList) ++ [']']) := by
  simp [text, elementsText_toList]

/-- A key, a colon and the text of a value. -/
def entryText (p : String × Value) : List Char := p.1.toList ++ ':' :: ' ' :: p.2.text.toList

theorem propertiesText_toList (ps : List (String × Value)) :
    (propertiesText ps).toList = Token.commaText (ps.map entryText) := by
  induction ps with
  | nil => rfl
  | cons p rest ih =>
    obtain ⟨key, v⟩ := p
    cases rest with
    | nil =>
      rw [propertiesText, String.toList_append, String.toList_append, List.append_assoc]
      rfl
    | cons q rest =>
      rw [propertiesText, String.toList_append, String.toList_append, String.toList_append, ih]
      · simp [Token.commaText, entryText]
      · nofun

/-- The properties of an object stand between blanks, if there are any. -/
theorem object_text (stamp : Stamp) {ps : List (String × Value)} (some : ps ≠ []) :
    (object stamp ps).text.toList =
      ['\x7b'] ++ ((' ' :: (Token.commaText (ps.map entryText) ++ [' '])) ++ ['\x7d']) := by
  obtain ⟨p, rest, rfl⟩ := List.exists_cons_of_ne_nil some
  simp [text, propertiesText_toList]

/-! ## Scans -/

open Token (ScansAs Anything Apart)

variable {v : Value}

/-- The constants of the language are names. -/
theorem constant_scans (h : v = .null ∨ v = .bool true ∨ v = .bool false) :
    ScansAs v.text.toList (v.literal.spelling .plain) Apart := by
  have null : Kind.identifier.Spells "null".toList :=
    Kind.identifier_spells (by decide) (by decide) (by decide +kernel)
  have yes : Kind.identifier.Spells "true".toList :=
    Kind.identifier_spells (by decide) (by decide) (by decide +kernel)
  have no : Kind.identifier.Spells "false".toList :=
    Kind.identifier_spells (by decide) (by decide) (by decide +kernel)
  rcases h with rfl | rfl | rfl
  · exact ScansAs.name null
  · exact ScansAs.name yes
  · exact ScansAs.name no

theorem entry_scans {p : String × Value} (key : Kind.identifier.Spells p.1.toList)
    (value : ScansAs p.2.text.toList (p.2.literal.spelling .plain) Apart) :
    ScansAs (entryText p) ((entry p).spelling .plain) Apart := by
  have colon : ScansAs [':'] [.ofSign .colon] Anything := ScansAs.sign (s := .colon) (by decide)
  exact (ScansAs.name key).append (colon.then_ (ScansAs.blank.then_ value)) fun _ _ =>
    .of_cons (by decide) _

theorem array_scans (stamp : Stamp) {vs : List Value}
    (elements : ∀ v ∈ vs, ScansAs v.text.toList (v.literal.spelling .plain) Apart) :
    ScansAs (array stamp vs).text.toList ((array stamp vs).literal.spelling .plain) Apart := by
  have items : ∀ i ∈ vs.map fun v => (v.text.toList, v.literal.spelling .plain), ScansAs i.1 i.2 Apart := by
    simpa using elements
  have inner := ScansAs.commaText items
  rw [List.map_map, List.map_map] at inner
  have tokens : (array stamp vs).literal.spelling .plain =
      bracketed (separated (vs.map fun v => v.literal.spelling .plain)) := by
    simp [literal, Expr.spelling, exprSpellings_eq_map, Function.comp_def]
  rw [array_text, tokens]
  exact inner.bracketed

theorem object_scans (stamp : Stamp) {ps : List (String × Value)}
    (entries : ∀ p ∈ ps, ScansAs (entryText p) ((entry p).spelling .plain) Apart) :
    ScansAs (object stamp ps).text.toList ((object stamp ps).literal.spelling .plain) Apart := by
  have items : ∀ i ∈ ps.map fun p => (entryText p, (entry p).spelling .plain), ScansAs i.1 i.2 Apart := by
    intro i hi
    obtain ⟨p, hp, rfl⟩ := List.mem_map.1 hi
    exact entries p hp
  have inner := ScansAs.commaText items
  rw [List.map_map, List.map_map] at inner
  have tokens : (object stamp ps).literal.spelling .plain =
      braced (separated (ps.map fun p => (entry p).spelling .plain)) := by
    simp [literal, Expr.spelling, propertySpellings_eq_map, Function.comp_def]
  rw [tokens]
  by_cases some : ps = []
  · subst some
    have noText : (object stamp []).text.toList = ['\x7b'] ++ ([] ++ ['\x7d']) := by simp [text]
    rw [noText]
    exact ScansAs.nil.braced
  · have spaced := ScansAs.blank.then_ (inner.append ScansAs.blank fun after _ => .of_cons (by decide) after)
    have scans := (spaced.mono fun _ _ => trivial).braced
    simp only [List.nil_append, List.append_nil] at scans
    rw [object_text stamp some]
    exact scans

/-- The text of data is scanned as its literal. -/
theorem IsData.text_scans (h : v.IsData) : ScansAs v.text.toList (v.literal.spelling .plain) Apart := by
  induction h with
  | null => exact constant_scans (.inl rfl)
  | bool b => exact constant_scans (.inr (by cases b <;> simp))
  | @number x finite notBelow =>
    have clear := Number.clear_or_zero finite notBelow
    obtain ⟨d, plain, -⟩ := Number.plain_text finite clear
    have scans := ScansAs.numeral plain
    rw [String.ofList_toList, ← Numerals.plain_unsigned finite clear] at scans
    rw [text, ← Numerals.plain_unsigned finite clear]
    exact scans
  | @string s noQuote =>
    have inside : ∀ x ∈ s.toList, x ≠ '"' := fun x hx quote => noQuote (quote ▸ hx)
    have scans := ScansAs.text inside
    rw [String.ofList_toList] at scans
    have quoted : (Value.string s).text.toList = '"' :: (s.toList ++ ['"']) := by simp [text]
    rw [quoted]
    exact scans.mono fun _ _ => trivial
  | array stamp elements ih => exact array_scans stamp ih
  | object stamp ordered keys values ih =>
    exact object_scans stamp fun p hp => entry_scans (keys p hp) (ih p hp)

/-- The text of data is read as a program of one statement, the literal for it. -/
theorem IsData.text_read (h : v.IsData) :
    ∃ q, Program.ofSource? v.text = .ok q ∧ q.bare = [.expression .nowhere v.literal] := by
  obtain ⟨ts, spelled, scanned⟩ := h.text_scans .start [] (by simp [Apart])
  have scan : Token.scan v.text = .ok (ts ++ [⟨.eof, "", (Cursor.start.past v.text.toList).span 0⟩]) := by
    rw [List.append_nil, Token.scanFrom.eq_1] at scanned
    exact scanned
  generalize ended : (⟨.eof, "", (Cursor.start.past v.text.toList).span 0⟩ : Token) = last at scan
  obtain ⟨q, parsed, same⟩ := Program.expression_reads_back .plain h.literal_isWellFormed
    v.literal_isFunction spelled (ended ▸ rfl : last.kind = .eof)
  refine ⟨q, ?_, ?_⟩
  · simp only [Program.ofSource?, scan, parsed]
  · rw [same, h.literal_bare]

end Value

end ScriptLang
