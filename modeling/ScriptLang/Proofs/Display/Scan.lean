/-
# ScriptLang.Proofs.Display.Scan — texts that are scanned as known tokens.

A text is scanned as given tokens if a scan that comes to it, wherever that is, goes on behind it and has
found these tokens by then.  Words and numbers need something after them that does not go on with them;
brackets, commas, colons, blanks and strings need nothing.  Texts one after another are scanned as their
tokens one after another, so a text is settled part by part.
-/
import ScriptLang.Proofs.Number.Layout
import ScriptLang.Proofs.Syntax.Spelling
import ScriptLang.Proofs.Token.Joined

namespace ScriptLang.Token

/-- Nothing is asked of what follows. -/
def Anything : List Char → Prop := fun _ => True

/-- What follows goes on with no word and no number. -/
def Apart (after : List Char) : Prop := ∀ x ∈ after.head?, Text.isWordChar x = false ∧ x ≠ '.'

/-- Before anything that `before` admits, the text is scanned as tokens that are these but for their
places. -/
def ScansAs (text : List Char) (tokens : List Token) (before : List Char → Prop) : Prop :=
  ∀ here after, before after → ∃ ts, ts.map Token.bare = tokens ∧
    scanFrom here (text ++ after) = (ts ++ ·) <$> scanFrom (here.past text) after

namespace ScansAs

variable {a b : List Char} {ts us : List Token} {before before' : List Char → Prop}

theorem nil : ScansAs [] [] before := by
  intro here after _
  refine ⟨[], rfl, ?_⟩
  simp only [List.nil_append, Cursor.past_nil]
  cases scanFrom here after <;> rfl

theorem append (h : ScansAs a ts before) (h' : ScansAs b us before')
    (k : ∀ after, before' after → before (b ++ after)) : ScansAs (a ++ b) (ts ++ us) before' := by
  intro here after admitted
  obtain ⟨us', rfl, second⟩ := h' (here.past a) after admitted
  obtain ⟨ts', rfl, first⟩ := h here (b ++ after) (k after admitted)
  refine ⟨ts' ++ us', List.map_append, ?_⟩
  rw [List.append_assoc, first, second, Cursor.past_append]
  cases scanFrom ((here.past a).past b) after with
  | error e => rfl
  | ok rest => exact congrArg Except.ok (List.append_assoc ts' us' rest).symm

theorem mono (h : ScansAs a ts before) (k : ∀ after, before' after → before after) : ScansAs a ts before' :=
  fun here after admitted => h here after (k after admitted)

/-- A text that needs nothing after it, and then another one. -/
theorem then_ (h : ScansAs a ts Anything) (h' : ScansAs b us before) : ScansAs (a ++ b) (ts ++ us) before :=
  h.append h' fun _ _ => trivial

/-! ### Pieces -/

theorem blank : ScansAs [' '] [] Anything := by
  intro here after _
  have gap : cut ' ' after = .ok ⟨none, [], after⟩ := rfl
  exact ⟨[], rfl, scanFrom_cons here gap⟩

theorem lexeme {c : Char} {cs : List Char} {kind : Kind}
    (h : ∀ after, before after → cut c (cs ++ after) = .ok ⟨some kind, cs, after⟩) :
    ScansAs (c :: cs) [⟨kind, valueOf kind (c :: cs), .nowhere⟩] before := by
  intro here after admitted
  exact ⟨_, rfl, scanFrom_cons here (h after admitted)⟩

/-- Signs of one character with which no other sign begins. -/
def plainSigns : List Sign := [.leftBrace, .rightBrace, .leftBracket, .rightBracket, .comma, .colon]

theorem sign {s : Sign} (plain : s ∈ plainSigns) : ScansAs s.text.toList [.ofSign s] Anything := by
  simp only [plainSigns, List.mem_cons, List.not_mem_nil, or_false] at plain
  rcases plain with rfl | rfl | rfl | rfl | rfl | rfl
  all_goals exact lexeme fun after _ => by cases after <;> rfl

theorem text {body : List Char} (inside : ∀ x ∈ body, x ≠ '"') :
    ScansAs ('"' :: (body ++ ['"'])) [.ofText (String.ofList body)] Anything := by
  have closed (after : List Char) :
      cut '"' ((body ++ ['"']) ++ after) = .ok ⟨some .string, body ++ ['"'], after⟩ := cutString_body inside
  have value : valueOf .string ('"' :: (body ++ ['"'])) = String.ofList body := by
    simp [valueOf]
  have scans : ScansAs _ _ Anything := lexeme fun after _ => closed after
  rwa [value] at scans

theorem name {name : String} (h : Kind.identifier.Spells name.toList) :
    ScansAs name.toList [.ofName name] Apart := by
  have value : name = String.ofList name.toList := String.ofList_toList.symm
  generalize name.toList = text at h value
  subst value
  have spelled := h
  cases h with
  | @identifier c cs first rest free =>
    obtain ⟨noGap, noQuote⟩ := not_gap (by rw [Text.isWordChar, first]; rfl : Text.isWordChar c)
    have noDigit : c.isDigit = false :=
      Bool.eq_false_iff.2 fun digit => by simp [Text.not_alphabetic_of_digit digit] at first
    have kind : Kind.ofWord (String.ofList (c :: cs)) = .identifier :=
      (Kind.spells_ofWord first rest).unique spelled
    refine lexeme fun after apart => ?_
    obtain ⟨taken, left⟩ := run_ends rest fun x hx => (apart x hx).1
    simp only [cut, noGap, noQuote, noDigit, first, cutWord, taken, left, kind, Bool.false_eq_true, if_false,
      if_true]

theorem numeral {cs : List Char} {d : Decimal} (plain : Number.Plain cs d) :
    ScansAs cs [.ofNumeral (String.ofList cs)] Apart := by
  have stops {after : List Char} (apart : Apart after) : ∀ x ∈ after.head?, isNumberChar x = false := by
    intro x hx
    obtain ⟨other, noPoint⟩ := apart x hx
    simp only [Text.isWordChar, Bool.or_eq_false_iff] at other
    simp [isNumberChar, other.2, noPoint]
  have isNumber {c : Char} {cs : List Char} (digit : c.isDigit)
      (h : ∀ after, Apart after → cutNumber c (cs ++ after) = .ok ⟨some .number, cs, after⟩) :
      ScansAs (c :: cs) [.ofNumeral (String.ofList (c :: cs))] Apart := by
    obtain ⟨noGap, noQuote⟩ := not_gap (by rw [Text.isWordChar, digit, Bool.or_true] : Text.isWordChar c)
    refine lexeme fun after apart => ?_
    simp [cut, noGap, noQuote, digit, h after apart]
  cases plain with
  | whole some digits =>
    obtain ⟨c, cs, rfl⟩ := List.exists_cons_of_ne_nil some
    obtain ⟨first, rest⟩ := List.forall_mem_cons.1 digits
    exact isNumber first fun after apart => cutNumber_whole rest (stops apart)
  | @fraction ds places some digits digits' =>
    obtain ⟨c, cs, rfl⟩ := List.exists_cons_of_ne_nil some
    obtain ⟨first, rest⟩ := List.forall_mem_cons.1 digits
    refine isNumber first fun after apart => ?_
    show cutNumber c ((cs ++ '.' :: places) ++ after) = _
    rw [List.append_assoc, List.cons_append]
    exact cutNumber_fraction rest digits' (stops apart)

end ScansAs

/-! ## Lists -/

/-- Texts with a comma and a blank between them. -/
def commaText : List (List Char) → List Char
  | [] => []
  | [w] => w
  | w :: v :: rest => w ++ ',' :: ' ' :: commaText (v :: rest)

/-- What begins with a blank or with a sign other than a point goes on with nothing. -/
theorem Apart.of_cons {c : Char} (h : Text.isWordChar c = false ∧ c ≠ '.') (rest : List Char) :
    Apart (c :: rest) := by
  rintro x ⟨⟩
  exact h

/-- A text between two signs. -/
theorem ScansAs.enclosed {first last : Sign} (hf : first ∈ plainSigns) (hl : last ∈ plainSigns) {a : List Char}
    {ts : List Token} (h : ScansAs a ts Apart) :
    ScansAs (first.text.toList ++ (a ++ last.text.toList)) (.ofSign first :: ts ++ [.ofSign last]) Apart := by
  have closed (after : List Char) : Apart (last.text.toList ++ after) := by
    simp only [plainSigns, List.mem_cons, List.not_mem_nil, or_false] at hl
    rcases hl with rfl | rfl | rfl | rfl | rfl | rfl
    all_goals exact .of_cons (by decide) after
  exact ((sign hf).then_ (h.append (sign hl) fun after _ => closed after)).mono fun _ _ => trivial

theorem ScansAs.bracketed {a : List Char} {ts : List Token} (h : ScansAs a ts Apart) :
    ScansAs (['['] ++ (a ++ [']'])) (ScriptLang.bracketed ts) Apart :=
  enclosed (by decide : Sign.leftBracket ∈ plainSigns) (by decide : Sign.rightBracket ∈ plainSigns) h

theorem ScansAs.braced {a : List Char} {ts : List Token} (h : ScansAs a ts Apart) :
    ScansAs (['\x7b'] ++ (a ++ ['\x7d'])) (ScriptLang.braced ts) Apart :=
  enclosed (by decide : Sign.leftBrace ∈ plainSigns) (by decide : Sign.rightBrace ∈ plainSigns) h

theorem ScansAs.commaText {items : List (List Char × List Token)} (h : ∀ i ∈ items, ScansAs i.1 i.2 Apart) :
    ScansAs (commaText (items.map Prod.fst)) (separated (items.map Prod.snd)) Apart := by
  induction items with
  | nil => exact nil
  | cons i rest ih =>
    obtain ⟨first, others⟩ := List.forall_mem_cons.1 h
    cases rest with
    | nil => exact first
    | cons j rest =>
      have comma : ScansAs [','] [.ofSign .comma] Anything := sign (by decide)
      exact first.append (comma.then_ (blank.then_ (ih others))) fun after _ => .of_cons (by decide) _

end ScriptLang.Token
