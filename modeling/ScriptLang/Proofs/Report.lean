/-
# ScriptLang.Proofs.Report — a report points at the fault.

The scanner counts line feeds as it goes; a report cuts its source into lines, which lose their endings.
The two meet in one fact: where the character at a place is no line feed, what the report quotes for the
line of that place begins with all that stands before the place on its line.  So the carets stand below the
character that the error is about.

For a scan error that character is the one found.  A parse error has the span of a token, since the reader
never makes a span of its own, and what stands at the place of a token is its lexeme.
-/
import ScriptLang.Proofs.Syntax.Placement
import ScriptLang.Proofs.Token.Fault
import ScriptLang.Report
import ScriptLang.Syntax.Grammar
import Mathlib

namespace ScriptLang

/-! ## Lines -/

namespace Text

/-- What stands above the line with a number: nothing, or a text that ends with a line feed. -/
structure Above (n : Nat) (above : List Char) : Prop where
  ended : above = [] ∨ above.getLast? = some '\n'
  number : n = above.count '\n' + 1

/-- A text has this line with this number.  A line feed ends a line, with a carriage return before it if
there is one; the last line ends with the text, and it is empty if the text ends just before it. -/
inductive IsLine (n : Nat) : List Char → List Char → Prop
  | last {above line : List Char} : Above n above → '\n' ∉ line → IsLine n (above ++ line) line
  | feed {above line below : List Char} : Above n above → '\n' ∉ line → line.getLast? ≠ some '\r' →
      IsLine n (above ++ (line ++ '\n' :: below)) line
  | returnFeed {above line below : List Char} : Above n above → '\n' ∉ line →
      IsLine n (above ++ (line ++ '\r' :: '\n' :: below)) line

variable {n : Nat} {above raw : List Char}

theorem stretches_append_feed (a b : List Char) : stretches (a ++ '\n' :: b) = stretches a ++ stretches b := by
  induction a with
  | nil => rfl
  | cons c cs ih =>
    rw [List.cons_append, stretches, stretches]
    by_cases feed : c = '\n'
    · rw [if_pos feed, if_pos feed, ih, List.cons_append]
    · rw [if_neg feed, if_neg feed, ih]
      cases first : stretches cs with
      | nil => exact absurd first (stretches_ne_nil cs)
      | cons s rest => rfl

theorem stretches_of_free (free : '\n' ∉ raw) : stretches raw = [raw] := by
  induction raw with
  | nil => rfl
  | cons c cs ih =>
    obtain ⟨other, free⟩ := not_or.1 (mt List.mem_cons.2 free)
    rw [stretches, if_neg (Ne.symm other), ih free]

theorem Above.stretches (h : Above n above) (rest : List Char) :
    ∃ front, Text.stretches (above ++ rest) = front ++ Text.stretches rest ∧ front.length = n - 1 := by
  obtain ⟨rfl | feed, rfl⟩ := h
  · exact ⟨[], rfl, rfl⟩
  · obtain ⟨above, rfl⟩ := List.getLast?_eq_some_iff.1 feed
    refine ⟨Text.stretches above, ?_, ?_⟩
    · rw [List.append_assoc, List.singleton_append, stretches_append_feed]
    · rw [length_stretches]
      simp

/-- A last line is quoted as it is, also if it is empty and so not among the lines. -/
theorem lines_last {s : String} (h : Above n above) (free : '\n' ∉ raw) (whole : s.toList = above ++ raw) :
    (lines s)[n - 1]?.getD [] = raw := by
  obtain ⟨front, parts, length⟩ := h.stretches raw
  rw [stretches_of_free free, ← whole] at parts
  rw [lines, parts, ← length]
  cases raw with
  | nil => simp
  | cons c cs => simp

theorem lines_feed {s : String} (h : Above n above) (free : '\n' ∉ raw) {below : List Char}
    (whole : s.toList = above ++ (raw ++ '\n' :: below)) : (lines s)[n - 1]? = some (dropReturn raw) := by
  obtain ⟨front, parts, length⟩ := h.stretches (raw ++ '\n' :: below)
  rw [stretches_append_feed, stretches_of_free free, ← whole] at parts
  have more : Text.stretches below ≠ [] := stretches_ne_nil below
  rw [lines, parts, ← length, List.singleton_append, List.dropLast_append_of_ne_nil (List.cons_ne_nil _ _),
    List.dropLast_cons_of_ne_nil more]
  simp

/-- What stands before a place is what is above its line and the start of that line. -/
theorem exists_above (before : List Char) : ∃ above start, before = above ++ start ∧
    Above (1 + before.count '\n') above ∧ '\n' ∉ start ∧
    start.length = (before.reverse.takeWhile (· != '\n')).length := by
  have parts := List.takeWhile_append_dropWhile (p := (· != '\n')) (l := before.reverse)
  have free : '\n' ∉ (before.reverse.takeWhile (· != '\n')).reverse := by
    intro feed
    have other := List.mem_takeWhile_imp (List.mem_reverse.1 feed)
    simp at other
  have whole : before =
      (before.reverse.dropWhile (· != '\n')).reverse ++ (before.reverse.takeWhile (· != '\n')).reverse := by
    rw [← List.reverse_append, parts, List.reverse_reverse]
  refine ⟨_, _, whole, ⟨?_, ?_⟩, free, List.length_reverse⟩
  · rw [List.getLast?_reverse, List.reverse_eq_nil_iff]
    cases rest : before.reverse.dropWhile (· != '\n') with
    | nil => exact .inl rfl
    | cons c cs =>
      have feed := List.head?_dropWhile_not (· != '\n') before.reverse
      rw [rest] at feed
      exact .inr (by simpa using feed)
  · conv => lhs; rw [whole]
    rw [List.count_append, List.count_eq_zero_of_not_mem free]
    omega

end Text

namespace Report

open Text

variable {source : String} {before after : List Char} {span : Span}

/-- Where the character at a place is no line feed, the line that is quoted for the place is the line of
the source, and it begins with what stands before the place on it. -/
theorem quotedLine_isLine (whole : source.toList = before ++ after) (next : after.head? ≠ some '\n')
    (place : span.line = 1 + before.count '\n') :
    IsLine span.line source.toList (quotedLine source span) ∧
      (before.reverse.takeWhile (· != '\n')).length ≤ (quotedLine source span).length := by
  obtain ⟨above, start, rfl, isAbove, free, length⟩ := exists_above before
  rw [← length]
  rw [← place] at isAbove
  -- the line goes on up to the next line feed, if there is one
  have parts := List.takeWhile_append_dropWhile (p := (· != '\n')) (l := after)
  have free' : '\n' ∉ after.takeWhile (· != '\n') := by
    intro feed
    have other := List.mem_takeWhile_imp feed
    simp at other
  have found := List.head?_dropWhile_not (· != '\n') after
  generalize after.takeWhile (· != '\n') = tail at parts free'
  have noFeed : '\n' ∉ start ++ tail := by simp [free, free']
  cases rest : after.dropWhile (· != '\n') with
  | nil =>
    rw [rest, List.append_nil] at parts
    subst parts
    rw [List.append_assoc] at whole
    have quoted : quotedLine source span = start ++ tail := lines_last isAbove noFeed whole
    rw [quoted, whole]
    exact ⟨.last isAbove noFeed, by simp⟩
  | cons c below =>
    rw [rest] at found parts
    obtain rfl : c = '\n' := by simpa using found
    subst parts
    have more : tail ≠ [] := by
      rintro rfl
      exact next rfl
    have whole' : source.toList = above ++ ((start ++ tail) ++ '\n' :: below) := by simp [whole]
    have quoted : quotedLine source span = dropReturn (start ++ tail) := by
      rw [quotedLine, lines_feed isAbove noFeed whole']
      rfl
    rw [quoted, whole', dropReturn]
    by_cases ending : (start ++ tail).getLast? = some '\r'
    · rw [if_pos ending]
      obtain ⟨line, same⟩ := List.getLast?_eq_some_iff.1 ending
      rw [same] at noFeed ⊢
      rw [List.dropLast_concat, List.append_assoc, List.singleton_append]
      have noFeed' : '\n' ∉ line := fun feed => noFeed (List.mem_append_left _ feed)
      refine ⟨.returnFeed isAbove noFeed', ?_⟩
      have some := List.length_pos_iff.2 more
      have lengths := congrArg List.length same
      simp only [List.length_append, List.length_singleton] at lengths
      omega
    · rw [if_neg ending]
      exact ⟨.feed isAbove noFeed ending, by simp⟩

/-! ## Faults -/

/-- A text begins with what an error of the source is about: the character that the scan found, or the
lexeme of the token whose span the error has.  At the end of the source it is empty. -/
inductive Offends (source : String) (after : List Char) : Error → Prop
  | scan {e : ScanError} (found : after.head? = some e.found) : Offends source after (.scan e)
  | parse {e : ParseError} {ts : List Token} (scanned : Token.scan source = .ok ts)
    (some : ∃ t ∈ ts, t.span = e.span)
    (all : ∀ t ∈ ts, t.span = e.span →
      t.kind = .eof ∧ after = [] ∨ t.kind ≠ .eof ∧ t.lexeme ≠ [] ∧ t.lexeme <+: after) :
    Offends source after (.parse e)

/-- The fault of an error of the source is where its span says, and not at the end of a line. -/
structure FaultStands (source : String) (e : Error) (before after : List Char) : Prop where
  whole : source.toList = before ++ after
  span : e.span = .behind before e.span.length
  offends : Offends source after e
  noFeed : after.head? ≠ some '\n'

theorem faultStands_of_scan {e : ScanError} (h : Token.scan source = .error e) :
    ∃ before after, FaultStands source (.scan e) before after := by
  obtain ⟨before, rest, whole, place, -, fault, -⟩ := Token.scanFrom_fault h
  refine ⟨before, e.found :: rest, whole, ?_, .scan rfl, ?_⟩
  · rw [Cursor.span_past] at place
    show e.span = .behind before e.span.length
    rw [place]
    rfl
  · intro feed
    exact fault.not_feed (Option.some.inj feed)

theorem faultStands_of_tokens {ts : List Token} (scanned : Token.scan source = .ok ts) {e : ParseError}
    (h : Program.ofTokens? ts = .error e) : ∃ before after, FaultStands source (.parse e) before after := by
  have some : ts ≠ [] := (Token.scans_of_scanFrom scanned).ne_nil
  obtain ⟨t, ht, at_⟩ := Program.error_at_token some h
  have tiles : Token.Tiles [] source.toList ts := Token.tiles_of_scanFrom scanned rfl
  have places := tiles.place
  obtain ⟨before, behind, whole, span, kind⟩ := places t ht
  rw [List.nil_append] at whole
  refine ⟨before, t.lexeme ++ behind, whole, ?_, .parse scanned ⟨t, ht, at_⟩ ?_, ?_⟩
  · show e.span = .behind before e.span.length
    rw [← at_, span]
    rfl
  · intro u hu same
    obtain ⟨before', behind', whole', span', kind'⟩ := places u hu
    rw [List.nil_append] at whole'
    -- a token with the same span stands at the same place
    have one : Span.behind before t.lexeme.length = .behind before' u.lexeme.length := by
      rw [← span, ← span', at_, same]
    obtain rfl := Span.behind_injective (whole.symm.trans whole') one
    have text := List.append_cancel_left (whole.symm.trans whole')
    rw [text]
    rcases kind' with ⟨eof, none, rfl⟩ | spelled
    · exact .inl ⟨eof, by rw [none]; rfl⟩
    · exact .inr ⟨spelled.kind_ne_eof, spelled.ne_nil, List.prefix_append _ _⟩
  · rcases kind with ⟨-, none, rfl⟩ | spelled
    · simp [none]
    · obtain ⟨c, cs, text⟩ := List.exists_cons_of_ne_nil spelled.ne_nil
      rw [text] at spelled ⊢
      intro feed
      exact spelled.not_feed (Option.some.inj feed)

theorem faultStands {e : Error} (h : Program.ofSource? source = .error e) :
    ∃ before after, FaultStands source e before after := by
  unfold Program.ofSource? at h
  split at h
  · next e' failed =>
    cases h
    exact faultStands_of_scan failed
  · next ts scanned =>
    split at h
    · next e' failed =>
      cases h
      exact faultStands_of_tokens scanned failed
    · cases h

/-! ## Rows -/

/-- The room to the left of the bars. -/
def margin (e : Error) : String := flushRight (toString e.span.line).length " "

/-- What a report says above the line that it quotes. -/
def heading (e : Error) : String :=
  "error[" ++ e.label ++ "]: " ++ e.message ++ "\n" ++
    margin e ++ "--> line " ++ e.span.text ++ "\n" ++
    margin e ++ " |\n"

/-- What a report says below the carets. -/
def footing (e : Error) : String :=
  match hint? e.message with
  | none => ""
  | some text => margin e ++ " |\n" ++ margin e ++ " = hint: " ++ text ++ "\n"

theorem ofError_rows (source : String) (e : Error) :
    ofError source e = heading e ++
      (toString e.span.line ++ " | " ++ String.ofList (quotedLine source e.span) ++ "\n") ++
      (margin e ++ " | " ++ String.ofList
        (padding (quotedLine source e.span) e.span.col ++ List.replicate (max e.span.length 1) '^') ++ "\n") ++
      footing e := by
  unfold ofError render heading footing margin
  cases hint? e.message with
  | none => simp only [String.append_assoc]
  | some text => simp only [String.append_assoc]

/-- The padding is as long as it is to be where the line is, and has its tabs. -/
theorem padding_eq {quoted : List Char} {col : Nat} (long : col - 1 ≤ quoted.length) :
    (padding quoted col).length = col - 1 ∧
      ∀ i < col - 1, (padding quoted col)[i]? = some (if quoted[i]? = some '\t' then '\t' else ' ') := by
  constructor
  · simp [padding, long]
  · intro i left
    have inside : i < quoted.length := Nat.lt_of_lt_of_le left long
    simp [padding, left, inside]

/-- A report of an error shows the line of the error and points at its fault. -/
structure PointsAt (source : String) (e : Error) (quoted padding before after : List Char) : Prop where
  rows : ofError source e = heading e ++
    (toString e.span.line ++ " | " ++ String.ofList quoted ++ "\n") ++
    (margin e ++ " | " ++ String.ofList (padding ++ List.replicate (max e.span.length 1) '^') ++ "\n") ++
    footing e
  line : IsLine e.span.line source.toList quoted
  width : padding.length = e.span.col - 1
  tabs : ∀ i < e.span.col - 1, padding[i]? = some (if quoted[i]? = some '\t' then '\t' else ' ')
  whole : source.toList = before ++ after
  span : e.span = .behind before e.span.length
  offends : Offends source after e

/-- The report of a source that is no program quotes the line at which the source fails, and its carets
begin below the fault: the character that cannot be scanned, the first character of the token that cannot
be read, or the end of the source. -/
theorem report_points_at_fault {source : String} {e : Error} (h : Program.ofSource? source = .error e) :
    ∃ quoted padding before after, PointsAt source e quoted padding before after := by
  obtain ⟨before, after, stands⟩ := faultStands h
  have line : e.span.line = 1 + before.count '\n' := by rw [stands.span]; rfl
  have col : e.span.col - 1 = (before.reverse.takeWhile (· != '\n')).length := by
    rw [stands.span]
    exact Nat.add_sub_cancel_left ..
  obtain ⟨isLine, long⟩ := quotedLine_isLine stands.whole stands.noFeed line
  rw [← col] at long
  obtain ⟨width, tabs⟩ := padding_eq long
  exact ⟨quotedLine source e.span, padding (quotedLine source e.span) e.span.col, before, after,
    ofError_rows source e, isLine, width, tabs, stands.whole, stands.span, stands.offends⟩

/-- A string over two lines and, behind a carriage return, a line that begins with a tab and declares
nothing. -/
def namelessSource : String := "let s = \"a\n\tb\";\r\n\tlet = 1\r\n"

def namelessError : Error :=
  .parse ⟨⟨3, 6, 1⟩, .unexpected .identifier (.sign .assign) "=" .afterDeclarator⟩

theorem namelessSource_reported : Program.ofSource? namelessSource = .error namelessError ∧
    ofError namelessSource namelessError =
      "error[parse]: expected identifier after 'let' or 'const', got '=' '='\n" ++
        " --> line 3:6\n  |\n3 | \tlet = 1\n  | \t    ^\n" ∧
    ∃ quoted padding before after, PointsAt namelessSource namelessError quoted padding before after := by
  have failed : Program.ofSource? namelessSource = .error namelessError := by cbv
  exact ⟨failed, by decide +kernel, report_points_at_fault failed⟩

end Report

end ScriptLang
