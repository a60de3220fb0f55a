/-
# ScriptLang.Text.Lines — the lines of a text.

A line ends at a line feed, and the one carriage return before that line feed belongs to the ending.  A
last line without a line feed keeps its carriage returns; an empty rest is no line.
-/

namespace ScriptLang.Text

/-- The stretches between the line feeds of a text, one more than there are line feeds. -/
def stretches : List Char → List (List Char)
  | [] => [[]]
  | c :: cs =>
    if c = '\n' then [] :: stretches cs
    else
      match stretches cs with
      | [] => [[c]]
      | s :: rest => (c :: s) :: rest

/-- A line without the carriage return of its ending. -/
def dropReturn (line : List Char) : List Char :=
  if line.getLast? = some '\r' then line.dropLast else line

/-- The lines of a text. -/
def lines (s : String) : List (List Char) :=
  let parts := stretches s.toList
  parts.dropLast.map dropReturn ++ parts.getLast?.toList.filter (!·.isEmpty)

theorem stretches_ne_nil (cs : List Char) : stretches cs ≠ [] := by
  cases cs with
  | nil => simp [stretches]
  | cons c cs => unfold stretches; split <;> (try split) <;> simp

theorem length_stretches (cs : List Char) : (stretches cs).length = cs.count '\n' + 1 := by
  induction cs with
  | nil => rfl
  | cons c cs ih =>
    unfold stretches
    split
    · next h => simp [h, ih]
    · next h =>
      split
      · next hs => exact absurd hs (stretches_ne_nil cs)
      · next s rest hs => rw [hs] at ih; simpa [List.count_cons, h] using ih

end ScriptLang.Text
