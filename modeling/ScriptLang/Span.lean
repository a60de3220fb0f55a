/-
# ScriptLang.Span — where a piece of source text stands.

A span names a line, a column and a length, all counted in Unicode scalar values.  A cursor walks over
a source from its first character and knows at each moment the line it is on and where that line
began; every span is taken from a cursor.
-/

namespace ScriptLang

/-- A run of characters of a source.  Lines and columns count from one. -/
structure Span where
  line : Nat
  col : Nat
  length : Nat
deriving DecidableEq, Repr, Inhabited

namespace Span

/-- The start of a span as `line:column`. -/
def text (s : Span) : String := toString s.line ++ ":" ++ toString s.col

/-- The same run in a source that has `lines` more lines before it. -/
def lower (lines : Nat) (s : Span) : Span := { s with line := s.line + lines }

end Span

/-- A place between two characters of a source: how many characters stand before it, the number of its
line, and how many characters stand before that line. -/
structure Cursor where
  offset : Nat
  line : Nat
  lineStart : Nat
deriving DecidableEq, Repr

namespace Cursor

/-- The place before the first character. -/
def start : Cursor := ⟨0, 1, 0⟩

/-- The place after one more character.  Only a line feed begins a new line. -/
def step (k : Cursor) (c : Char) : Cursor :=
  if c = '\n' then ⟨k.offset + 1, k.line + 1, k.offset + 1⟩ else { k with offset := k.offset + 1 }

/-- The place after a whole text. -/
def past (k : Cursor) (cs : List Char) : Cursor := cs.foldl step k

/-- The column of the next character. -/
def col (k : Cursor) : Nat := k.offset - k.lineStart + 1

/-- The span of `length` characters that begins here. -/
def span (k : Cursor) (length : Nat) : Span := ⟨k.line, k.col, length⟩

@[simp] theorem past_nil (k : Cursor) : k.past [] = k := rfl

@[simp] theorem past_cons (k : Cursor) (c : Char) (cs : List Char) :
    k.past (c :: cs) = (k.step c).past cs := rfl

theorem past_append (k : Cursor) (cs ds : List Char) : k.past (cs ++ ds) = (k.past cs).past ds :=
  List.foldl_append

end Cursor

end ScriptLang
