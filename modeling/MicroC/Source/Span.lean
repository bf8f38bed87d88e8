/-!
# Places in a source text

A `Position` is a line and a column, both counted from one. A `Span` is where a piece of text
starts together with the number of bytes it covers. A lexeme never crosses a line end, so the
position just past a span lies on the line where the span starts. Nothing bounds the numbers here.
Counting with 32 bits comes to the same for every source of fewer than `2 ^ 32 - 1` bytes: see
`TextLexer.standing_le` and `Span.Covers.le`.

* `Position.after`: the position reached by reading a text.
* `Span.merge`: the span from the earlier of two starts.
-/

namespace MicroC

/-- A line and a column, both counted from one. -/
structure Position where
  line : Nat
  col : Nat
deriving DecidableEq, Repr, Inhabited

namespace Position

/-- `line:col` -/
def text (p : Position) : String := s!"{p.line}:{p.col}"

/-- The first position of every text. -/
def start : Position := ⟨1, 1⟩

/-- The position after one character: a newline opens the next line. -/
def advance (p : Position) (c : Char) : Position :=
  if c = '\n' then ⟨p.line + 1, 1⟩ else ⟨p.line, p.col + 1⟩

/-- The position after a whole text. -/
def after (p : Position) (cs : List Char) : Position := cs.foldl advance p

@[simp] theorem after_nil (p : Position) : p.after [] = p := rfl

@[simp] theorem after_cons (p : Position) (c : Char) (cs : List Char) :
    p.after (c :: cs) = (p.advance c).after cs := rfl

theorem after_append (p : Position) (cs ds : List Char) :
    p.after (cs ++ ds) = (p.after cs).after ds := by
  simp [after, List.foldl_append]

end Position

/-- Where a piece of source text starts and how many bytes it covers. -/
structure Span where
  line : Nat
  col : Nat
  len : Nat
deriving DecidableEq, Repr, Inhabited

namespace Span

/-- The empty span at a position. -/
def point (line col : Nat) : Span := ⟨line, col, 0⟩

/-- The position of the first character. -/
def start (s : Span) : Position := ⟨s.line, s.col⟩

/-- The position just past the span: its length is added to the column. -/
def stop (s : Span) : Position := ⟨s.line, s.col + s.len⟩

/-- A span is shown by its start. -/
def text (s : Span) : String := s.start.text

def isEmpty (s : Span) : Bool := s.len == 0

/-- One span for two. On one line it covers both and what lies between; across lines it starts at
the earlier of the two and the lengths add up. -/
def merge (s t : Span) : Span :=
  if s.line = t.line then
    let col := min s.col t.col
    ⟨s.line, col, max (t.col + t.len) (s.col + s.len) - col⟩
  else if t.line < s.line then
    ⟨t.line, t.col, s.len + t.len⟩
  else
    ⟨s.line, s.col, s.len + t.len⟩

end Span

end MicroC
