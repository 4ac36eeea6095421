import ParenGap.Text
import ParenGap.Text.Width
import ParenGap.Token

/-!
# Positions in a text

A byte offset is shown to a reader as a row and a column, both counted from `0`. A row is found by
halving in the lines of the text. There are two columns: the terminal columns of what stands before
the offset in its row (`point?`), and the characters before it (`charColumn?`).

An offset behind a line's last character is taken for the end of that line, and a text without lines
has everything at its origin. The answer is `none` for an offset inside a character.
-/

set_option autoImplicit false

namespace ParenGap

open Text (Line)

/-- A row and a column, both counted from `0`: the lines before, and the terminal columns before in
the row. -/
structure Point where
  row : Nat
  column : Nat
  deriving DecidableEq, Repr, Inhabited

/-- A span together with the points at which it starts and stops. -/
structure Region where
  span : Span
  first : Point
  last : Point
  deriving DecidableEq, Repr, Inhabited

namespace Position

/-- The row of an offset: the last line that starts at or before it. -/
def row (lines : Array Line) (offset : Nat) : Nat :=
  Search.partitionPoint lines (fun line => decide (line.start ≤ offset)) - 1

/-- The row of an offset and the characters before it in that row. -/
def locate? (lines : Array Line) (offset : Nat) : Option (Nat × List Char) :=
  match lines[row lines offset]? with
  | none => some (0, [])
  | some line =>
      (Text.cut? line.text (min (offset - line.start) (Text.byteLength line.text))).map
        fun parts => (row lines offset, parts.1)

/-- The point of an offset, its column in terminal columns. -/
def point? (lines : Array Line) (offset : Nat) : Option Point :=
  (locate? lines offset).map fun place => ⟨place.1, Text.lineWidth place.2⟩

/-- The number of characters before an offset in its row. -/
def charColumn? (lines : Array Line) (offset : Nat) : Option Nat :=
  (locate? lines offset).map fun place => place.2.length

end Position

/-- A span with the points of its two ends. -/
def Region.ofSpan? (lines : Array Line) (span : Span) : Option Region :=
  (Position.point? lines span.start).bind fun first =>
    (Position.point? lines span.stop).map fun last => ⟨span, first, last⟩

end ParenGap
