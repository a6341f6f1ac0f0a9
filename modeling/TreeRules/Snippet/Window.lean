import TreeRules.Snippet.Mark

/-!
The part of a source line that is shown. A line that is too long, or that begins with much white
space, is cut so that its marks stay in sight; dots stand where something was cut off.
-/
namespace TreeRules.Snippet

/-- The columns of a line that are shown. -/
structure Window where
  left : Nat
  right : Nat
  /-- The number of columns there is room for. -/
  room : Nat

namespace Window

/-- Free columns around what must be seen. -/
def padding : Nat := 6

/-- The window of a line: all of it but most of a deep indent without marks, if there is room for
that; else what the labels or, failing that, the marks need, with what else fits around it. -/
def ofLine (room : Nat) (line : Line) (marks : List Mark) : Window :=
  let start := (marks.map (·.start.column)).min?.getD 0
  let indent := min line.indent start - padding
  let first := start - padding
  let last := (marks.map (·.stop.column)).foldl max 0 + padding
  let labels := (marks.map fun m => m.stop.column + Text.width m.label.toList + 1).foldl max 0 +
    padding
  let left := if 20 < indent then indent - 16 else 0
  let right := max (Text.width line.chars) left
  let startingAt (left : Nat) : Window := ⟨left,left + room,room⟩
  if right - left ≤ room then ⟨left,right,room⟩
  else if labels - indent ≤ room then startingAt indent
  else if labels - first ≤ room then startingAt (first - (room - (labels - first)) / 2)
  else if last - first ≤ room then startingAt (first - (room - (last - first)) / 5 * 2)
  else ⟨first,last,room⟩

def dots : List Canvas.Cell := Canvas.cells .blue ['.','.','.']

/-- The cells of a line in a window. The dots take the place of the characters that fill as many
columns. -/
def cells (w : Window) (line : Line) : List Canvas.Cell :=
  let shown := Text.pictures line.chars
  let width := Text.width shown
  let left := min w.left width
  let right := if width - w.left ≤ w.room then width else min width w.right
  let code := Text.takeColumns (right - left) (Text.dropColumns left shown)
  let hidden := code.take (if 0 < w.left then Text.charsToFill dots.length code else 0)
  let rest := code.drop hidden.length
  let row := Canvas.write (if 0 < w.left then dots else []) (Text.width hidden)
    (Canvas.cells .plain rest)
  if right < width then
    Canvas.write row (Text.width hidden + rest.length - Text.charsToFill dots.length code.reverse)
      dots
  else row

/-- Where a column of a line is shown, the line's first column being shown at `offset`. -/
def shift (w : Window) (line : Line) (offset column : Nat) : Nat :=
  offset + column - min w.left (Text.width (Text.pictures line.chars))

end Window

end TreeRules.Snippet
