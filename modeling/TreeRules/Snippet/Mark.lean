import TreeRules.Snippet.Canvas
import TreeRules.Snippet.Line

/-!
Marks below a source line. A label stands behind its mark where nothing is in its way, and hangs
below the start of its mark otherwise; labels that hang are ordered from right to left.
-/
namespace TreeRules.Snippet

/-- Something marked on a line. -/
structure Mark where
  start : Line.Place
  stop : Line.Place
  /-- Whether it is what the diagnostic is about. -/
  primary : Bool
  label : String

namespace Mark

/-- An empty span counts as one byte, unless it is at the end of the source. -/
def widen (size : Nat) (s : Span) : Span :=
  if s.isEmpty then ⟨s.start,min (s.start + 1) size⟩ else s

/-- The mark of a span on a line. It takes one column at least. -/
def ofSpan (size : Nat) (line : Line) (primary : Bool) (span : Span) (label : String) : Mark :=
  let s := widen size span
  let start := line.startPlace s.start
  let stop := if s.isEmpty then start else line.place s.stop
  ⟨start,if start.column = stop.column then { stop with column := stop.column + 1 } else stop,
    primary,label⟩

/-- The number of columns of a mark. -/
def length (m : Mark) : Nat := m.stop.column - m.start.column

def hasLabel (m : Mark) : Bool := !m.label.isEmpty

/-- Whether `m`, made longer by `room` columns, and `n` share a column. -/
def overlaps (m n : Mark) (room : Nat) : Bool :=
  (n.start.column ≤ m.start.column && m.start.column < n.stop.column) ||
    (m.start.column ≤ n.start.column && n.start.column < m.stop.column + room)

/-- Whether the label of `m` cannot stand behind it because of `n`, which starts further left. An
unlabelled mark of the same place is not in the way. -/
def isCrossed (m n : Mark) : Bool :=
  n.overlaps m 0 && (n.hasLabel || !(n.start == m.start && n.stop == m.stop))

/-- Whether the label of `n`, written behind its mark, would run into `m`. -/
def runsInto (n m : Mark) : Bool := n.hasLabel && n.overlaps m (n.label.utf8ByteSize + 2)

/-- Gives each mark the depth of its label: 0 behind the mark, otherwise the number of labels from
the top. The marks come from right to left, and `depth` is where the first of them may be. -/
def depths (depth : Nat) : List Mark → List (Nat × Mark)
  | [] => []
  | m :: later =>
    let here := if depth = 0 && m.hasLabel && later.any m.isCrossed then 1 else depth
    let isPushing (n : Mark) : Bool :=
      n.runsInto m && (m.hasLabel || (here == 0 && n.stop.isUpTo m.stop))
    (here,m) :: depths (if later.any isPushing then here + 1 else here) later

/-- Marks from right to left, those of one place in their order. -/
def ordered (marks : List Mark) : List Mark :=
  marks.mergeSort fun m n => n.start.isUpTo m.start

/-- Marks with the long ones first, so that the short ones are drawn over them. Of two that are
equally long the primary one comes last. -/
def longestFirst (marks : List Mark) : List Mark :=
  marks.mergeSort fun m n =>
    n.length < m.length || (m.length == n.length && (!m.primary || n.primary))

def sign (m : Mark) : Char := if m.primary then '^' else '-'

def paint (m : Mark) : Canvas.Paint := if m.primary then .red else .blue

/-- The bar from a mark down to its label. -/
def bar (shift : Nat → Nat) : Nat × Mark → List Canvas.Stroke
  | (depth,m) =>
    if depth = 0 || !m.hasLabel then []
    else (List.range (depth + 1)).map fun r =>
      ⟨r + 1,shift m.start.column,Canvas.cells m.paint ['|']⟩

/-- The label of a mark. -/
def caption (shift : Nat → Nat) : Nat × Mark → Canvas.Stroke
  | (0,m) => ⟨1,shift (m.stop.column + 1),Canvas.cells m.paint m.label.toList⟩
  | (depth + 1,m) =>
    ⟨depth + 3,shift m.start.column,Canvas.cells m.paint m.label.toList⟩

/-- The signs of a mark. -/
def underline (shift : Nat → Nat) (m : Mark) : List Canvas.Stroke :=
  (List.range m.length).map fun i =>
    ⟨1,shift (m.start.column + i),Canvas.cells m.paint [m.sign]⟩

/-- The number of rows below the source line. -/
def rowCount (placed : List (Nat × Mark)) : Nat :=
  match (placed.map (·.1)).foldl max 0 with
  | 0 => 1
  | depth + 1 => depth + 3

/-- What is drawn below the source line: bars, labels over them, signs over both. A column of the
line is shown at `shift` of it. -/
def strokes (shift : Nat → Nat) (placed : List (Nat × Mark)) : List Canvas.Stroke :=
  placed.flatMap (bar shift) ++ placed.map (caption shift) ++
    (longestFirst (placed.map (·.2))).flatMap (underline shift)

end Mark

end TreeRules.Snippet
