/-!
Rows of painted characters. A row is drawn by strokes, a later one over an earlier one; what no
stroke reaches is blank, and a row ends with its last cell.
-/
namespace TreeRules.Snippet.Canvas

/-- What a cell is painted with. -/
inductive Paint where
  | plain
  | bold
  | red
  | blue
deriving DecidableEq

structure Cell where
  char : Char
  paint : Paint
deriving DecidableEq

/-- A cell that nothing is drawn on. -/
def blank : Cell := ⟨' ',.plain⟩

/-- The characters of a text in one paint. -/
def cells (paint : Paint) (chars : List Char) : List Cell := chars.map (⟨·,paint⟩)

/-- Writes `new` over `row` from `column` on. -/
def write (row : List Cell) (column : Nat) (new : List Cell) : List Cell :=
  if new.isEmpty then row
  else row.take column ++ List.replicate (column - row.length) blank ++ new ++
    row.drop (column + new.length)

/-- Cells that are drawn from `column` on in the row with number `row`. -/
structure Stroke where
  row : Nat
  column : Nat
  cells : List Cell

/-- The row with number `r` that the strokes draw. -/
def rowOf (strokes : List Stroke) (r : Nat) : List Cell :=
  (strokes.filter (·.row == r)).foldl (fun row s => write row s.column s.cells) []

/-- What a terminal is sent where a paint begins. -/
def Paint.start : Paint → String
  | plain => ""
  | bold => "\x1b[1m"
  | red => "\x1b[1m\x1b[91m"
  | blue => "\x1b[1m\x1b[94m"

/-- What a terminal is sent where a paint ends. -/
def Paint.stop : Paint → String
  | plain => ""
  | _ => "\x1b[0m"

/-- The text of cells behind one that is painted with `current`. -/
def painted (current : Paint) : List Cell → String
  | [] => current.stop
  | c :: cs =>
    (if c.paint = current then "" else current.stop ++ c.paint.start) ++ String.singleton c.char ++
      painted c.paint cs

/-- The text of a row, in colours if they are wanted. -/
def text (colored : Bool) (row : List Cell) : String :=
  if colored then painted .plain row else String.ofList (row.map (·.char))

end TreeRules.Snippet.Canvas
