import TreeRules.Diagnostic.Basic
import TreeRules.Snippet.Window

/-!
Diagnostics shown in their source. Under the source line stand marks below what the diagnostic is
about (`^`) and below the places of its notes (`-`), with their messages. All of them are taken to
be on the line where the diagnostic starts.
-/
namespace TreeRules

namespace Snippet

/-- The number of columns of a page. -/
def pageWidth : Nat := 140

/-- The lines of a text. -/
def linesOf (chars : List Char) : List (List Char) := chars.splitOn '\n'

/-- The rows with severity and message. A message of several lines is aligned. -/
def title (d : Diagnostic) : List (List Canvas.Cell) :=
  let severity := d.severity.text.toList
  match linesOf (Text.pictures d.message.toList) with
  | [] => []
  | first :: rest =>
    (Canvas.cells .red severity ++ Canvas.cells .bold ([':',' '] ++ first)) ::
      rest.map fun line =>
        List.replicate (severity.length + 2) Canvas.blank ++ Canvas.cells .bold line

/-- The row with the place of a diagnostic. -/
def origin (path : String) (line : Line) (d : Diagnostic) (margin : Nat) : List Canvas.Cell :=
  List.replicate margin Canvas.blank ++ Canvas.cells .blue ['-','-','>',' '] ++
    Canvas.cells .plain (path ++ ":" ++ toString line.number ++ ":" ++
      toString ((line.startPlace d.span.start).index + 1)).toList

/-- The rows of a diagnostic in its source. -/
def rows (source : List Char) (path : Option String) (d : Diagnostic) :
    List (List Canvas.Cell) :=
  let size := byteLength source
  let line := Line.ofSource source d.span.start
  let number := (toString line.number).toList
  let offset := number.length + 3
  let marks := Mark.ofSpan size line true d.span d.message ::
    d.notes.map fun n => Mark.ofSpan size line false n.span n.message
  let window := Window.ofLine (pageWidth - offset) line marks
  let placed := Mark.depths 0 (Mark.ordered marks)
  let edge := Canvas.write [] (number.length + 1) (Canvas.cells .blue ['|'])
  let code := Canvas.write (Canvas.write edge 0 (Canvas.cells .blue number)) offset
    (window.cells line)
  let strokes := Mark.strokes (window.shift line offset) placed
  title d ++ (path.map (origin · line d number.length)).toList ++ [edge,code] ++
    (List.range (Mark.rowCount placed)).map fun r =>
      Canvas.rowOf (⟨r + 1,0,edge⟩ :: strokes) (r + 1)

end Snippet

/-- Diagnostics shown in their source, one after the other. -/
def Diagnostic.render (source : String) (path : Option String) (colored : Bool)
    (ds : List Diagnostic) : String :=
  "\n".intercalate
    ((ds.flatMap (Snippet.rows source.toList path)).map (Snippet.Canvas.text colored))

end TreeRules
