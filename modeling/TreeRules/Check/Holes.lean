import TreeRules.Check.HoleTable
import TreeRules.Check.Shape

/-!
Hole numbering. Outside repeated items a number may be declared once; alternatives of one `|`
exclude each other, so each may declare the same number. Every hole that is read must be declared.
-/
namespace TreeRules

namespace Holes

/-- Declared holes so far, with the diagnostics of declaring them. -/
structure Progress where
  table : HoleTable
  diagnostics : List Diagnostic

/-- Records an occurrence of `hole` at `span`. -/
def declare (note : Diagnostic.Note) (repeated : Bool) (hole : Hole) (span : Span)
    (p : Progress) : Progress :=
  let declared := p.table.declare hole span repeated
  ⟨declared.2,
    match declared.1 with
    | none => p.diagnostics
    | some earlier => p.diagnostics ++
      [.report .duplicateHole span (some hole.text) [⟨"first declared here",earlier⟩,note]]⟩

/-- Records the hole in a data position, if there is one. -/
def declareData (note : Diagnostic.Note) (repeated : Bool) (span : Span) :
    Option Datum → Progress → Progress
  | some (.hole hole), p => declare note repeated hole span p
  | _, p => p

mutual

/-- Records the holes of an item, in the order of their writing. -/
def declareItem (note : Diagnostic.Note) (repeated : Bool) : Item → Progress → Progress
  | .fixed t _ data children, p =>
    declareItems note repeated children (declareData note repeated t.span data p)
  | .typedHole t _ hole _, p => declare note repeated hole t.span p
  | .untypedHole t hole _, p => declare note repeated hole t.span p
  | .symbolRange t _ _ hole, p => declareData note repeated t.span (hole.map Datum.hole) p
  | .anyOf _ items, p => declareAlternatives note repeated p.table items p
  | .allOf _ items, p => declareItems note repeated items p
  | .rest _, p => p

/-- Records the holes of items, one after the other. -/
def declareItems (note : Diagnostic.Note) (repeated : Bool) : List Item → Progress → Progress
  | [], p => p
  | i :: items, p => declareItems note repeated items (declareItem note repeated i p)

/-- Records the holes of alternatives, each of which sees only what was declared `before` all of
them. -/
def declareAlternatives (note : Diagnostic.Note) (repeated : Bool) (before : HoleTable) :
    List Item → Progress → Progress
  | [], p => p
  | i :: items, p =>
    let branch := declareItem note repeated i ⟨before,p.diagnostics⟩
    declareAlternatives note repeated before items
      ⟨p.table.merge branch.table,branch.diagnostics⟩

end

/-- Records the holes of a left side. -/
def declareTop (note : Diagnostic.Note) : List Item → Progress → Progress
  | [], p => p
  | i :: items, p =>
    declareTop note items (declareItem note (i.mode == .repeated) i p)

/-- The diagnostics of reading holes that the table does not declare. -/
def undeclared (note : Diagnostic.Note) (table : HoleTable) (reads : List (Hole × Span)) :
    List Diagnostic :=
  (reads.filter fun r => !table.isDeclared r.1).map fun r =>
    .report .undeclaredHole r.2 (some r.1.text) [note]

end Holes

open Holes in
/-- The holes that a rule declares, and the diagnostics about its holes. -/
def Rule.checkHoles (r : Rule) : HoleTable × List Diagnostic :=
  let p := declareTop r.note r.pattern ⟨.empty,[]⟩
  (p.table,p.diagnostics ++ undeclared r.note p.table r.result.holes)

end TreeRules
