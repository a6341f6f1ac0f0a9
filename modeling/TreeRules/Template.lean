import TreeRules.Pattern.Printer

/-!
Templates, the right sides of rules: what is built from the captures of a match.
-/
namespace TreeRules

/-- A template. -/
inductive Template where
  /-- A new node. -/
  | subtree (span : Span) (type : String) (data : Option Datum) (children : List Template)
  /-- What the hole captured. -/
  | hole (span : Span) (hole : Hole)
  /-- Nothing. -/
  | null (span : Span)

namespace Template

def span : Template → Span
  | subtree s _ _ _ | hole s _ | null s => s

mutual

/-- The template as it is written in a rule. -/
def text : Template → String
  | subtree _ type data children =>
    type ++ Datum.block data ++ Text.parenthesized children (listText children)
  | hole _ h => h.text
  | null _ => "null"

/-- Templates with commas between them. -/
def listText : List Template → String
  | [] => ""
  | [t] => t.text
  | t :: u :: rest => t.text ++ ", " ++ listText (u :: rest)

end

/-- The hole in a data position, with the span of its node. -/
def dataHoles (span : Span) : Option Datum → List (Hole × Span)
  | some (.hole h) => [(h,span)]
  | _ => []

mutual

/-- The holes that are read, in the order of their writing, with the span of the template that
reads each. -/
def holes : Template → List (Hole × Span)
  | subtree s _ data children => dataHoles s data ++ listHoles children
  | hole s h => [(h,s)]
  | null _ => []

def listHoles : List Template → List (Hole × Span)
  | [] => []
  | t :: rest => t.holes ++ listHoles rest

end

end Template

end TreeRules
