import TreeRules.Pattern.Basic
import TreeRules.Text.Quote

/-!
Written form of pattern items. The body of an item, without the brackets of its own mode, is its
canonical text: items of one body share a matcher.
-/
namespace TreeRules

/-- Square brackets around an optional text, braces around a repeated one. -/
def Mode.enclose : Mode → String → String
  | .normal, s => s
  | .optional, s => "[" ++ s ++ "]"
  | .repeated, s => "\x7b" ++ s ++ "\x7d"

def Datum.text : Datum → String
  | .hole h => h.text
  | .literal s => Text.quoted s

/-- The data position of a node, with its angle brackets. -/
def Datum.block : Option Datum → String
  | none => ""
  | some d => "<" ++ d.text ++ ">"

namespace Item

/-- An exclamation mark for a negated item. -/
def Tag.bang (t : Tag) : String := if t.negated then "!" else ""

def dots (ellipsis : Bool) : String := if ellipsis then "..." else ""

mutual

/-- The canonical text of an item. -/
def body : Item → String
  | fixed t type data children =>
    t.bang ++ type ++ Datum.block data ++ Text.parenthesized children (listText children)
  | typedHole t type hole ellipsis => t.bang ++ type ++ hole.text ++ dots ellipsis
  | untypedHole t hole ellipsis => t.bang ++ hole.text ++ dots ellipsis
  | symbolRange t first last hole =>
    t.bang ++ Text.quotedChar first ++ ".." ++ Text.quotedChar last ++
      Datum.block (hole.map Datum.hole)
  | anyOf t items => t.bang ++ "|(" ++ listText items ++ ")"
  | allOf t items => t.bang ++ "&(" ++ listText items ++ ")"
  | rest t => t.bang ++ "..."

/-- Items with commas between them. -/
def listText : List Item → String
  | [] => ""
  | [i] => i.mode.enclose i.body
  | i :: j :: items => i.mode.enclose i.body ++ ", " ++ listText (j :: items)

end

/-- The item as it is written in a rule. -/
def text (i : Item) : String := i.mode.enclose i.body

end Item

end TreeRules
