import TreeRules.Hole
import TreeRules.Text.Span

/-!
Pattern items, the left sides of rules. An item describes one node, or some of the children of a
node, and may bind holes.
-/
namespace TreeRules

/-- How many siblings a top-level item may consume. -/
inductive Mode where
  /-- Exactly one. -/
  | normal
  /-- None or one. -/
  | optional
  /-- As many as match. -/
  | repeated
deriving DecidableEq, Inhabited

/-- What stands in the data position of a node: a hole, or a text. -/
inductive Datum where
  | hole (hole : Hole)
  | literal (text : String)
deriving DecidableEq

/-- What every item carries besides its form. -/
structure Item.Tag where
  mode : Mode
  negated : Bool
  span : Span
deriving DecidableEq

/-- A pattern item. -/
inductive Item where
  /-- One node of the type, with data and children as described. -/
  | fixed (tag : Item.Tag) (type : String) (data : Option Datum) (children : List Item)
  /-- One node of the type, captured; with an ellipsis, all remaining children, which must be of
  the type. -/
  | typedHole (tag : Item.Tag) (type : String) (hole : Hole) (ellipsis : Bool)
  /-- Any child, captured; with an ellipsis, all remaining children. -/
  | untypedHole (tag : Item.Tag) (hole : Hole) (ellipsis : Bool)
  /-- A leaf whose data is one character from `first` to `last`. -/
  | symbolRange (tag : Item.Tag) (first last : Char) (hole : Option Hole)
  /-- A node that one of the items describes. -/
  | anyOf (tag : Item.Tag) (items : List Item)
  /-- A node that each of the items describes. -/
  | allOf (tag : Item.Tag) (items : List Item)
  /-- The remaining children, not captured. -/
  | rest (tag : Item.Tag)

namespace Item

/-- Mode normal, not negated. -/
def Tag.plain (span : Span) : Tag := ⟨.normal,false,span⟩

def tag : Item → Tag
  | fixed t _ _ _ | typedHole t _ _ _ | untypedHole t _ _ | symbolRange t _ _ _ => t
  | anyOf t _ | allOf t _ | rest t => t

def withTag (tag : Tag) : Item → Item
  | fixed _ type data children => fixed tag type data children
  | typedHole _ type hole ellipsis => typedHole tag type hole ellipsis
  | untypedHole _ hole ellipsis => untypedHole tag hole ellipsis
  | symbolRange _ first last hole => symbolRange tag first last hole
  | anyOf _ items => anyOf tag items
  | allOf _ items => allOf tag items
  | rest _ => rest tag

def mode (i : Item) : Mode := i.tag.mode

def negated (i : Item) : Bool := i.tag.negated

def span (i : Item) : Span := i.tag.span

/-- Whether the item stands for all remaining children. -/
def isEllipsis : Item → Bool
  | typedHole _ _ _ ellipsis | untypedHole _ _ ellipsis => ellipsis
  | rest _ => true
  | _ => false

/-- The type that the item itself names. -/
def type? : Item → Option String
  | fixed _ type _ _ | typedHole _ type _ _ => some type
  | _ => none

/-- The items directly inside. -/
def inner : Item → List Item
  | fixed _ _ _ items | anyOf _ items | allOf _ items => items
  | _ => []

@[simp] theorem tag_withTag (t : Tag) (i : Item) : (i.withTag t).tag = t := by cases i <;> rfl

@[simp] theorem withTag_tag (i : Item) : i.withTag i.tag = i := by cases i <;> rfl

@[simp] theorem inner_withTag (t : Tag) (i : Item) : (i.withTag t).inner = i.inner := by
  cases i <;> rfl

end Item

end TreeRules
