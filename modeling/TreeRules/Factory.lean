import TreeRules.Tree

/-!
Factories: which nodes can be built. A node is drafted, given data and children, and built.
-/
namespace TreeRules

structure Factory where
  /-- Types that are not built. -/
  rejected : List String
  /-- What the data of a type must satisfy. -/
  dataRules : List (String × (String → Bool))
  /-- How many children a type must have. -/
  childCounts : List (String × Nat)

/-- A node that is being built. -/
structure Draft where
  factory : Factory
  node : Tree

namespace Factory

/-- The factory that builds every node. -/
def free : Factory := ⟨[],[],[]⟩

variable (f : Factory)

def reject (type : String) : Factory := { f with rejected := type :: f.rejected }

/-- Replaces the rule for the data of a type. -/
def requireData (type : String) (rule : String → Bool) : Factory :=
  { f with dataRules := (type,rule) :: f.dataRules }

/-- Replaces the number of children of a type. -/
def requireChildren (type : String) (count : Nat) : Factory :=
  { f with childCounts := (type,count) :: f.childCounts }

/-- Begins a node. -/
def draft? (type : String) : Option Draft :=
  if f.rejected.contains type then none else some ⟨f,.node type none [] none⟩

/-- Whether a type may have the data. -/
def allowsData (type text : String) : Bool :=
  match f.dataRules.lookup type with
  | none => true
  | some rule => rule text

/-- Whether a type may have the number of children. -/
def allowsChildCount (type : String) (count : Nat) : Bool :=
  match f.childCounts.lookup type with
  | none => true
  | some required => required == count

/-- No data is allowed. -/
def noData (_ : String) : Bool := false

/-- Data must not be empty. -/
def someData (text : String) : Bool := !text.isEmpty

/-- Data must be one or more decimal digits. -/
def digitData (text : String) : Bool := !text.isEmpty && text.toList.all Char.isDigit

end Factory

namespace Draft

variable (d : Draft)

/-- Gives the node data, if its type may have it. -/
def setData? (text : String) : Option Draft :=
  if d.factory.allowsData d.node.type text then
    some { d with node := .node d.node.type (some text) d.node.children d.node.fragment }
  else none

def setChildren (children : List Tree) : Draft :=
  { d with node := .node d.node.type d.node.data children d.node.fragment }

def isValid : Bool := d.factory.allowsChildCount d.node.type d.node.children.length

def setFragment (fragment : Fragment) : Draft :=
  { d with node := .node d.node.type d.node.data d.node.children (some fragment) }

end Draft

end TreeRules
