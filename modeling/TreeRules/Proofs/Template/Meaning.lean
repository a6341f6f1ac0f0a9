import TreeRules.Builder.Run
import TreeRules.Template
import Mathlib.Tactic.Common

/-! What a template makes of captures, read off the template itself. Only the node that takes the
place of what was matched gets a fragment; those inside it have none. -/
namespace TreeRules

/-- The data that a data position asks for. A hole without data asks for none. -/
def Datum.value? (c : Captures) : Option Datum → Option String
  | none => none
  | some (.literal text) => some text
  | some (.hole h) => c.data? h

/-- A node, unless the factory refuses its type, its data or the number of its children. -/
def Factory.node? (f : Factory) (type : String) (data : Option String) (children : List Tree)
    (fragment : Option Fragment) : Option Tree :=
  if !f.rejected.contains type && data.all (f.allowsData type) &&
      f.allowsChildCount type children.length then
    some (.node type data children fragment)
  else none

namespace Template

variable (f : Factory) (c : Captures)

mutual

/-- What a template adds to the children of the node around it. A hole adds what it captured; data
cannot stand there. -/
def contribution? : Template → Option (List Tree)
  | subtree _ type data children => do
    let inside ← contributions? children
    let node ← f.node? type (Datum.value? c data) inside none
    return [node]
  | hole _ h =>
    match c.get? h with
    | none => some []
    | some (.node n) => some [n]
    | some (.nodes ns) => some ns
    | some (.data _) => none
  | null _ => some []

/-- What templates add, one behind the other. -/
def contributions? : List Template → Option (List Tree)
  | [] => some []
  | t :: rest => do
    let first ← contribution? t
    let others ← contributions? rest
    return first ++ others

end

/-- What a right side puts in the place of the matched nodes. -/
def replacement? (fragment : Option Fragment) : Template → Option Replacement
  | subtree _ type data children => do
    let inside ← contributions? f c children
    let node ← f.node? type (Datum.value? c data) inside fragment
    return .node node
  | hole _ h =>
    match c.get? h with
    | none => some .delete
    | some (.node n) => some (.node n)
    | some (.nodes ns) => some (.nodes ns)
    | some (.data _) => none
  | null _ => some .delete

end Template

end TreeRules
