import TreeRules.Builder.Basic
import TreeRules.Capture
import TreeRules.Factory

/-!
Running builders. As with matchers, a table lists builders from the newest to the oldest. Building
fails where the factory refuses a node, and where a hole that holds data stands for children.
-/
namespace TreeRules

/-- What takes the place of matched nodes. -/
inductive Replacement where
  | delete
  | node (node : Tree)
  | nodes (nodes : List Tree)

def Replacement.toList : Replacement → List Tree
  | delete => []
  | node n => [n]
  | nodes ns => ns

namespace Builder

/-- The data of a built node. A hole without data gives none. -/
def dataOf (c : Captures) : Option Datum → Option String
  | none => none
  | some (.literal text) => some text
  | some (.hole hole) => c.data? hole

/-- The nodes that a source gives; `refers` runs the builders referred to. A hole that is not bound
gives none. -/
def Source.nodes? (c : Captures) (refers : Id → Option Tree) : Source → Option (List Tree)
  | hole h =>
    match c.get? h with
    | none => some []
    | some capture => capture.nodes?
  | builder id => (refers id).map ([·])
  | null => some []

/-- The nodes of all sources, in order. -/
def sourceNodes? (c : Captures) (refers : Id → Option Tree) :
    List Source → Option (List Tree)
  | [] => some []
  | s :: rest => do
    let first ← s.nodes? c refers
    let others ← sourceNodes? c refers rest
    return first ++ others

/-- Gives a draft its data, if there is any. -/
def fill (d : Draft) : Option String → Option Draft
  | none => some d
  | some text => d.setData? text

/-- Finishes a draft with its children and fragment. -/
def finish (d : Draft) (children : List Tree) (fragment : Option Fragment) : Option Tree :=
  let full := d.setChildren children
  if full.isValid then some (fragment.elim full full.setFragment).node else none

/-- The node that a builder makes. -/
def make (symbols : SymbolTable) (factory : Factory) (c : Captures)
    (refers : Id → Option Tree) (b : Builder) (fragment : Option Fragment) : Option Tree := do
  let type ← symbols.name? b.type
  let draft ← factory.draft? type
  let filled ← fill draft (dataOf c b.data)
  let children ← sourceNodes? c refers b.children
  finish filled children fragment

/-- The node that builder `id` of the table makes. Only that node gets the fragment, not those
made inside it. -/
def build (symbols : SymbolTable) (factory : Factory) (c : Captures) :
    (table : List Builder) → Id → Option Fragment → Option Tree
  | [], _, _ => none
  | b :: older, id, fragment =>
    if b.id = id then
      b.make symbols factory c (fun id => build symbols factory c older id none) fragment
    else build symbols factory c older id fragment

end Builder

/-- What a right side puts in the place of matched nodes. -/
def RightSide.build (symbols : SymbolTable) (table : List Builder) (factory : Factory)
    (c : Captures) (fragment : Option Fragment) : RightSide → Option Replacement
  | null => some .delete
  | hole h =>
    match c.get? h with
    | none => some .delete
    | some (.node n) => some (.node n)
    | some (.nodes ns) => some (.nodes ns)
    | some (.data _) => none
  | subtree id => (Builder.build symbols factory c table id fragment).map Replacement.node

end TreeRules
