import TreeRules.Pattern.Basic
import TreeRules.Symbol

/-!
Builders: how the nodes of a template are made from captures. A builder refers to others by their
numbers in a table, always to earlier ones.
-/
namespace TreeRules

namespace Builder

/-- The number of a builder in its table. -/
abbrev Id := Nat

/-- Where children of a built node come from. -/
inductive Source where
  /-- The nodes that the hole captured. -/
  | hole (hole : Hole)
  /-- The node that another builder makes. -/
  | builder (id : Id)
  /-- Nowhere. -/
  | null
deriving DecidableEq

end Builder

/-- The compiled form of a template's node. -/
structure Builder where
  id : Builder.Id
  type : Symbol
  data : Option Datum
  children : List Builder.Source
  /-- Whether a hole is read, here or in a builder referred to. -/
  needsCaptures : Bool
deriving DecidableEq

/-- The compiled form of a right side. -/
inductive RightSide where
  /-- The matched nodes are deleted. -/
  | null
  /-- What the hole captured takes their place. -/
  | hole (hole : Hole)
  /-- A built node takes their place. -/
  | subtree (builder : Builder.Id)
deriving DecidableEq

def RightSide.isHole : RightSide → Bool
  | hole _ => true
  | _ => false

end TreeRules
