import TreeRules.Hole
import TreeRules.Tree

/-!
Captures: what the holes of a pattern are bound to by a match, in the order of binding.
-/
namespace TreeRules

/-- What a hole is bound to. -/
inductive Capture where
  | node (node : Tree)
  | nodes (nodes : List Tree)
  | data (text : String)

/-- The nodes of a capture; data is no node. -/
def Capture.nodes? : Capture → Option (List Tree)
  | node n => some [n]
  | nodes ns => some ns
  | data _ => none

/-- The data of a capture: that of a node counts if it is the only one. -/
def Capture.data? : Capture → Option String
  | node n => n.data
  | nodes [n] => n.data
  | nodes _ => none
  | data text => some text

/-- The nodes that later ones are put behind. -/
def Capture.kept : Capture → List Tree
  | node n => [n]
  | nodes ns => ns
  | data _ => []

/-- Bound holes; each occurs once. -/
structure Captures where
  bindings : List (Hole × Capture)

namespace Captures

def empty : Captures := ⟨[]⟩

variable (c : Captures)

def size : Nat := c.bindings.length

def holes : List Hole := c.bindings.map Prod.fst

def get? (hole : Hole) : Option Capture := (c.bindings.find? (·.1 == hole)).map Prod.snd

/-- The single node that `hole` is bound to. -/
def node? (hole : Hole) : Option Tree :=
  match c.get? hole with
  | some (.node n) => some n
  | _ => none

/-- The nodes that `hole` is bound to. -/
def nodes? (hole : Hole) : Option (List Tree) := (c.get? hole).bind Capture.nodes?

/-- The data that `hole` is bound to. -/
def data? (hole : Hole) : Option String := (c.get? hole).bind Capture.data?

/-- Binds `hole` to `capture`. A hole that was bound keeps its place. -/
def set (hole : Hole) (capture : Capture) : Captures :=
  if (c.get? hole).isSome then
    ⟨c.bindings.map fun b => if b.1 = hole then (hole,capture) else b⟩
  else ⟨c.bindings ++ [(hole,capture)]⟩

theorem find?_map_replace (hole other : Hole) (capture : Capture) (bs : List (Hole × Capture)) :
    ((bs.map fun b => if b.1 = hole then (hole,capture) else b).find? (·.1 == other)).map
        Prod.snd =
      if other = hole ∧ (bs.find? (·.1 == hole)).isSome then some capture
      else (bs.find? (·.1 == other)).map Prod.snd := by
  induction bs with
  | nil => simp
  | cons b bs ih =>
    by_cases hb : b.1 = hole
    · by_cases ho : other = hole
      · simp [hb, ho]
      · simpa [hb, ho, Ne.symm ho] using ih
    · have hne : ¬ (b.1 == hole) = true := by simpa using hb
      rw [List.map_cons, if_neg hb, @List.find?_cons_of_neg _ (·.1 == hole) b bs hne]
      by_cases hbo : b.1 = other
      · simp [hbo, hbo ▸ hb]
      · simpa [hbo] using ih

/-- Binding a hole changes what that hole is bound to, and nothing else. -/
theorem get?_set (hole other : Hole) (capture : Capture) :
    (c.set hole capture).get? other = if other = hole then some capture else c.get? other := by
  unfold set get?
  split
  · next h =>
    rw [find?_map_replace]
    grind
  · next h =>
    simp only [List.find?_append]
    grind

/-- Puts `nodes` behind the nodes that `hole` is bound to. -/
def extendNodes (hole : Hole) (nodes : List Tree) : Captures :=
  c.set hole (.nodes (((c.get? hole).elim [] Capture.kept) ++ nodes))

def pushNode (hole : Hole) (node : Tree) : Captures := c.extendNodes hole [node]

def holdsNodes (hole : Hole) : Bool := (c.nodes? hole).isSome

/-- Binds `hole` to one node; if it is bound to nodes already, the node is put behind them. -/
def bindNode (hole : Hole) (node : Tree) : Captures :=
  if c.holdsNodes hole then c.pushNode hole node else c.set hole (.node node)

/-- Binds `hole` to a list; if it is bound to nodes already, the list is put behind them. -/
def bindNodes (hole : Hole) (nodes : List Tree) : Captures :=
  if c.holdsNodes hole then c.extendNodes hole nodes else c.set hole (.nodes nodes)

def bindData (hole : Hole) (text : String) : Captures := c.set hole (.data text)

end Captures

end TreeRules
