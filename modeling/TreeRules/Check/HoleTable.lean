import TreeRules.Hole
import TreeRules.Text.Span

/-!
Tables of the holes that a left side declares, in the order of their first occurrence.
-/
namespace TreeRules

/-- Where a hole occurs. -/
structure HoleEntry where
  hole : Hole
  /-- The first occurrence. -/
  first : Span
  /-- The first occurrence outside repeated items, if there is one. -/
  single : Option Span
deriving DecidableEq

/-- Holes with their occurrences; each hole has one entry. -/
structure HoleTable where
  entries : List HoleEntry
deriving DecidableEq

namespace HoleTable

def empty : HoleTable := ⟨[]⟩

variable (t : HoleTable)

def size : Nat := t.entries.length

def find? (hole : Hole) : Option HoleEntry := t.entries.find? (·.hole == hole)

def isDeclared (hole : Hole) : Bool := (t.find? hole).isSome

/-- Gives `hole` the single occurrence `span` if it has none yet. -/
def setSingle (hole : Hole) (span : Option Span) : HoleTable :=
  ⟨t.entries.map fun e => if e.hole = hole then { e with single := e.single.or span } else e⟩

/-- Records an occurrence of `hole`. Returns the earlier single occurrence that a second one
repeats, if there is one. -/
def declare (hole : Hole) (span : Span) (repeated : Bool) : Option Span × HoleTable :=
  let single := if repeated then none else some span
  match t.find? hole with
  | none => (none,⟨t.entries ++ [⟨hole,span,single⟩]⟩)
  | some entry =>
    if repeated then (none,t)
    else match entry.single with
      | some earlier => (some earlier,t)
      | none => (none,t.setSingle hole single)

/-- Adds what another entry says of its hole. -/
def mergeEntry (e : HoleEntry) : HoleTable :=
  if t.isDeclared e.hole then t.setSingle e.hole e.single else ⟨t.entries ++ [e]⟩

/-- Adds what another table says. -/
def merge (branch : HoleTable) : HoleTable := branch.entries.foldl mergeEntry t

end HoleTable

end TreeRules
