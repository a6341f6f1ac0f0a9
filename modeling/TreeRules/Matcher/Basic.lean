import TreeRules.Hole
import TreeRules.Symbol

/-!
Matchers: what a pattern item asks of a node, and what it captures. A matcher refers to others by
their numbers in a table, always to earlier ones.
-/
namespace TreeRules

namespace Matcher

/-- The number of a matcher in its table. -/
abbrev Id := Nat

/-- A test of a node's type. -/
structure TypeTest where
  /-- The type that the pattern names. -/
  name : Symbol
  /-- The types that count as it. -/
  accepts : List Symbol
deriving DecidableEq

/-- The test for a type without subtypes. -/
def TypeTest.exact (name : Symbol) : TypeTest := ⟨name,[name]⟩

/-- A condition on the children of a node. -/
inductive ChildCondition where
  /-- There is a child at `index`, and the matcher accepts it. -/
  | child (index : Nat) (matcher : Id)
  /-- All children from `start` on pass the test. -/
  | remaining (start : Nat) (types : TypeTest)
deriving DecidableEq

/-- A condition on a node. -/
inductive Condition where
  | type (test : TypeTest)
  | childCount (count : Nat)
  | minChildCount (count : Nat)
  | dataEquals (text : String)
  | hasData
  /-- A leaf whose data is one character from `first` to `last`. -/
  | charRange (first last : Char)
  | children (condition : ChildCondition)
  /-- All conditions of the matcher's procedure hold. -/
  | procedure
  | anyOf (matchers : List Id)
  | allOf (matchers : List Id)
deriving DecidableEq

/-- One step of capturing. -/
inductive Extraction where
  /-- Captures the node. -/
  | node (hole : Hole)
  /-- Captures the node's data. -/
  | data (hole : Hole)
  /-- Captures the child at `index`, as a list. -/
  | child (hole : Hole) (index : Nat)
  /-- Captures the children from `start` on. -/
  | remaining (hole : Hole) (start : Nat)
  /-- Captures what the matcher captures of the child at `index`. -/
  | nested (index : Nat) (matcher : Id)
  /-- Captures what the first matcher that accepts the node captures. -/
  | firstOf (matchers : List Id)
  /-- Captures what each matcher captures. -/
  | each (matchers : List Id)
deriving DecidableEq

end Matcher

/-- The compiled form of a pattern item. -/
structure Matcher where
  id : Matcher.Id
  name : String
  /-- The canonical text of the item. -/
  key : String
  /-- Whether a node is accepted when the conditions do not all hold. -/
  negated : Bool
  conditions : List Matcher.Condition
  /-- Conditions on children that are too many to stand among `conditions`. -/
  procedure : List Matcher.ChildCondition
  extractions : List Matcher.Extraction
deriving DecidableEq

namespace Matcher

/-- Whether the matcher captures anything. -/
def extracts (m : Matcher) : Bool := !m.extractions.isEmpty

def ChildCondition.matchers : ChildCondition → List Id
  | child _ m => [m]
  | remaining _ _ => []

def Condition.matchers : Condition → List Id
  | children c => c.matchers
  | anyOf ms => ms
  | allOf ms => ms
  | _ => []

def Extraction.matchers : Extraction → List Id
  | nested _ m => [m]
  | firstOf ms => ms
  | each ms => ms
  | _ => []

/-- The matchers referred to, in the order of their first mention. -/
def dependencies (m : Matcher) : List Id :=
  (m.conditions.flatMap Condition.matchers ++ m.procedure.flatMap ChildCondition.matchers ++
    m.extractions.flatMap Extraction.matchers).eraseDups

def Extraction.hole? : Extraction → Option Hole
  | node h | data h | child h _ | remaining h _ => some h
  | _ => none

/-- The holes that the matcher binds itself. -/
def directHoles (m : Matcher) : List Hole := m.extractions.filterMap Extraction.hole?

end Matcher

end TreeRules
