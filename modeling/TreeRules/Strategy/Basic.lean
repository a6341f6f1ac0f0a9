import TreeRules.Matcher.Basic
import TreeRules.Pattern.Basic

/-!
Strategies: how the items of a left side consume siblings.
-/
namespace TreeRules

/-- An item of a left side. -/
structure Checker where
  /-- The item's position in words. -/
  name : String
  matcher : Matcher.Id
  mode : Mode
deriving DecidableEq

/-- How siblings are consumed. -/
inductive Strategy where
  /-- Each checker takes one sibling. -/
  | simple (checkers : List Checker)
  /-- One checker takes as many siblings as it can. -/
  | repeated (checker : Checker)
  /-- Checkers take siblings from a queue, each as its mode says. -/
  | complex (checkers : List Checker)
deriving DecidableEq

namespace Strategy

/-- Names of positions; a left side may have as many items. -/
def ordinals : List String :=
  ["first","second","third","fourth","fifth","sixth","seventh","eighth","ninth","tenth",
   "eleventh","twelfth","thirteenth","fourteenth","fifteenth","sixteenth","seventeenth",
   "eighteenth","nineteenth","twentieth"]

def checkers : Strategy → List Checker
  | simple cs => cs
  | repeated c => [c]
  | complex cs => cs

def kindName : Strategy → String
  | simple _ => "simple"
  | repeated _ => "repeated"
  | complex _ => "complex"

/-- The strategy for checkers: simple if all are normal, repeated for a single repeated one. -/
def select (checkers : List Checker) : Strategy :=
  if checkers.all (·.mode == .normal) then simple checkers
  else match checkers with
    | [c] => if c.mode == .repeated then repeated c else complex checkers
    | _ => complex checkers

/-- The fewest siblings that a match consumes. -/
def minConsumed : Strategy → Nat
  | simple cs => cs.length
  | repeated _ => 1
  | complex cs => max (cs.countP (·.mode == .normal)) 1

example : ordinals.length = 20 := by decide

end Strategy

end TreeRules
