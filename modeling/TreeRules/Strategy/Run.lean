import TreeRules.Matcher.Run
import TreeRules.Strategy.Basic

/-!
Running strategies on siblings. Consumption is greedy: nothing that was taken is given back.
-/
namespace TreeRules

/-- What a strategy consumed and captured. -/
structure Consumption where
  consumed : Nat
  captures : Captures

namespace Strategy

variable (symbols : SymbolTable) (table : List Matcher)

/-- Whether a checker accepts a node. -/
def accepts (c : Checker) (node : Tree) : Bool := Matcher.accepts symbols table c.matcher node

/-- Captures from one node. -/
def extract (c : Checker) (node : Tree) (captures : Captures) : Captures :=
  Matcher.extract symbols false table c.matcher node captures

/-- Captures from the nodes of a repeated checker. -/
def extractAll (c : Checker) (nodes : List Tree) (captures : Captures) : Captures :=
  nodes.foldl (fun caps node => Matcher.extract symbols true table c.matcher node caps) captures

/-- One sibling for each checker: all are tested before anything is captured. -/
def runSimple (checkers : List Checker) (siblings : List Tree) : Option Consumption :=
  if checkers.isEmpty || siblings.length < checkers.length then none
  else
    let pairs := checkers.zip siblings
    if pairs.all fun p => accepts symbols table p.1 p.2 then
      some ⟨checkers.length,
        pairs.foldl (fun caps p => extract symbols table p.1 p.2 caps) .empty⟩
    else none

/-- The longest run of siblings that the checker accepts, if there is any. -/
def runRepeated (checker : Checker) (siblings : List Tree) : Option Consumption :=
  let taken := siblings.takeWhile (accepts symbols table checker)
  if taken.isEmpty then none
  else some ⟨taken.length,extractAll symbols table checker taken .empty⟩

/-- Takes siblings from a queue, checker by checker. Gives what is left of the queue. -/
def consume : List Checker → (queue : List Tree) → Captures → Option (List Tree × Captures)
  | [], queue, caps => some (queue,caps)
  | c :: cs, queue, caps =>
    match c.mode, queue with
    | .normal, [] => none
    | .normal, n :: rest =>
      if accepts symbols table c n then consume cs rest (extract symbols table c n caps) else none
    | .optional, [] => consume cs [] caps
    | .optional, n :: rest =>
      if accepts symbols table c n then consume cs rest (extract symbols table c n caps)
      else consume cs (n :: rest) caps
    | .repeated, queue =>
      consume cs (queue.dropWhile (accepts symbols table c))
        (extractAll symbols table c (queue.takeWhile (accepts symbols table c)) caps)

/-- Runs checkers of any modes. Consuming nothing is no match. -/
def runComplex (checkers : List Checker) (siblings : List Tree) : Option Consumption :=
  match consume symbols table checkers siblings .empty with
  | none => none
  | some (left,caps) =>
    if siblings.length = left.length then none else some ⟨siblings.length - left.length,caps⟩

/-- Runs a strategy on the siblings from `index` on. -/
def run (strategy : Strategy) (siblings : List Tree) (index : Nat) : Option Consumption :=
  match strategy with
  | simple checkers => runSimple symbols table checkers (siblings.drop index)
  | repeated checker => runRepeated symbols table checker (siblings.drop index)
  | complex checkers => runComplex symbols table checkers (siblings.drop index)

end Strategy

end TreeRules
