import TreeRules.Builder.Run
import TreeRules.Program.Basic
import TreeRules.Strategy.Run

/-!
Running the rules of a language on a list of siblings.
-/
namespace TreeRules

/-- A match of a left side. -/
structure Match where
  consumed : Nat
  captures : Captures
  /-- What the consumed siblings cover, where the rule needs it. -/
  fragment : Option Fragment

/-- A rule applied at a place. -/
structure Applied where
  rule : Nat
  consumed : Nat
  replacement : Replacement

/-- A language with the symbols of its program. -/
structure Engine where
  symbols : SymbolTable
  language : Language

namespace Engine

/-- The engine for a language of a program. -/
def ofProgram? (p : Program) (language : String) : Option Engine :=
  (p.language? language).map (⟨p.symbols,·⟩)

/-- What is said of a language that the program lacks. -/
def unknownLanguageMessage (language : String) : String :=
  "no rules compiled for language `" ++ language ++ "`"

variable (e : Engine)

/-- Whether a matcher accepts a node. -/
def accepts (id : Matcher.Id) (node : Tree) : Bool :=
  Matcher.accepts e.symbols e.language.matchers id node

/-- Captures what a matcher captures of a node. -/
def extract (accumulate : Bool) (id : Matcher.Id) (node : Tree) (c : Captures) : Captures :=
  Matcher.extract e.symbols accumulate e.language.matchers id node c

/-- Runs the strategy of a rule on the siblings from `index` on. -/
def runStrategy (r : CompiledRule) (siblings : List Tree) (index : Nat) : Option Consumption :=
  r.strategy.run e.symbols e.language.matchers siblings index

/-- The fragment that the `count` siblings from `index` on cover. -/
def coverOf (siblings : List Tree) (index count : Nat) : Option Fragment :=
  Fragment.cover (((siblings.drop index).take count).filterMap Tree.fragment)

/-- Matches the left side of a rule at `index`. -/
def tryMatch (r : CompiledRule) (siblings : List Tree) (index : Nat) : Option Match :=
  if index + r.minConsumed > siblings.length then none
  else match e.runStrategy r siblings index with
    | none => none
    | some c => some ⟨c.consumed,c.captures,
        if r.needsFragment then coverOf siblings index c.consumed else none⟩

/-- Builds the right side of a rule. -/
def build (factory : Factory) (r : CompiledRule) (m : Match) : Option Replacement :=
  r.result.build e.symbols e.language.builders factory m.captures m.fragment

/-- Applies a rule at `index`. -/
def applyRule (factory : Factory) (siblings : List Tree) (index : Nat) (r : CompiledRule) :
    Option Applied := do
  let m ← e.tryMatch r siblings index
  let replacement ← e.build factory r m
  return ⟨r.id,m.consumed,replacement⟩

/-- Applies the first rule that matches at `index` and builds. -/
def applyAt (factory : Factory) (siblings : List Tree) (index : Nat) : Option Applied :=
  e.language.rules.findSome? (e.applyRule factory siblings index)

/-- The siblings from `index` on, with rules applied from left to right. Each turn moves on by one
sibling at least, so `turns` need not be more than the siblings that are left. -/
def sweepFrom (factory : Factory) (siblings : List Tree) : (index turns : Nat) → List Tree
  | _, 0 => []
  | index, turns + 1 =>
    match siblings[index]? with
    | none => []
    | some node =>
      match e.applyAt factory siblings index with
      | some a => a.replacement.toList ++ sweepFrom factory siblings (index + a.consumed) turns
      | none => node :: sweepFrom factory siblings (index + 1) turns

/-- One pass from left to right. A sibling where no rule applies stays. -/
def sweep (factory : Factory) (siblings : List Tree) : List Tree :=
  e.sweepFrom factory siblings 0 siblings.length

/-- The siblings with those that were consumed at `index` replaced. -/
def splice (siblings : List Tree) (index : Nat) (a : Applied) : List Tree :=
  siblings.take index ++ a.replacement.toList ++ siblings.drop (index + a.consumed)

end Engine

end TreeRules
