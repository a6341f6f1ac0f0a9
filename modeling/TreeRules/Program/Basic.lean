import TreeRules.Builder.Basic
import TreeRules.Strategy.Basic
import TreeRules.Text.Span

/-!
Compiled programs: for each language its matchers, builders and rules, over one symbol table.
-/
namespace TreeRules

/-- The compiled form of a rule. -/
structure CompiledRule where
  /-- The rule's place among the rules of its language. -/
  id : Nat
  text : String
  span : Span
  strategy : Strategy
  result : RightSide
  /-- The fewest siblings that a match consumes. -/
  minConsumed : Nat
  /-- Whether a match must know the fragment that it covers. -/
  needsFragment : Bool
deriving DecidableEq

/-- What is compiled for one language. The tables of matchers and builders list the newest
first. -/
structure Language where
  name : String
  matchers : List Matcher
  builders : List Builder
  rules : List CompiledRule

namespace Language

variable (l : Language)

/-- Matchers from the oldest on. -/
def matcherList : List Matcher := l.matchers.reverse

/-- Builders from the oldest on. -/
def builderList : List Builder := l.builders.reverse

def matcher? (id : Matcher.Id) : Option Matcher := l.matchers.find? (·.id == id)

/-- The matcher of a canonical text. -/
def matcherByKey? (key : String) : Option Matcher := l.matchers.find? (·.key == key)

def rule? (id : Nat) : Option CompiledRule := l.rules[id]?

end Language

/-- Everything compiled from a rule file. -/
structure Program where
  symbols : SymbolTable
  /-- Languages in the order of their first mention. -/
  languages : List Language

namespace Program

variable (p : Program)

def language? (name : String) : Option Language := p.languages.find? (·.name == name)

def languageNames : List String := p.languages.map Language.name

def ruleCount : Nat := p.languages.foldr (·.rules.length + ·) 0

end Program

end TreeRules
