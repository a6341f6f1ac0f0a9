import TreeRules.Compile.NamePool
import TreeRules.Config
import TreeRules.Hierarchy.Basic
import TreeRules.Program.Basic

/-!
The state of compiling the rules of one language. Matchers are shared: an item whose canonical text
was compiled before gets the matcher that is there.
-/
namespace TreeRules

structure Compilation where
  language : String
  hierarchy : Option Hierarchy
  inlineLimit : Nat
  symbols : SymbolTable
  /-- Newest first. -/
  matchers : List Matcher
  /-- Newest first. -/
  builders : List Builder
  rules : List CompiledRule
  names : NamePool

/-- A matcher before it has a number and a name. -/
structure Matcher.Parts where
  conditions : List Matcher.Condition
  procedure : List Matcher.ChildCondition
  extractions : List Matcher.Extraction

namespace Compilation

/-- Nothing is compiled yet; symbols may come from other languages. -/
def start (language : String) (hierarchy : Option Hierarchy) (config : Config)
    (symbols : SymbolTable) : Compilation :=
  ⟨language,hierarchy,config.inlineLimit,symbols,[],[],[],.empty⟩

variable (s : Compilation)

def intern (name : String) : Symbol × Compilation :=
  let added := s.symbols.intern name
  (added.1,{ s with symbols := added.2 })

/-- The declared types that count as `name`; without a declaration there are none. -/
def subtypes (name : String) : Option (List String) :=
  match s.hierarchy with
  | none => none
  | some h => if h.contains name then some (h.descendants name) else none

/-- The test for `name`. A type that no hierarchy declares has no subtypes. -/
def typeTest (name : String) : Matcher.TypeTest × Compilation :=
  let named := s.intern name
  match s.subtypes name with
  | none => (.exact named.1,named.2)
  | some subtypes =>
    let added := named.2.symbols.internAll subtypes
    (⟨named.1,added.1⟩,{ named.2 with symbols := added.2 })

/-- The matcher of a canonical text. -/
def lookup? (key : String) : Option Matcher.Id :=
  (s.matchers.find? (·.key == key)).map Matcher.id

/-- Whether a matcher captures anything. -/
def extracts (id : Matcher.Id) : Bool := (s.matchers.find? (·.id == id)).any Matcher.extracts

/-- A builder that was added. -/
def builder? (id : Builder.Id) : Option Builder := s.builders.find? (·.id == id)

/-- Adds a matcher. -/
def insertMatcher (key base : String) (negated : Bool) (parts : Matcher.Parts) :
    Matcher.Id × Compilation :=
  let id := s.matchers.length
  let named := s.names.take base
  let m : Matcher :=
    ⟨id,named.1,key,negated,parts.conditions,parts.procedure,parts.extractions⟩
  (id,{ s with matchers := m :: s.matchers, names := named.2 })

/-- Adds a builder. -/
def insertBuilder (type : Symbol) (data : Option Datum) (children : List Builder.Source)
    (needsCaptures : Bool) : Builder.Id × Compilation :=
  let id := s.builders.length
  (id,{ s with builders := ⟨id,type,data,children,needsCaptures⟩ :: s.builders })

/-- The number of the next rule. -/
def nextRule : Nat := s.rules.length

def insertRule (r : CompiledRule) : Compilation := { s with rules := s.rules ++ [r] }

/-- What was compiled. -/
def finish : Language := ⟨s.language,s.matchers,s.builders,s.rules⟩

end Compilation

end TreeRules
