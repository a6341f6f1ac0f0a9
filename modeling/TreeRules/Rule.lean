import TreeRules.Template

/-!
Rules and rule files. A file is a list of blocks, each holding rules of one language.
-/
namespace TreeRules

/-- One statement: a pattern for a run of siblings, and what replaces them. -/
structure Rule where
  pattern : List Item
  result : Template
  span : Span

/-- The rule as a statement of the rule language. -/
def Rule.text (r : Rule) : String := Item.listText r.pattern ++ " -> " ++ r.result.text ++ ";"

/-- Rules of one language. -/
structure Block where
  name : String
  /-- Where the name stands; rules outside the language blocks have none. -/
  nameSpan : Option Span
  rules : List Rule

/-- A whole rule source. -/
structure RuleFile where
  blocks : List Block

namespace RuleFile

/-- All rules, in the order of their writing. -/
def rules (f : RuleFile) : List Rule := f.blocks.flatMap Block.rules

def ruleCount (f : RuleFile) : Nat := f.rules.length

end RuleFile

end TreeRules
