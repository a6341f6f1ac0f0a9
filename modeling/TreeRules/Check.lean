import TreeRules.Check.Holes
import TreeRules.Check.Types

/-!
All checks of a rule file. Types are checked only against a given hierarchy.
-/
namespace TreeRules

/-- The diagnostics of a rule: shape, holes, types. -/
def Rule.diagnostics (h : Option Hierarchy) (r : Rule) : List Diagnostic :=
  r.shapeDiagnostics ++ r.checkHoles.2 ++ (h.elim [] fun h => r.typeDiagnostics h)

/-- The diagnostics of all rules, one rule after the other. -/
def RuleFile.check (h : Option Hierarchy) (f : RuleFile) : List Diagnostic :=
  f.rules.flatMap (Rule.diagnostics h)

end TreeRules
