import TreeRules.Check.Shape
import TreeRules.Hierarchy.Basic

/-!
Type names of rules: every type must be declared, and what is built must not be abstract.
-/
namespace TreeRules

namespace Types

def report (note : Diagnostic.Note) (kind : Diagnostic.Kind) (span : Span) (type : String) :
    Diagnostic :=
  .report kind span (some type) [note]

/-- The diagnostics about a type in a pattern. -/
def checkType (h : Hierarchy) (note : Diagnostic.Note) (span : Span) (type : String) :
    List Diagnostic :=
  if h.contains type then [] else [report note .unknownNodeType span type]

/-- The diagnostics about a type that is built. -/
def checkBuilt (h : Hierarchy) (note : Diagnostic.Note) (span : Span) (type : String) :
    List Diagnostic :=
  if !h.contains type then [report note .unknownNodeType span type]
  else if h.isAbstract type then [report note .abstractResultType span type]
  else []

mutual

/-- The diagnostics about the types in an item. -/
def checkItem (h : Hierarchy) (note : Diagnostic.Note) : Item → List Diagnostic
  | .fixed t type _ children => checkType h note t.span type ++ checkItems h note children
  | .typedHole t type _ _ => checkType h note t.span type
  | .anyOf _ items => checkItems h note items
  | .allOf _ items => checkItems h note items
  | .untypedHole _ _ _ | .symbolRange _ _ _ _ | .rest _ => []

def checkItems (h : Hierarchy) (note : Diagnostic.Note) : List Item → List Diagnostic
  | [] => []
  | i :: items => checkItem h note i ++ checkItems h note items

end

mutual

/-- The diagnostics about the types in a template. -/
def checkTemplate (h : Hierarchy) (note : Diagnostic.Note) : Template → List Diagnostic
  | .subtree span type _ children => checkBuilt h note span type ++ checkTemplates h note children
  | .hole _ _ | .null _ => []

def checkTemplates (h : Hierarchy) (note : Diagnostic.Note) : List Template → List Diagnostic
  | [] => []
  | t :: rest => checkTemplate h note t ++ checkTemplates h note rest

end

end Types

/-- The diagnostics about the types of a rule. -/
def Rule.typeDiagnostics (h : Hierarchy) (r : Rule) : List Diagnostic :=
  Types.checkItems h r.note r.pattern ++ Types.checkTemplate h r.note r.result

end TreeRules
