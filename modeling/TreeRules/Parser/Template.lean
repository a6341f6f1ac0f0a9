import TreeRules.Parser.Pattern
import TreeRules.Template

/-!
Grammar of templates.

    template := 'null' | Hole | Id data? ('(' (template (',' template)*)? ')')?
-/
namespace TreeRules.Parser

/-- Reads a template up to its span, those inside it by `template`. -/
def templateForm (template : Parser Template) : Parser (Span → Template) := do
  match ← peek with
  | .kwNull => do
    let _ ← next
    return Template.null
  | .hole => do
    let h ← hole
    return fun span => .hole span h
  | .id => do
    let name ← next
    let data ← dataBlock?
    let parts ← children template
    return fun span => .subtree span name.text data parts
  | _ => do
    reportHere .expectedResult none
    reject

def templateWith (template : Parser Template) : Parser Template := do
  let start := (← here).start
  let make ← templateForm template
  let span ← spanFrom start
  return make span

/-- Reads a template with at most `depth` templates inside one another. -/
def template : (depth : Nat) → Parser Template
  | 0 => stop .tooDeep
  | depth + 1 => templateWith (template depth)

end TreeRules.Parser
