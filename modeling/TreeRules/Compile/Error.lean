import TreeRules.Diagnostic.Basic
import TreeRules.Parser.State

/-!
Why a rule source is not compiled.
-/
namespace TreeRules

def Parser.Fault.message : Parser.Fault → String
  | fuelExhausted => "execution limit exceeded"
  | tooDeep => "recursion limit exceeded"
  | pastEnd => "token read past the end"
  | reversedSpan => "span ends before its start"
  | noProgress => "no token read"

inductive CompileError where
  /-- The source was not read to its end. -/
  | fault (fault : Parser.Fault)
  /-- The source has syntax errors. -/
  | syntaxErrors (diagnostics : List Diagnostic)
  /-- A rule has errors. -/
  | ruleErrors (diagnostics : List Diagnostic)
  /-- A left side has more items than there are names for positions. -/
  | namesExhausted (rule : String) (limit : Nat)

def CompileError.message : CompileError → String
  | fault f => f.message
  | syntaxErrors ds =>
    "rule parsing failed with " ++ toString (Diagnostic.errorCount ds) ++ " errors"
  | ruleErrors ds =>
    "rule analysis failed with " ++ toString (Diagnostic.errorCount ds) ++ " errors"
  | namesExhausted rule limit =>
    "rule `" ++ rule ++ "` has more than " ++ toString limit ++ " left-side items"

end TreeRules
