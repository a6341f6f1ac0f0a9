import TreeRules.Check
import TreeRules.Compile.File
import TreeRules.Parser.File

/-!
From a rule source to a program: read, check, compile.
-/
namespace TreeRules

/-- Rules that were read or put together, with the settings for the steps to come. -/
structure RuleSet where
  /-- The source that the rules were read from, if any. -/
  source : Option String
  file : RuleFile
  syntaxDiagnostics : List Diagnostic
  /-- How many tokens were read. -/
  fuelUsed : Nat
  hierarchy : Option Hierarchy
  config : Config

namespace RuleSet

/-- Reads the rules of `source`. -/
def read (source : String) (hierarchy : Option Hierarchy) (config : Config) :
    Except CompileError RuleSet :=
  match parse source config with
  | .error fault => .error (.fault fault)
  | .ok p => .ok ⟨some source,p.file,p.diagnostics,p.fuelUsed,hierarchy,config⟩

/-- Takes rules as they are. -/
def ofFile (file : RuleFile) (hierarchy : Option Hierarchy) (config : Config) : RuleSet :=
  ⟨none,file,[],0,hierarchy,config⟩

variable (r : RuleSet)

/-- The diagnostics of checking the rules. -/
def ruleDiagnostics : List Diagnostic := r.file.check r.hierarchy

/-- All diagnostics, those of reading first. -/
def diagnostics : List Diagnostic := r.syntaxDiagnostics ++ r.ruleDiagnostics

def isValid : Bool :=
  !Diagnostic.hasErrors r.syntaxDiagnostics && !Diagnostic.hasErrors r.ruleDiagnostics

/-- Compiles the rules, whether or not they are free of errors. -/
def compileUnchecked : Except CompileError Program := r.file.compile r.hierarchy r.config

/-- Compiles rules that are free of errors. -/
def compile : Except CompileError Program :=
  if Diagnostic.hasErrors r.syntaxDiagnostics then .error (.syntaxErrors r.syntaxDiagnostics)
  else if Diagnostic.hasErrors r.ruleDiagnostics then .error (.ruleErrors r.ruleDiagnostics)
  else r.compileUnchecked

end RuleSet

end TreeRules
