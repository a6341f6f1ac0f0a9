import TreeRules.Compile.Builder
import TreeRules.Compile.Error
import TreeRules.Compile.Matcher
import TreeRules.Rule

/-!
Compiling rules and rule files. Blocks of one language are compiled together, their rules in the
order of their writing.
-/
namespace TreeRules

namespace Compilation

/-- The checkers of a left side, one for each item and position name. -/
def compileCheckers : List Item → (names : List String) → Compilation →
    List Checker × Compilation
  | i :: items, name :: names, s =>
    let m := compileItem i s
    let others := compileCheckers items names m.2
    (⟨name,m.1,i.mode⟩ :: others.1,others.2)
  | _, _, s => ([],s)

/-- Compiles a left side. -/
def compileStrategy (rule : Rule) (s : Compilation) : Except CompileError (Strategy × Compilation) :=
  if rule.pattern.length > Strategy.ordinals.length then
    .error (.namesExhausted rule.text Strategy.ordinals.length)
  else
    let made := compileCheckers rule.pattern Strategy.ordinals s
    .ok (.select made.1,made.2)

/-- Compiles a rule and adds it. -/
def compileRule (rule : Rule) (s : Compilation) : Except CompileError Compilation :=
  match s.compileStrategy rule with
  | .error e => .error e
  | .ok (strategy,s) =>
    let result := s.compileResult rule.result
    .ok <| result.2.insertRule
      { id := result.2.nextRule
        text := rule.text
        span := rule.span
        strategy
        result := result.1
        minConsumed := strategy.minConsumed
        needsFragment := !result.1.isHole }

/-- Compiles rules one after the other. -/
def compileRules : List Rule → Compilation → Except CompileError Compilation
  | [], s => .ok s
  | r :: rules, s =>
    match s.compileRule r with
    | .error e => .error e
    | .ok s => compileRules rules s

end Compilation

namespace RuleFile

/-- The languages of a file, in the order of their first mention. -/
def languageNames (f : RuleFile) : List String := (f.blocks.map Block.name).eraseDups

/-- The rules of all blocks of a language. -/
def rulesOf (f : RuleFile) (language : String) : List Rule :=
  (f.blocks.filter (·.name == language)).flatMap Block.rules

/-- Compiles the languages of a file one after the other. -/
def compileLanguages (f : RuleFile) (h : Option Hierarchy) (config : Config) :
    List String → SymbolTable → Except CompileError Program
  | [], symbols => .ok ⟨symbols,[]⟩
  | name :: names, symbols =>
    match (Compilation.start name h config symbols).compileRules (f.rulesOf name) with
    | .error e => .error e
    | .ok s =>
      match compileLanguages f h config names s.symbols with
      | .error e => .error e
      | .ok p => .ok { p with languages := s.finish :: p.languages }

/-- Compiles a file, whether or not its rules are free of errors. -/
def compile (f : RuleFile) (h : Option Hierarchy) (config : Config) :
    Except CompileError Program :=
  f.compileLanguages h config f.languageNames .empty

end RuleFile

end TreeRules
