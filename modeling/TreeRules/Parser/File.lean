import TreeRules.Config
import TreeRules.Parser.Template
import TreeRules.Rule
import TreeRules.Token.Lexer

/-!
Grammar of rule files.

    file  := (block | rule)*
    block := 'language' Id '{' rule* '}'
    rule  := item (',' item)* '->' template ';'

A rule that cannot be read is skipped up to its end, and reading goes on behind it.
-/
namespace TreeRules

namespace Parser

open Token (Kind)

/-- How many tokens the statement at the head of a token list still has: up to and with the next
semicolon, or up to a brace that closes more than `opened` braces did open. -/
def statementLength : (opened : Nat) → List Token → Nat
  | _, [] => 0
  | opened, t :: ts =>
    match t.kind, opened with
    | .semicolon, _ => 1
    | .braceOpen, opened => statementLength (opened + 1) ts + 1
    | .braceClose, 0 => 0
    | .braceClose, opened + 1 => statementLength opened ts + 1
    | _, opened => statementLength opened ts + 1

/-- Skips the rest of a statement. -/
def skipStatement : Parser Unit := fun s => advance (statementLength 0 s.rest) s

/-- Reads a rule up to its span. -/
def ruleBody (depth : Nat) : Parser (List Item × Template) := do
  let pattern ← separated (item depth)
  expect .arrow .expectedArrow
  let result ← template depth
  expect .semicolon .expectedSemicolon
  return (pattern,result)

/-- Reads a rule; one that is malformed is skipped. -/
def rule (depth : Nat) : Parser (Option Rule) := do
  let start := (← here).start
  match ← attempt (ruleBody depth) with
  | some (pattern,result) => do
    let span ← spanFrom start
    return some ⟨pattern,result,span⟩
  | none => do
    skipStatement
    return none

/-- Reports and skips a token that nothing can begin with. -/
def skipUnexpected : Parser Unit := do
  let text ← peekText
  reportHere .unexpectedToken (some ("`" ++ text ++ "`"))
  let _ ← next

/-- A turn that yields what is there. -/
def Turn.ofOption {α : Type} : Option α → Turn α
  | some a => .item a
  | none => .skip

/-- One turn of reading the rules of a block. -/
def blockTurn (depth : Nat) (opened : Span) : Parser (Turn Rule) := do
  if ← atEnd then
    reportUnclosed .unclosedBrace "language block starts here" opened
    return .done
  else match ← peek with
    | .braceClose => do
      let _ ← next
      return .done
    | kind =>
      if startsItem kind then Turn.ofOption <$> rule depth
      else do
        skipUnexpected
        return .skip

/-- Reads the name of a block, or reports that there is none. -/
def blockName : Parser (Option Token) := do
  match ← eat? .id with
  | some name => return some name
  | none => do
    reportHere .expectedLanguageName none
    return none

/-- Reads a language block. One without a name or without an opening brace counts for nothing. -/
def block (depth : Nat) : Parser (Option Block) := do
  let _ ← next
  let name ← blockName
  match ← eat? .braceOpen with
  | none => do
    reportHere .expectedOpenBrace none
    return none
  | some opened => do
    let rules ← loop (blockTurn depth opened.span)
    return name.map fun t => ⟨t.text,some t.span,rules⟩

/-- What stands at the top of a file. -/
inductive Entry where
  | loose (rule : Rule)
  | block (block : Block)

/-- One turn of reading a file. -/
def fileTurn (depth : Nat) : Parser (Turn Entry) := do
  if ← atEnd then return .done
  else match ← peek with
    | .kwLanguage => return Turn.ofOption ((← block depth).map Entry.block)
    | kind =>
      if startsItem kind then return Turn.ofOption ((← rule depth).map Entry.loose)
      else do
        skipUnexpected
        return .skip

/-- Puts a rule outside the language blocks in front of `blocks`. -/
def addLoose (language : String) (rule : Rule) : List Block → List Block
  | [] => [⟨language,none,[rule]⟩]
  | b :: bs =>
    if b.nameSpan.isNone then { b with rules := rule :: b.rules } :: bs
    else ⟨language,none,[rule]⟩ :: b :: bs

/-- The blocks of a file: neighbouring rules outside the language blocks make one of `language`. -/
def group (language : String) : List Entry → List Block
  | [] => []
  | .loose rule :: entries => addLoose language rule (group language entries)
  | .block b :: entries => b :: group language entries

end Parser

/-- A file that was read, with the diagnostics of reading it. -/
structure Parse where
  file : RuleFile
  diagnostics : List Diagnostic
  /-- How many tokens were read. -/
  fuelUsed : Nat

/-- Where reading starts: at the first token that is neither blank nor comment. -/
def Parser.State.start (tokens : List Token) (endOffset fuel : Nat) : Parser.State where
  rest := tokens.filter (!·.isTrivia)
  lastStop := 0
  endOffset
  fuel
  reportedAt := none
  diagnostics := []

/-- Reads a file from the tokens of a source that ends at `endOffset`. -/
def parseTokens (tokens : List Token) (endOffset : Nat) (config : Config) :
    Except Parser.Fault Parse :=
  let start := Parser.State.start tokens endOffset config.parseFuel
  match Parser.loop (Parser.fileTurn config.recursionLimit) start with
  | .ok entries s =>
    .ok ⟨⟨Parser.group config.defaultLanguage entries⟩,s.diagnostics,config.parseFuel - s.fuel⟩
  | .reject s => .ok ⟨⟨[]⟩,s.diagnostics,config.parseFuel - s.fuel⟩
  | .stop fault => .error fault

/-- Reads a rule source. -/
def parse (source : String) (config : Config) : Except Parser.Fault Parse :=
  parseTokens (lex source) (byteLength source.toList) config

end TreeRules
