import TreeRules.Program.Basic
import TreeRules.Text.Quote

/-!
Listings of compiled programs: for each language its matchers, builders and rules, in the order of
their numbers.
-/
namespace TreeRules.Listing

def matcherRef (id : Matcher.Id) : String := "M" ++ toString id

def builderRef (id : Builder.Id) : String := "B" ++ toString id

def ruleRef (id : Nat) : String := "R" ++ toString id

def matcherRefs (ids : List Matcher.Id) : String := ", ".intercalate (ids.map matcherRef)

/-- The name of a symbol. -/
def symbol (symbols : SymbolTable) (s : Symbol) : String := (symbols.name? s).getD ""

/-- The type's name, and the types that count as it unless it is the only one. -/
def typeTest (symbols : SymbolTable) (test : Matcher.TypeTest) : String :=
  if test.accepts = [test.name] then symbol symbols test.name
  else symbol symbols test.name ++ ": " ++
    " | ".intercalate (test.accepts.map (symbol symbols))

def childCondition (symbols : SymbolTable) : Matcher.ChildCondition → String
  | .child index m => "child[" ++ toString index ++ "] matches " ++ matcherRef m
  | .remaining start types =>
    "children[" ++ toString start ++ "..] is-a " ++ typeTest symbols types

def condition (symbols : SymbolTable) : Matcher.Condition → String
  | .type test => "is-a " ++ typeTest symbols test
  | .childCount n => "children == " ++ toString n
  | .minChildCount n => "children >= " ++ toString n
  | .dataEquals text => "data == " ++ Text.quoted text
  | .hasData => "has data"
  | .charRange first last =>
    "char in " ++ Text.quotedChar first ++ ".." ++ Text.quotedChar last
  | .children c => childCondition symbols c
  | .procedure => "matches children:"
  | .anyOf ms => "any of " ++ matcherRefs ms
  | .allOf ms => "all of " ++ matcherRefs ms

def extraction : Matcher.Extraction → String
  | .node h => h.text ++ " <- node"
  | .data h => h.text ++ " <- data"
  | .child h index => h.text ++ " <- [child[" ++ toString index ++ "]]"
  | .remaining h start => h.text ++ " <- children[" ++ toString start ++ "..]"
  | .nested index m => "child[" ++ toString index ++ "] via " ++ matcherRef m
  | .firstOf ms => "first of " ++ matcherRefs ms
  | .each ms => "each of " ++ matcherRefs ms

/-- The lines of a matcher. -/
def matcher (symbols : SymbolTable) (m : Matcher) : List String :=
  ["  " ++ matcherRef m.id ++ " " ++ m.name ++ " `" ++ m.key ++ "`" ++
    if m.negated then " negated" else ""] ++
  m.conditions.map (fun c => "    " ++ condition symbols c) ++
  m.procedure.map (fun c => "      " ++ childCondition symbols c) ++
  m.extractions.map (fun e => "    " ++ extraction e)

def datum : Datum → String
  | .literal text => Text.quoted text
  | .hole h => h.text

def source : Builder.Source → String
  | .hole h => h.text
  | .builder id => builderRef id
  | .null => "null"

/-- The lines of a builder. -/
def builder (symbols : SymbolTable) (b : Builder) : List String :=
  ["  " ++ builderRef b.id ++ " " ++ symbol symbols b.type ++
    if b.needsCaptures then " (captures)" else ""] ++
  b.data.toList.map (fun d => "    data <- " ++ datum d) ++
  if b.children.isEmpty then []
  else ["    children <- " ++ ", ".intercalate (b.children.map source)]

def modeSuffix : Mode → String
  | .normal => ""
  | .optional => " optional"
  | .repeated => " repeated"

def rightSide : RightSide → String
  | .null => "null"
  | .hole h => h.text
  | .subtree id => builderRef id

/-- The lines of a rule. -/
def rule (r : CompiledRule) : List String :=
  ["  " ++ ruleRef r.id ++ " " ++ r.strategy.kindName ++ " min=" ++ toString r.minConsumed ++
    " `" ++ r.text ++ "`"] ++
  r.strategy.checkers.map (fun c =>
    "    " ++ c.name ++ " " ++ matcherRef c.matcher ++ modeSuffix c.mode) ++
  ["    result " ++ rightSide r.result]

/-- The lines of a language. -/
def language (symbols : SymbolTable) (l : Language) : List String :=
  ["language " ++ l.name,"matchers:"] ++ l.matcherList.flatMap (matcher symbols) ++
  (if l.builders.isEmpty then []
    else "builders:" :: l.builderList.flatMap (builder symbols)) ++
  ["rules:"] ++ l.rules.flatMap rule

/-- Lines, each with its line end. -/
def unlines (lines : List String) : String := String.join (lines.map (· ++ "\n"))

/-- The listing of a language. -/
def languageText (symbols : SymbolTable) (l : Language) : String := unlines (language symbols l)

/-- The listing of a program, with a blank line between languages. -/
def programText (p : Program) : String :=
  "\n".intercalate (p.languages.map (languageText p.symbols))

end TreeRules.Listing
