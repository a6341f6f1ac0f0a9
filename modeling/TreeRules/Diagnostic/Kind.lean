/-!
The kinds of diagnostics and their wording. Kinds are listed by phase: reading the file, the shape
of patterns, hole numbering, type names.
-/
namespace TreeRules.Diagnostic

/-- What a diagnostic is about. -/
inductive Kind where
  | unclosedParen
  | unclosedBracket
  | unclosedBrace
  | unclosedAngle
  | expectedPattern
  | expectedResult
  | expectedData
  | expectedHole
  | expectedCharLiteral
  | expectedRangeDots
  | expectedOpenParen
  | expectedOpenBrace
  | expectedLanguageName
  | expectedArrow
  | expectedSemicolon
  | unexpectedToken
  | invalidEscape
  | invalidHoleNumber
  | nestedMode
  | emptyPattern
  | modeNotAllowed
  | emptyCombinator
  | invalidSymbolRange
  | untypedHoleAsNode
  | negationNotAllowed
  | holeUnderNegation
  | misplacedEllipsis
  | dataHoleInRepeated
  | duplicateHole
  | undeclaredHole
  | unknownNodeType
  | abstractResultType
deriving DecidableEq

/-- How grave a diagnostic is. -/
inductive Severity where
  | error
  | warning
deriving DecidableEq

def Severity.text : Severity → String
  | .error => "error"
  | .warning => "warning"

namespace Kind

/-- Every kind makes a rule file invalid. -/
def severity (_ : Kind) : Severity := .error

/-- Kinds found while reading the file. -/
def isSyntax : Kind → Bool
  | unclosedParen | unclosedBracket | unclosedBrace | unclosedAngle => true
  | expectedPattern | expectedResult | expectedData | expectedHole => true
  | expectedCharLiteral | expectedRangeDots | expectedOpenParen | expectedOpenBrace => true
  | expectedLanguageName | expectedArrow | expectedSemicolon => true
  | unexpectedToken | invalidEscape | invalidHoleNumber | nestedMode => true
  | _ => false

/-- Kinds about the shape of a pattern. -/
def isMalformedPattern : Kind → Bool
  | emptyPattern | modeNotAllowed | emptyCombinator | invalidSymbolRange => true
  | untypedHoleAsNode | negationNotAllowed | holeUnderNegation => true
  | misplacedEllipsis | dataHoleInRepeated => true
  | _ => false

/-- The message of a diagnostic that gives no detail. -/
def fallback : Kind → String
  | unclosedParen => "missing closing `)`"
  | unclosedBracket => "missing closing `]`"
  | unclosedBrace => "missing closing `\x7d`"
  | unclosedAngle => "missing closing `>`"
  | expectedPattern => "expected a pattern"
  | expectedResult => "expected a result"
  | expectedData => "expected a hole or a string"
  | expectedHole => "expected a hole"
  | expectedCharLiteral => "expected a character literal"
  | expectedRangeDots => "expected `..` in symbol range"
  | expectedOpenParen => "expected `(`"
  | expectedOpenBrace => "expected `\x7b`"
  | expectedLanguageName => "expected language name"
  | expectedArrow => "expected `->`"
  | expectedSemicolon => "expected `;`"
  | unexpectedToken => "unexpected token"
  | invalidEscape => "invalid escape sequence"
  | invalidHoleNumber => "invalid hole number"
  | nestedMode => "matching modes cannot be nested"
  | emptyPattern => "rule has no left-side items"
  | modeNotAllowed => "only top-level items can be optional or repeated"
  | emptyCombinator => "combinator needs at least one item"
  | invalidSymbolRange => "symbol range is empty"
  | untypedHoleAsNode => "untyped hole cannot stand for a whole node"
  | negationNotAllowed => "only nodes, typed holes and `|` can be negated"
  | holeUnderNegation => "hole under negation can never be bound"
  | misplacedEllipsis => "ellipsis must be the last child of a node"
  | dataHoleInRepeated => "data hole cannot be repeated"
  | duplicateHole => "duplicate hole"
  | undeclaredHole => "undeclared hole"
  | unknownNodeType => "unknown node type"
  | abstractResultType => "abstract type cannot be built"

/-- The texts before and after the detail in a message that gives one. -/
def frame (k : Kind) : String × String :=
  match k with
  | duplicateHole => ("hole `","` is declared more than once")
  | undeclaredHole => ("hole `","` is not declared on the left side")
  | unknownNodeType => ("`","` is not a known node type")
  | abstractResultType => ("`","` is abstract and cannot be built")
  | unclosedParen | unclosedBracket | unclosedBrace | unclosedAngle => (k.fallback ++ "; ","")
  | _ => if k.isMalformedPattern then (k.fallback ++ ": `","`") else (k.fallback ++ ": ","")

/-- The message with a pair of braces in place of the detail. -/
def template (k : Kind) : String := k.frame.1 ++ "\x7b\x7d" ++ k.frame.2

/-- The message of a diagnostic of kind `k`, with its detail if there is one. -/
def message (k : Kind) : Option String → String
  | none => k.fallback
  | some detail => k.frame.1 ++ detail ++ k.frame.2

end Kind

end TreeRules.Diagnostic
