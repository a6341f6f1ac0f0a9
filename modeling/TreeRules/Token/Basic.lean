import TreeRules.Text.Span

/-!
Tokens of the rule language. Each token keeps its kind, where it stands and what is written there.
-/
namespace TreeRules

/-- The classes of tokens. -/
inductive Token.Kind where
  | parenOpen
  | parenClose
  | bracketOpen
  | bracketClose
  | braceOpen
  | braceClose
  | angleOpen
  | angleClose
  | comma
  | semicolon
  | arrow
  | ellipsis
  | dotDot
  | negation
  | pipe
  | ampersand
  | hole
  | kwLanguage
  | kwNull
  | id
  | stringLiteral
  | charLiteral
  | whitespace
  | lineComment
  /-- Text that no token can hold. -/
  | garbage
  /-- What a reader sees past the last token; no token has this kind. -/
  | endOfInput
deriving DecidableEq

/-- Blanks and comments mean nothing to the grammar. -/
def Token.Kind.isTrivia : Token.Kind → Bool
  | .whitespace | .lineComment => true
  | _ => false

structure Token where
  kind : Token.Kind
  span : Span
  text : String
deriving DecidableEq

namespace Token

def isTrivia (t : Token) : Bool := t.kind.isTrivia

end Token

end TreeRules
