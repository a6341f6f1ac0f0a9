import TreeRules.Token.Basic

/-!
Reading tokens off a source text. At each place the longest token is taken. Where none fits, the
longest beginning of a token is garbage, and neighbouring pieces of garbage make one token, so the
tokens tile the text.
-/
namespace TreeRules

namespace Lexer

open Token (Kind)

/-- ASCII letters and the underscore begin an identifier. -/
def isIdStart (c : Char) : Bool := c.isAlpha || c == '_'

def isIdChar (c : Char) : Bool := c.isAlphanum || c == '_'

def isBlank (c : Char) : Bool := c == ' ' || c == '\t' || c == '\r' || c == '\n'

/-- What a text begins with: a kind and a number of characters. -/
structure Scan where
  kind : Kind
  length : Nat
deriving DecidableEq

/-- Tokens of one character. -/
def punctuation? : Char → Option Kind
  | '(' => some .parenOpen
  | ')' => some .parenClose
  | '[' => some .bracketOpen
  | ']' => some .bracketClose
  | '\x7b' => some .braceOpen
  | '\x7d' => some .braceClose
  | '<' => some .angleOpen
  | '>' => some .angleClose
  | ',' => some .comma
  | ';' => some .semicolon
  | '!' => some .negation
  | '|' => some .pipe
  | '&' => some .ampersand
  | _ => none

/-- Words that are no identifiers. -/
def wordKind (word : List Char) : Kind :=
  if word = ['l','a','n','g','u','a','g','e'] then .kwLanguage
  else if word = ['n','u','l','l'] then .kwNull
  else .id

/-- The rest of a string literal after `seen` of its characters, the opening quote among them. An
escape may not hold a line end. -/
def scanString : (seen : Nat) → List Char → Scan
  | seen, [] => ⟨.garbage,seen⟩
  | seen, '"' :: _ => ⟨.stringLiteral,seen + 1⟩
  | seen, ['\\'] => ⟨.garbage,seen + 1⟩
  | seen, '\\' :: '\n' :: _ => ⟨.garbage,seen + 1⟩
  | seen, '\\' :: _ :: cs => scanString (seen + 2) cs
  | seen, _ :: cs => scanString (seen + 1) cs

/-- The rest of a character literal after its opening quote. -/
def scanChar : List Char → Scan
  | '\\' :: '\n' :: _ => ⟨.garbage,2⟩
  | '\\' :: _ :: '\'' :: _ => ⟨.charLiteral,4⟩
  | '\\' :: _ :: _ => ⟨.garbage,3⟩
  | ['\\'] => ⟨.garbage,2⟩
  | '\'' :: _ => ⟨.garbage,1⟩
  | _ :: '\'' :: _ => ⟨.charLiteral,3⟩
  | _ :: _ => ⟨.garbage,2⟩
  | [] => ⟨.garbage,1⟩

/-- What a text begins with whose first character is `c`. -/
def scan (c : Char) (cs : List Char) : Scan :=
  match punctuation? c with
  | some kind => ⟨kind,1⟩
  | none =>
    if isIdStart c then
      let word := c :: cs.takeWhile isIdChar
      ⟨wordKind word,word.length⟩
    else if isBlank c then ⟨.whitespace,1 + (cs.takeWhile isBlank).length⟩
    else match c, cs with
      | '-', '>' :: _ => ⟨.arrow,2⟩
      | '.', '.' :: '.' :: _ => ⟨.ellipsis,3⟩
      | '.', '.' :: _ => ⟨.dotDot,2⟩
      | '/', '/' :: r => ⟨.lineComment,2 + (r.takeWhile (· != '\n')).length⟩
      | '#', cs =>
        let digits := cs.takeWhile Char.isDigit
        if digits.isEmpty then ⟨.garbage,1⟩ else ⟨.hole,1 + digits.length⟩
      | '"', cs => scanString 1 cs
      | '\'', cs => scanChar cs
      | _, _ => ⟨.garbage,1⟩

theorem scanString_length_pos (seen : Nat) (cs : List Char) (h : 0 < seen) :
    0 < (scanString seen cs).length := by
  fun_induction scanString seen cs <;> grind

theorem scanChar_length_pos (cs : List Char) : 0 < (scanChar cs).length := by
  fun_cases scanChar cs <;> simp

/-- Whatever a text begins with takes at least one character. -/
theorem scan_length_pos (c : Char) (cs : List Char) : 0 < (scan c cs).length := by
  fun_cases scan c cs with
  | case10 cs => exact scanString_length_pos 1 _ Nat.one_pos
  | case11 cs => exact scanChar_length_pos _
  | _ => grind

/-- The token of the first `length` characters of `chars`, which start at `offset`. -/
def tokenAt (kind : Kind) (length offset : Nat) (chars : List Char) : Token :=
  let text := chars.take length
  ⟨kind,⟨offset,offset + byteLength text⟩,String.ofList text⟩

/-- The pieces of a text that starts at `offset`, garbage not yet joined. The first `skip`
characters belong to a piece that is already cut off. -/
def pieces : (skip offset : Nat) → List Char → List Token
  | _, _, [] => []
  | skip + 1, offset, c :: cs => pieces skip (offset + c.utf8Size) cs
  | 0, offset, c :: cs =>
    let s := scan c cs
    tokenAt s.kind s.length offset (c :: cs) ::
      pieces (s.length - 1) (offset + c.utf8Size) cs

/-- Puts `t` in front of `ts`; two pieces of garbage become one. -/
def joinGarbage (t : Token) : List Token → List Token
  | [] => [t]
  | u :: us =>
    if t.kind = .garbage ∧ u.kind = .garbage then
      ⟨.garbage,⟨t.span.start,u.span.stop⟩,t.text ++ u.text⟩ :: us
    else t :: u :: us

end Lexer

open Lexer in
/-- The tokens of `source`, blanks and comments among them. -/
def lex (source : String) : List Token :=
  (pieces 0 0 source.toList).foldr joinGarbage []

end TreeRules
