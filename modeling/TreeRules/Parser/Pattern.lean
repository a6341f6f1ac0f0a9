import TreeRules.Parser.State
import TreeRules.Pattern.Printer
import TreeRules.Token.Escape

/-!
Grammar of pattern items.

    item  := '[' item ']' | '{' item '}' | '!'? atom
    atom  := Id Hole '...'? | Id data? list? | Hole '...'? | range | '|' list | '&' list | '...'
    range := Char '..' Char ('<' Hole '>')?
    data  := '<' (Hole | String) '>'
    list  := '(' (item (',' item)*)? ')'

Nesting is limited: `item depth` reads items with at most `depth` of them inside one another.
-/
namespace TreeRules.Parser

open Token (Kind)

/-- Tokens that an item can begin with. -/
def startsItem : Kind → Bool
  | .bracketOpen | .braceOpen | .negation | .id | .hole => true
  | .charLiteral | .pipe | .ampersand | .ellipsis => true
  | _ => false

/-- Reads a hole. -/
def hole : Parser Hole := do
  let t ← next
  match Hole.ofDigits? (t.text.toList.drop 1) with
  | some h => pure h
  | none =>
    reportSpan .invalidHoleNumber t.span (some t.text)
    reject

/-- Reads a literal, and resolves what is written between its quotes. -/
def literal : Parser (Token × List Char) := do
  let t ← next
  match unescapeChars (t.text.toList.drop 1).dropLast with
  | .ok chars => pure (t,chars)
  | .error escape =>
    reportSpan .invalidEscape t.span (some escape)
    reject

/-- Reads a character literal. -/
def char : Parser Char := do
  if (← peek) = .charLiteral then
    match ← literal with
    | (_,[c]) => pure c
    | (t,_) =>
      reportSpan .invalidEscape t.span (some t.text)
      reject
  else
    reportHere .expectedCharLiteral none
    reject

/-- Reads `...` if it stands here. -/
def dots : Parser Bool := do
  return (← eat? .ellipsis).isSome

/-- Reads a data block: a hole or a string in angle brackets. -/
def dataBlock : Parser Datum := do
  let opened ← next
  let datum ← match ← peek with
    | .hole => Datum.hole <$> hole
    | .stringLiteral => do
      let (_,chars) ← literal
      pure (Datum.literal (String.ofList chars))
    | _ => do
      reportHere .expectedData none
      reject
  close .angleClose .unclosedAngle opened.span
  return datum

/-- Reads a data block if one begins here. -/
def dataBlock? : Parser (Option Datum) := do
  if (← peek) = .angleOpen then some <$> dataBlock else pure none

variable {α : Type}

/-- One or more elements with commas between them. -/
def separated (element : Parser α) : Parser (List α) := do
  let first ← element
  let others ← loop do
    match ← eat? .comma with
    | some _ => Turn.item <$> element
    | none => pure .done
  return first :: others

/-- Elements in parentheses, with commas between them. -/
def parenthesized (element : Parser α) : Parser (List α) := do
  let opened ← next
  match ← eat? .parenClose with
  | some _ => pure []
  | none =>
    let elements ← separated element
    close .parenClose .unclosedParen opened.span
    return elements

/-- Elements in parentheses if a parenthesis opens here, else none. -/
def children (element : Parser α) : Parser (List α) := do
  if (← peek) = .parenOpen then parenthesized element else pure []

/-- What is left to know of an item once its form is read. -/
abbrev Form := Item.Tag → Item

/-- Reads an item that begins with a type name. -/
def namedForm (item : Parser Item) : Parser Form := do
  let name ← next
  if (← peek) = .hole then
    let h ← hole
    let ellipsis ← dots
    return fun tag => .typedHole tag name.text h ellipsis
  else
    let data ← dataBlock?
    let items ← children item
    return fun tag => .fixed tag name.text data items

/-- Reads an untyped hole. -/
def holeForm : Parser Form := do
  let h ← hole
  let ellipsis ← dots
  return fun tag => .untypedHole tag h ellipsis

/-- Reads a range of characters. -/
def rangeForm : Parser Form := do
  let first ← char
  expect .dotDot .expectedRangeDots
  let last ← char
  match ← eat? .angleOpen with
  | none => return fun tag => .symbolRange tag first last none
  | some opened =>
    if (← peek) = .hole then
      let h ← hole
      close .angleClose .unclosedAngle opened.span
      return fun tag => .symbolRange tag first last (some h)
    else
      reportHere .expectedHole none
      reject

/-- Reads a combinator's items after its sign. -/
def combined (item : Parser Item) : Parser (List Item) := do
  let _ ← next
  if (← peek) = .parenOpen then parenthesized item
  else
    reportHere .expectedOpenParen none
    reject

/-- Reads an item without mode and negation. -/
def form (item : Parser Item) : Parser Form := do
  match ← peek with
  | .id => namedForm item
  | .hole => holeForm
  | .charLiteral => rangeForm
  | .pipe => do
    let items ← combined item
    return fun tag => .anyOf tag items
  | .ampersand => do
    let items ← combined item
    return fun tag => .allOf tag items
  | .ellipsis => do
    let _ ← next
    return Item.rest
  | _ => do
    reportHere .expectedPattern none
    reject

def atom (item : Parser Item) : Parser Item := do
  let start := (← here).start
  let make ← form item
  let span ← spanFrom start
  return make (.plain span)

/-- Reads a negated atom. -/
def negated (item : Parser Item) : Parser Item := do
  let sign ← next
  let inner ← atom item
  let span ← spanOf sign.span.start inner.span.stop
  return inner.withTag { inner.tag with negated := true, span }

/-- Reports an item whose mode is inside another mode. -/
def reportNestedMode (inner : Item) : Parser Unit :=
  if inner.mode = .normal then pure ()
  else reportSpan .nestedMode inner.span (some inner.text)

/-- Reads an item in the brackets of `mode`. -/
def moded (item : Parser Item) (mode : Mode) (closing : Kind) (unclosed : Diagnostic.Kind) :
    Parser Item := do
  let opened ← next
  let inner ← item
  reportNestedMode inner
  close closing unclosed opened.span
  let span ← spanFrom opened.span.start
  return inner.withTag { inner.tag with mode, span }

/-- Reads an item, those inside it by `item`. -/
def itemWith (item : Parser Item) : Parser Item := do
  match ← peek with
  | .bracketOpen => moded item .optional .bracketClose .unclosedBracket
  | .braceOpen => moded item .repeated .braceClose .unclosedBrace
  | .negation => negated item
  | _ => atom item

/-- Reads an item with at most `depth` items inside one another, itself among them. -/
def item : (depth : Nat) → Parser Item
  | 0 => stop .tooDeep
  | depth + 1 => itemWith (item depth)

end TreeRules.Parser
