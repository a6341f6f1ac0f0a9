import TreeRules.Parser.File
import TreeRules.Proofs.Token.Slices
import Mathlib.Algebra.Group.Nat.Defs

/-! Reading by position. Tokens are a row of kinds and spans, and what is written in a token is cut
out of the source. A limit that is passed is noted, and reading goes on up to the next place where
the note is looked for. Every step that could go wrong has a panic of its own. -/
namespace TreeRules

/-- What must not happen. -/
inductive Cursor.Panic where
  /-- A token is taken where none is left. -/
  | pastEnd
  /-- A span is made that ends before its start. -/
  | reversedSpan
  /-- A slice reaches out of its text, or cuts a character. -/
  | badSlice
  /-- A turn of a loop neither reads a token nor passes a limit. -/
  | stuck
  /-- A loop takes more turns, or calls nest more deeply, than was foreseen. -/
  | endless
  /-- More tokens may be read at the end than at the start. -/
  | overflow
deriving DecidableEq

/-- A token without its text. -/
structure Cursor.Mark where
  kind : Token.Kind
  span : Span

/-- What is read, and the limit that does not change while it is read. -/
structure Cursor.Input where
  source : List Char
  marks : List Mark
  /-- Where the source ends. -/
  endOffset : Nat
  recursionLimit : Nat

structure Cursor.State where
  /-- How many tokens were read. -/
  pos : Nat
  /-- How deeply the current item or template is nested. -/
  depth : Nat
  /-- How many more tokens may be read. -/
  fuel : Nat
  /-- The limit that was passed first. -/
  fatal : Option Parser.Fault
  reportedAt : Option Nat
  diagnostics : List Diagnostic

inductive Cursor.Outcome (α : Type) where
  | ok (value : α) (state : Cursor.State)
  | reject (state : Cursor.State)
  | panic (fault : Cursor.Panic)

def Cursor (α : Type) : Type := Cursor.Input → Cursor.State → Cursor.Outcome α

namespace Cursor

open Token (Kind)
open TreeRules.Parser (Turn Entry Form startsItem)

variable {α β : Type}

def andThen (p : Cursor α) (f : α → Cursor β) : Cursor β := fun i c =>
  match p i c with
  | .ok a d => f a i d
  | .reject d => .reject d
  | .panic fault => .panic fault

instance : Monad Cursor where
  pure a := fun _ c => .ok a c
  bind := andThen

def reject : Cursor α := fun _ c => .reject c

def panic (fault : Panic) : Cursor α := fun _ _ => .panic fault

def attempt (p : Cursor α) : Cursor (Option α) := fun i c =>
  match p i c with
  | .ok a d => .ok (some a) d
  | .reject d => .ok none d
  | .panic fault => .panic fault

/-- Notes that a limit was passed, unless one was passed before. -/
def State.pass (fault : Parser.Fault) (c : State) : State :=
  { c with fatal := c.fatal.or (some fault) }

/-- The state behind the next token. What is not paid for is read all the same. -/
def State.step (c : State) : State :=
  if c.fuel = 0 then { c.pass .fuelExhausted with pos := c.pos + 1 }
  else { c with pos := c.pos + 1, fuel := c.fuel - 1 }

/-- Where loops look whether to go on: not at the end, nor once a limit was passed. -/
def shouldStop : Cursor Bool := fun i c =>
  .ok (decide (i.marks.length ≤ c.pos) || c.fatal.isSome) c

def peek : Cursor Kind := fun i c => .ok (i.marks[c.pos]?.elim .endOfInput Mark.kind) c

def here : Cursor Span := fun i c =>
  .ok (i.marks[c.pos]?.elim (.emptyAt i.endOffset) Mark.span) c

/-- The part of a text between two offsets. -/
def slice (start stop : Nat) (text : List Char) : Cursor (List Char) :=
  match Text.slice? start stop text with
  | some chars => pure chars
  | none => panic .badSlice

/-- What is written in a token. -/
def written (m : Mark) : Cursor String := fun i c =>
  (String.ofList <$> slice m.span.start m.span.stop i.source) i c

def peekText : Cursor String := fun i c =>
  match i.marks[c.pos]? with
  | some m => written m i c
  | none => .ok "" c

/-- Reads the next token, and what is written in it. -/
def next : Cursor Token := fun i c =>
  match i.marks[c.pos]? with
  | none => .panic .pastEnd
  | some m => (do return ⟨m.kind,m.span,← written m⟩ : Cursor Token) i c.step

def eat? (kind : Kind) : Cursor (Option Token) := do
  if (← peek) = kind then some <$> next else pure none

def spanOf (start stop : Nat) : Cursor Span :=
  if start ≤ stop then pure ⟨start,stop⟩ else panic .reversedSpan

/-- Where the last token that was read ends. -/
def lastStop (i : Input) (c : State) : Nat :=
  match c.pos with
  | 0 => 0
  | last + 1 => i.marks[last]?.elim 0 (·.span.stop)

def spanFrom (start : Nat) : Cursor Span := fun i c => spanOf start (lastStop i c) i c

def reportAt (place : Nat) (diagnostic : Diagnostic) : Cursor Unit := fun _ c =>
  if c.reportedAt = some place then .ok () c
  else .ok () { c with
    reportedAt := some place, diagnostics := c.diagnostics ++ [diagnostic] }

def reportSpan (kind : Diagnostic.Kind) (span : Span) (detail : Option String) : Cursor Unit :=
  reportAt span.start (.report kind span detail [])

def reportHere (kind : Diagnostic.Kind) (detail : Option String) : Cursor Unit := do
  reportSpan kind (← here) detail

/-- Whether the last diagnostic was for `place`. -/
def reported (place : Nat) : Cursor Bool := fun _ c => .ok (decide (c.reportedAt = some place)) c

/-- The span of what is not closed is made only if it is reported. -/
def reportUnclosed (kind : Diagnostic.Kind) (note : String) (opened : Span) : Cursor Unit := do
  let span ← here
  if ← reported span.start then pure ()
  else
    let whole ← spanOf opened.start span.stop
    reportAt span.start (.report kind whole none [⟨note,opened⟩])

def expect (kind : Kind) (missing : Diagnostic.Kind) : Cursor Unit := do
  match ← eat? kind with
  | some _ => pure ()
  | none =>
    reportHere missing none
    reject

def close (kind : Kind) (unclosed : Diagnostic.Kind) (opened : Span) : Cursor Unit := do
  match ← eat? kind with
  | some _ => pure ()
  | none =>
    reportUnclosed unclosed "opened here" opened
    reject

/-! Loops. -/

/-- From `c` to `d` a token was read, or a limit was passed that was not passed before. -/
def Progress (c d : State) : Prop := c.pos < d.pos ∨ c.fatal = none ∧ d.fatal ≠ none

instance (c d : State) : Decidable (Progress c d) := inferInstanceAs (Decidable (_ ∨ _))

/-- A turn after which a loop goes on must have made progress. -/
def watched (goesOn : α → Bool) (turn : Cursor α) : Cursor α := fun i c =>
  match turn i c with
  | .ok a d => if goesOn a = true ∧ ¬ Progress c d then .panic .stuck else .ok a d
  | o => o

def goesOn : Turn α → Bool
  | .done => false
  | _ => true

def turns (turn : Cursor (Turn α)) : (budget : Nat) → Cursor (List α)
  | 0 => panic .endless
  | budget + 1 => do
    match ← watched goesOn turn with
    | .done => pure []
    | .skip => turns turn budget
    | .item a => (a :: ·) <$> turns turn budget

/-- Turns until one is the last: one for each token that is left, one that passes a limit, and the
last one. -/
def loop (turn : Cursor (Turn α)) : Cursor (List α) := fun i c =>
  turns turn (i.marks.length - c.pos + 2) i c

/-! Items. -/

def hole : Cursor Hole := do
  let t ← next
  let digits ← slice 1 (byteLength t.text.toList) t.text.toList
  match Hole.ofDigits? digits with
  | some h => pure h
  | none =>
    reportSpan .invalidHoleNumber t.span (some t.text)
    reject

def literal : Cursor (Token × List Char) := do
  let t ← next
  let body ← slice 1 (byteLength t.text.toList - 1) t.text.toList
  match unescapeChars body with
  | .ok chars => pure (t,chars)
  | .error escape =>
    reportSpan .invalidEscape t.span (some escape)
    reject

def char : Cursor Char := do
  if (← peek) = .charLiteral then
    match ← literal with
    | (_,[c]) => pure c
    | (t,_) =>
      reportSpan .invalidEscape t.span (some t.text)
      reject
  else
    reportHere .expectedCharLiteral none
    reject

def dots : Cursor Bool := do
  return (← eat? .ellipsis).isSome

def dataBlock : Cursor Datum := do
  let opened ← next
  let datum ← match ← peek with
    | .hole => Datum.hole <$> hole
    | .stringLiteral => do
      let (_,chars) ← literal
      pure (Datum.literal (String.ofList chars))
    | _ => do
      reportHere .expectedData none
      reject
  close .angleClose .unclosedAngle opened.span
  return datum

def dataBlock? : Cursor (Option Datum) := do
  if (← peek) = .angleOpen then some <$> dataBlock else pure none

def separated (element : Cursor α) : Cursor (List α) := do
  let first ← element
  let others ← loop do
    match ← eat? .comma with
    | some _ => Turn.item <$> element
    | none => pure .done
  return first :: others

def parenthesized (element : Cursor α) : Cursor (List α) := do
  let opened ← next
  match ← eat? .parenClose with
  | some _ => pure []
  | none =>
    let elements ← separated element
    close .parenClose .unclosedParen opened.span
    return elements

def children (element : Cursor α) : Cursor (List α) := do
  if (← peek) = .parenOpen then parenthesized element else pure []

def namedForm (item : Cursor Item) : Cursor Form := do
  let name ← next
  if (← peek) = .hole then
    let h ← hole
    let ellipsis ← dots
    return fun tag => .typedHole tag name.text h ellipsis
  else
    let data ← dataBlock?
    let items ← children item
    return fun tag => .fixed tag name.text data items

def holeForm : Cursor Form := do
  let h ← hole
  let ellipsis ← dots
  return fun tag => .untypedHole tag h ellipsis

def rangeForm : Cursor Form := do
  let first ← char
  expect .dotDot .expectedRangeDots
  let last ← char
  match ← eat? .angleOpen with
  | none => return fun tag => .symbolRange tag first last none
  | some opened =>
    if (← peek) = .hole then
      let h ← hole
      close .angleClose .unclosedAngle opened.span
      return fun tag => .symbolRange tag first last (some h)
    else
      reportHere .expectedHole none
      reject

def combined (item : Cursor Item) : Cursor (List Item) := do
  let _ ← next
  if (← peek) = .parenOpen then parenthesized item
  else
    reportHere .expectedOpenParen none
    reject

def form (item : Cursor Item) : Cursor Form := do
  match ← peek with
  | .id => namedForm item
  | .hole => holeForm
  | .charLiteral => rangeForm
  | .pipe => do
    let items ← combined item
    return fun tag => .anyOf tag items
  | .ampersand => do
    let items ← combined item
    return fun tag => .allOf tag items
  | .ellipsis => do
    let _ ← next
    return Item.rest
  | _ => do
    reportHere .expectedPattern none
    reject

def atom (item : Cursor Item) : Cursor Item := do
  let start := (← here).start
  let make ← form item
  let span ← spanFrom start
  return make (.plain span)

def negated (item : Cursor Item) : Cursor Item := do
  let sign ← next
  let inner ← atom item
  let span ← spanOf sign.span.start inner.span.stop
  return inner.withTag { inner.tag with negated := true, span }

def reportNestedMode (inner : Item) : Cursor Unit :=
  if inner.mode = .normal then pure ()
  else reportSpan .nestedMode inner.span (some inner.text)

def moded (item : Cursor Item) (mode : Mode) (closing : Kind) (unclosed : Diagnostic.Kind) :
    Cursor Item := do
  let opened ← next
  let inner ← item
  reportNestedMode inner
  close closing unclosed opened.span
  let span ← spanFrom opened.span.start
  return inner.withTag { inner.tag with mode, span }

def itemWith (item : Cursor Item) : Cursor Item := do
  match ← peek with
  | .bracketOpen => moded item .optional .bracketClose .unclosedBracket
  | .braceOpen => moded item .repeated .braceClose .unclosedBrace
  | .negation => negated item
  | _ => atom item

/-- One level deeper, if the limit on nesting lets it be. -/
def enter : Cursor Bool := fun i c =>
  if i.recursionLimit ≤ c.depth then .ok false (c.pass .tooDeep)
  else .ok true { c with depth := c.depth + 1 }

def leave : Cursor Unit := fun _ c => .ok () { c with depth := c.depth - 1 }

def nested (p : Cursor α) : Cursor α := do
  if ← enter then
    let inner ← attempt p
    leave
    match inner with
    | some a => pure a
    | none => reject
  else reject

/-- Reads an item; `calls` is how deeply the reading of items may nest. -/
def item : (calls : Nat) → Cursor Item
  | 0 => panic .endless
  | calls + 1 => nested (itemWith (item calls))

/-! Templates. -/

def templateForm (template : Cursor Template) : Cursor (Span → Template) := do
  match ← peek with
  | .kwNull => do
    let _ ← next
    return Template.null
  | .hole => do
    let h ← hole
    return fun span => .hole span h
  | .id => do
    let name ← next
    let data ← dataBlock?
    let parts ← children template
    return fun span => .subtree span name.text data parts
  | _ => do
    reportHere .expectedResult none
    reject

def templateWith (template : Cursor Template) : Cursor Template := do
  let start := (← here).start
  let make ← templateForm template
  let span ← spanFrom start
  return make span

def template : (calls : Nat) → Cursor Template
  | 0 => panic .endless
  | calls + 1 => nested (templateWith (template calls))

/-! Files. -/

/-- How many braces are open behind a token. -/
def bracesAfter (kind : Kind) (opened : Nat) : Nat :=
  match kind with
  | .braceOpen => opened + 1
  | .braceClose => opened - 1
  | _ => opened

/-- One turn of skipping the rest of a statement, with `opened` braces open: how many are open after
it, or that it was the last. -/
def skipTurn (opened : Nat) : Cursor (Option Nat) := do
  if ← shouldStop then return none
  else
    let kind ← peek
    if kind = .semicolon then
      let _ ← next
      return none
    else if kind = .braceClose ∧ opened = 0 then return none
    else
      let _ ← next
      return some (bracesAfter kind opened)

def skips : (budget opened : Nat) → Cursor Unit
  | 0, _ => panic .endless
  | budget + 1, opened => do
    match ← watched Option.isSome (skipTurn opened) with
    | none => pure ()
    | some opened => skips budget opened

def skipStatement : Cursor Unit := fun i c => skips (i.marks.length - c.pos + 2) 0 i c

def ruleBody (calls : Nat) : Cursor (List Item × Template) := do
  let pattern ← separated (item calls)
  expect .arrow .expectedArrow
  let result ← template calls
  expect .semicolon .expectedSemicolon
  return (pattern,result)

def rule (calls : Nat) : Cursor (Option Rule) := do
  let start := (← here).start
  match ← attempt (ruleBody calls) with
  | some (pattern,result) => do
    let span ← spanFrom start
    return some ⟨pattern,result,span⟩
  | none => do
    skipStatement
    return none

def skipUnexpected : Cursor Unit := do
  let text ← peekText
  reportHere .unexpectedToken (some ("`" ++ text ++ "`"))
  let _ ← next

def blockTurn (calls : Nat) (opened : Span) : Cursor (Turn Rule) := do
  if ← shouldStop then
    reportUnclosed .unclosedBrace "language block starts here" opened
    return .done
  else match ← peek with
    | .braceClose => do
      let _ ← next
      return .done
    | kind =>
      if startsItem kind then Turn.ofOption <$> rule calls
      else do
        skipUnexpected
        return .skip

def blockName : Cursor (Option Token) := do
  match ← eat? .id with
  | some name => return some name
  | none => do
    reportHere .expectedLanguageName none
    return none

def block (calls : Nat) : Cursor (Option Block) := do
  let _ ← next
  let name ← blockName
  match ← eat? .braceOpen with
  | none => do
    reportHere .expectedOpenBrace none
    return none
  | some opened => do
    let rules ← loop (blockTurn calls opened.span)
    return name.map fun t => ⟨t.text,some t.span,rules⟩

def fileTurn (calls : Nat) : Cursor (Turn Entry) := do
  if ← shouldStop then return .done
  else match ← peek with
    | .kwLanguage => return Turn.ofOption ((← block calls).map Entry.block)
    | kind =>
      if startsItem kind then return Turn.ofOption ((← rule calls).map Entry.loose)
      else do
        skipUnexpected
        return .skip

/-- An offset as a number of 32 bits. -/
def word (offset : Nat) : Nat := offset % 2 ^ 32

/-- The tokens of a source that are neither blank nor comment, without their texts. -/
def Input.of (source : String) (config : Config) : Input where
  source := source.toList
  marks := ((lex source).filter (!·.isTrivia)).map fun t =>
    ⟨t.kind,⟨word t.span.start,word t.span.stop⟩⟩
  endOffset := word (byteLength source.toList)
  recursionLimit := config.recursionLimit

def State.start (config : Config) : State := ⟨0,0,config.parseFuel,none,none,[]⟩

/-- What was read, unless a limit was passed. -/
def conclude (config : Config) (entries : List Entry) (c : State) :
    Except Panic (Except Parser.Fault Parse) :=
  match c.fatal with
  | some fault => .ok (.error fault)
  | none =>
    if config.parseFuel < c.fuel then .error .overflow
    else .ok (.ok ⟨⟨Parser.group config.defaultLanguage entries⟩,c.diagnostics,
      config.parseFuel - c.fuel⟩)

/-- Reads a rule source by position. Calls nest one deeper than the limit: the last one notes that
it was passed. -/
def parse (source : String) (config : Config) : Except Panic (Except Parser.Fault Parse) :=
  match loop (fileTurn (config.recursionLimit + 1)) (.of source config) (.start config) with
  | .ok entries c => conclude config entries c
  | .reject c => conclude config [] c
  | .panic fault => .error fault

end Cursor

end TreeRules
