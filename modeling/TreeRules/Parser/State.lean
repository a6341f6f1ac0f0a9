import TreeRules.Diagnostic.Basic
import TreeRules.Token.Basic

/-!
Parsers over token lists. A parser yields a value, or rejects what it reads and leaves the state
where it stopped, or breaks off for good. Diagnostics are kept in either state, at most one in a
row for one place.
-/
namespace TreeRules

/-- Why a file is not read to its end. The last three name slips in the grammar's own bookkeeping,
which no list of tokens brings about. -/
inductive Parser.Fault where
  /-- More tokens than may be read. -/
  | fuelExhausted
  /-- Items or templates are nested too deeply. -/
  | tooDeep
  /-- A token was taken where none is left. -/
  | pastEnd
  /-- A span was made that ends before its start. -/
  | reversedSpan
  /-- A loop took a turn without reading a token. -/
  | noProgress
deriving DecidableEq

structure Parser.State where
  /-- The tokens not yet read. -/
  rest : List Token
  /-- Where the last token read ends. -/
  lastStop : Nat
  /-- Where the source ends. -/
  endOffset : Nat
  /-- How many more tokens may be read. -/
  fuel : Nat
  /-- The place of the last diagnostic. -/
  reportedAt : Option Nat
  diagnostics : List Diagnostic

/-- What a parser comes to. -/
inductive Parser.Outcome (α : Type) where
  | ok (value : α) (state : Parser.State)
  | reject (state : Parser.State)
  | stop (fault : Parser.Fault)

def Parser (α : Type) : Type := Parser.State → Parser.Outcome α

namespace Parser

open Token (Kind)

variable {α β : Type}

/-- Runs `p`, and `f` on its value. -/
def andThen (p : Parser α) (f : α → Parser β) : Parser β := fun s =>
  match p s with
  | .ok a t => f a t
  | .reject t => .reject t
  | .stop fault => .stop fault

instance : Monad Parser where
  pure a := fun s => .ok a s
  bind := andThen

theorem bind_apply (p : Parser α) (f : α → Parser β) (s : State) :
    (p >>= f) s = match p s with
      | .ok a t => f a t
      | .reject t => .reject t
      | .stop fault => .stop fault := rfl

/-- Gives up on what is being read. -/
def reject : Parser α := fun s => .reject s

/-- Breaks off. -/
def stop (fault : Fault) : Parser α := fun _ => .stop fault

/-- The value of `p`, nothing where it rejects. -/
def attempt (p : Parser α) : Parser (Option α) := fun s =>
  match p s with
  | .ok a t => .ok (some a) t
  | .reject t => .ok none t
  | .stop fault => .stop fault

def atEnd : Parser Bool := fun s => .ok s.rest.isEmpty s

/-- The kind of the next token. -/
def peek : Parser Kind := fun s =>
  match s.rest with
  | [] => .ok .endOfInput s
  | t :: _ => .ok t.kind s

/-- What is written in the next token. -/
def peekText : Parser String := fun s =>
  match s.rest with
  | [] => .ok "" s
  | t :: _ => .ok t.text s

/-- Where the next token stands; past the last one, the end of the source. -/
def here : Parser Span := fun s =>
  match s.rest with
  | [] => .ok (.emptyAt s.endOffset) s
  | t :: _ => .ok t.span s

/-- Reads the next token. -/
def next : Parser Token := fun s =>
  match s.rest with
  | [] => .stop .pastEnd
  | t :: ts =>
    if s.fuel = 0 then .stop .fuelExhausted
    else .ok t { s with rest := ts, lastStop := t.span.stop, fuel := s.fuel - 1 }

/-- Reads `n` tokens. -/
def advance : Nat → Parser Unit
  | 0 => pure ()
  | n + 1 => do
    let _ ← next
    advance n

/-- Reads the next token if it is of `kind`. -/
def eat? (kind : Kind) : Parser (Option Token) := do
  if (← peek) = kind then some <$> next else pure none

/-- The span from `start` to `stop`. -/
def spanOf (start stop : Nat) : Parser Span :=
  if start ≤ stop then pure ⟨start,stop⟩ else .stop .reversedSpan

/-- The span from `start` to the end of the last token read. -/
def spanFrom (start : Nat) : Parser Span := fun s => spanOf start s.lastStop s

/-- Adds `diagnostic`, unless the one before it was for the same `place`. -/
def reportAt (place : Nat) (diagnostic : Diagnostic) : Parser Unit := fun s =>
  if s.reportedAt = some place then .ok () s
  else .ok () { s with
    reportedAt := some place, diagnostics := s.diagnostics ++ [diagnostic] }

/-- Reports `kind` about `span`. -/
def reportSpan (kind : Diagnostic.Kind) (span : Span) (detail : Option String) : Parser Unit :=
  reportAt span.start (.report kind span detail [])

/-- Reports `kind` about the next token. -/
def reportHere (kind : Diagnostic.Kind) (detail : Option String) : Parser Unit := do
  reportSpan kind (← here) detail

/-- Reports that something opened at `opened` is not closed before the next token. -/
def reportUnclosed (kind : Diagnostic.Kind) (note : String) (opened : Span) : Parser Unit :=
  fun s =>
    match here s with
    | .ok span _ =>
      if s.reportedAt = some span.start then .ok () s
      else (do
        let whole ← spanOf opened.start span.stop
        reportAt span.start (.report kind whole none [⟨note,opened⟩])) s
    | .reject t => .reject t
    | .stop fault => .stop fault

/-- Reads a token of `kind`, or reports `missing` and gives up. -/
def expect (kind : Kind) (missing : Diagnostic.Kind) : Parser Unit := do
  match ← eat? kind with
  | some _ => pure ()
  | none =>
    reportHere missing none
    reject

/-- Reads the token that closes what was opened at `opened`, or reports it and gives up. -/
def close (kind : Kind) (unclosed : Diagnostic.Kind) (opened : Span) : Parser Unit := do
  match ← eat? kind with
  | some _ => pure ()
  | none =>
    reportUnclosed unclosed "opened here" opened
    reject

/-- What one turn of a loop comes to. -/
inductive Turn (α : Type) where
  | done
  | skip
  | item (value : α)

/-- At most `budget` turns of `step`, with the values of those that gave one. -/
def turns (step : Parser (Turn α)) : (budget : Nat) → Parser (List α)
  | 0 => stop .noProgress
  | budget + 1 => do
    match ← step with
    | .done => pure []
    | .skip => turns step budget
    | .item a => (a :: ·) <$> turns step budget

/-- Turns of `step` until one is the last. Each but the last reads a token. -/
def loop (step : Parser (Turn α)) : Parser (List α) := fun s =>
  turns step (s.rest.length + 1) s

end Parser

end TreeRules
