import TreeRules.Text.Span
import TreeRules.Text.Width

/-!
Lines of a source, and the places on a line that byte offsets stand for.
-/
namespace TreeRules.Snippet

/-- A line of a source. -/
structure Line where
  number : Nat
  /-- The offset of its first byte. -/
  start : Nat
  /-- Its characters, the line end taken off. -/
  chars : List Char

namespace Line

/-- The characters up to the first line end, and those behind it if there is one. -/
def cut : List Char → List Char × Option (List Char)
  | [] => ([],none)
  | '\n' :: cs => ([],some cs)
  | c :: cs =>
    let rest := cut cs
    (c :: rest.1,rest.2)

/-- A line without the carriage return of its line end. -/
def chomp (chars : List Char) : List Char :=
  if chars.getLast? = some '\r' then chars.dropLast else chars

/-- The line that holds the byte at `offset`. An offset past the end is on the last line. -/
def holding (offset : Nat) : (fuel number start : Nat) → List Char → Line
  | 0, number, start, chars => ⟨number,start,chars⟩
  | fuel + 1, number, start, chars =>
    match cut chars with
    | (line,none) => ⟨number,start,line⟩
    | (line,some rest) =>
      let next := start + byteLength line + 1
      if offset < next || rest.isEmpty then ⟨number,start,chomp line⟩
      else holding offset fuel (number + 1) next rest

/-- The line of a source that holds the byte at `offset`. -/
def ofSource (source : List Char) (offset : Nat) : Line :=
  holding offset (source.length + 1) 1 0 source

/-- The characters that begin before `bytes` bytes. -/
def charsBefore : (bytes : Nat) → List Char → List Char
  | _, [] => []
  | bytes, c :: cs => if bytes = 0 then [] else c :: charsBefore (bytes - c.utf8Size) cs

/-- A place on a line. -/
structure Place where
  /-- The number of columns before it. -/
  column : Nat
  /-- The number of characters before it. -/
  index : Nat
deriving DecidableEq

/-- Whether `p` is before `q` or is `q`. -/
def Place.isUpTo (p q : Place) : Bool :=
  p.column < q.column || (p.column == q.column && p.index ≤ q.index)

/-- The place of the byte at `offset`. Behind the end of the line all offsets have one place. -/
def place (l : Line) (offset : Nat) : Place :=
  let before := charsBefore (offset - l.start) l.chars
  ⟨Text.width before,before.length⟩

/-- The place where something begins at `offset`. What begins behind the line end has that one
before it. -/
def startPlace (l : Line) (offset : Nat) : Place :=
  let p := l.place offset
  if l.start + byteLength l.chars < offset then { p with index := p.index + 1 } else p

/-- The columns of white space that the line begins with, none if it holds nothing else. -/
def indent (l : Line) : Nat :=
  if l.chars.all Text.isSpace then 0
  else (l.chars.takeWhile Text.isSpace).foldr (fun c n => (if c = '\t' then 4 else 1) + n) 0

end Line

end TreeRules.Snippet
