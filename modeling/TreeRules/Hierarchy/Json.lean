import TreeRules.Hierarchy.Load

/-!
Hierarchies written as JSON: an array of declarations, each an object with the members `type`,
`extends` and `kind`, or an array of one to three such values. Members of other names are read over.
-/
namespace TreeRules

/-- A JSON value, as far as declarations tell values apart. -/
inductive Json where
  | null
  /-- A number or a truth value. -/
  | scalar
  /-- A string, or nothing for one that holds half of a surrogate pair. -/
  | string (text : Option String)
  | array (items : List Json)
  | object (members : List (Option String × Json))

namespace Json

def isSpace (c : Char) : Bool := c == ' ' || c == '\n' || c == '\t' || c == '\r'

def skipSpaces (cs : List Char) : List Char := cs.dropWhile isSpace

/-- Reads `word`. -/
def expect : (word : List Char) → List Char → Option (List Char)
  | [], cs => some cs
  | _ :: _, [] => none
  | w :: ws, c :: cs => if w = c then expect ws cs else none

/-- One or more digits. -/
def digits (cs : List Char) : Option (List Char) :=
  if (cs.takeWhile Char.isDigit).isEmpty then none else some (cs.dropWhile Char.isDigit)

/-- The whole part of a number: no leading zeros. -/
def wholePart : List Char → Option (List Char)
  | '0' :: cs => some cs
  | cs => digits cs

def fraction : List Char → Option (List Char)
  | '.' :: cs => digits cs
  | cs => some cs

def exponentDigits : List Char → Option (List Char)
  | '+' :: cs => digits cs
  | '-' :: cs => digits cs
  | cs => digits cs

def exponent : List Char → Option (List Char)
  | 'e' :: cs => exponentDigits cs
  | 'E' :: cs => exponentDigits cs
  | cs => some cs

/-- What is behind a number. -/
def number : List Char → Option (List Char)
  | '-' :: cs => do exponent (← fraction (← wholePart cs))
  | cs => do exponent (← fraction (← wholePart cs))

/-- The value of a hexadecimal digit. -/
def hexDigit? (c : Char) : Option Nat :=
  if '0' ≤ c ∧ c ≤ '9' then some (c.toNat - '0'.toNat)
  else if 'a' ≤ c ∧ c ≤ 'f' then some (c.toNat - 'a'.toNat + 10)
  else if 'A' ≤ c ∧ c ≤ 'F' then some (c.toNat - 'A'.toNat + 10)
  else none

def hex4? (a b c d : Char) : Option Nat := do
  return ((← hexDigit? a) * 16 + (← hexDigit? b)) * 256 + (← hexDigit? c) * 16 + (← hexDigit? d)

/-- A UTF-16 code unit in an escape, or any other character of a string. -/
inductive Piece where
  | unit (code : Nat)
  | char (c : Char)

/-- The character that a backslash before `c` stands for. -/
def escape? : Char → Option Char
  | '"' => some '"'
  | '\\' => some '\\'
  | '/' => some '/'
  | 'b' => some '\x08'
  | 'f' => some '\x0c'
  | 'n' => some '\n'
  | 'r' => some '\r'
  | 't' => some '\t'
  | _ => none

/-- The pieces of a string up to its closing quote, and what is behind it. -/
def pieces : List Char → Option (List Piece × List Char)
  | [] => none
  | '"' :: cs => some ([],cs)
  | '\\' :: 'u' :: a :: b :: c :: d :: cs => do
    let code ← hex4? a b c d
    let (ps,rest) ← pieces cs
    return (.unit code :: ps,rest)
  | '\\' :: c :: cs => do
    let e ← escape? c
    let (ps,rest) ← pieces cs
    return (.char e :: ps,rest)
  | c :: cs =>
    if c = '\\' ∨ c.toNat < 0x20 then none
    else do
      let (ps,rest) ← pieces cs
      return (.char c :: ps,rest)

def isHighSurrogate (code : Nat) : Bool := 0xd800 ≤ code && code ≤ 0xdbff

def isLowSurrogate (code : Nat) : Bool := 0xdc00 ≤ code && code ≤ 0xdfff

/-- The characters of a string. Both halves of a surrogate pair must be there. -/
def decode : List Piece → Option (List Char)
  | [] => some []
  | .char c :: ps => (decode ps).map (c :: ·)
  | .unit hi :: .unit lo :: ps =>
    if isHighSurrogate hi then
      if isLowSurrogate lo then
        (decode ps).map (Char.ofNat ((hi - 0xd800) * 0x400 + (lo - 0xdc00) + 0x10000) :: ·)
      else none
    else if isLowSurrogate hi then none
    else (decode (.unit lo :: ps)).map (Char.ofNat hi :: ·)
  | .unit code :: ps =>
    if isHighSurrogate code || isLowSurrogate code then none
    else (decode ps).map (Char.ofNat code :: ·)

/-- Reads a string after its opening quote. -/
def stringBody (cs : List Char) : Option (Option String × List Char) :=
  (pieces cs).map fun (ps,rest) => ((decode ps).map String.ofList,rest)

mutual

/-- Reads a value; `fuel` bounds the nesting of values and lists in one another. -/
def value : (fuel : Nat) → List Char → Option (Json × List Char)
  | 0, _ => none
  | fuel + 1, cs =>
    match skipSpaces cs with
    | 'n' :: rest => (expect ['u','l','l'] rest).map (Json.null,·)
    | 't' :: rest => (expect ['r','u','e'] rest).map (Json.scalar,·)
    | 'f' :: rest => (expect ['a','l','s','e'] rest).map (Json.scalar,·)
    | '"' :: rest => (stringBody rest).map fun (s,rest) => (Json.string s,rest)
    | '[' :: rest =>
      match skipSpaces rest with
      | ']' :: rest => some (.array [],rest)
      | rest => (items fuel rest).map fun (vs,rest) => (Json.array vs,rest)
    | '\x7b' :: rest =>
      match skipSpaces rest with
      | '\x7d' :: rest => some (.object [],rest)
      | rest => (members fuel rest).map fun (ms,rest) => (Json.object ms,rest)
    | cs => (number cs).map (Json.scalar,·)

/-- Reads the items of an array and its closing bracket. -/
def items : (fuel : Nat) → List Char → Option (List Json × List Char)
  | 0, _ => none
  | fuel + 1, cs => do
    let (v,rest) ← value fuel cs
    match skipSpaces rest with
    | ']' :: rest => return ([v],rest)
    | ',' :: rest =>
      let (vs,rest) ← items fuel rest
      return (v :: vs,rest)
    | _ => none

/-- Reads the members of an object and its closing brace. -/
def members : (fuel : Nat) → List Char → Option (List (Option String × Json) × List Char)
  | 0, _ => none
  | fuel + 1, cs =>
    match skipSpaces cs with
    | '"' :: rest => do
      let (key,rest) ← stringBody rest
      let rest ← expect [':'] (skipSpaces rest)
      let (v,rest) ← value fuel rest
      match skipSpaces rest with
      | '\x7d' :: rest => return ([(key,v)],rest)
      | ',' :: rest =>
        let (ms,rest) ← members fuel rest
        return ((key,v) :: ms,rest)
      | _ => none
    | _ => none

end

/-- The value that `text` holds, with nothing but blanks around it. -/
def parse? (text : String) : Option Json :=
  match value (2 * text.length + 2) text.toList with
  | some (v,rest) => if (skipSpaces rest).isEmpty then some v else none
  | none => none

end Json

namespace TypeKind

def ofWord? : String → Option TypeKind
  | "abstract" => some .abstract
  | "ordinary" => some .ordinary
  | "list" => some .list
  | "literal" => some .literal
  | _ => none

/-- A kind is a word, or an object whose one member has the word as its name and holds nothing. -/
def ofJson? : Json → Option TypeKind
  | .string (some word) => ofWord? word
  | .object [(some word,.null)] => ofWord? word
  | _ => none

end TypeKind

namespace Declaration

/-- A type's name. -/
def nameOfJson? : Json → Option String
  | .string text => text
  | _ => none

/-- A type's parent, if there is one. -/
def parentOfJson? : Json → Option (Option String)
  | .null => some none
  | .string (some name) => some (some name)
  | _ => none

/-- The values of the members named `key`. -/
def membersNamed (key : String) (members : List (Option String × Json)) : List Json :=
  (members.filter (·.1 == some key)).map Prod.snd

/-- Reads the one value of an optional member with `read`, or takes `default` if there is none. -/
def optional? {α : Type} (read : Json → Option α) (default : α) : List Json → Option α
  | [] => some default
  | [v] => read v
  | _ => none

def ofJson? : Json → Option Declaration
  | .array [t] => do return ⟨← nameOfJson? t,none,.ordinary⟩
  | .array [t,p] => do return ⟨← nameOfJson? t,← parentOfJson? p,.ordinary⟩
  | .array [t,p,k] => do
    return ⟨← nameOfJson? t,← parentOfJson? p,← TypeKind.ofJson? k⟩
  | .object members =>
    if members.all (·.1.isSome) then do
      let name ← optional? (fun v => (nameOfJson? v).map some) none (membersNamed "type" members)
      let parent ← optional? parentOfJson? none (membersNamed "extends" members)
      let kind ← optional? TypeKind.ofJson? .ordinary (membersNamed "kind" members)
      return ⟨← name,parent,kind⟩
    else none
  | _ => none

/-- The declarations that a JSON text lists. -/
def listOfJson? (text : String) : Option (List Declaration) := do
  match ← Json.parse? text with
  | .array entries => entries.mapM ofJson?
  | _ => none

end Declaration

/-- The hierarchy that a JSON text declares. -/
def Hierarchy.ofJson (text : String) : Except Hierarchy.Error Hierarchy :=
  match Declaration.listOfJson? text with
  | some ds => ofDeclarations ds
  | none => .error .json

end TreeRules
