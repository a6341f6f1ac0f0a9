import TreeRules.Text.Printable

/-!
Quoted text of strings and characters. A delimiter, a backslash and the usual control characters
are written with a backslash, and a character that does not show is written by its code point.
-/
namespace TreeRules.Text

/-- The code point of `c` in braces, as in `\u{301}`: lower case hexadecimal, no leading zeros. -/
def codePointEscape (c : Char) : String :=
  "\\u\x7b" ++ String.ofList (Nat.toDigits 16 c.toNat) ++ "\x7d"

/-- How `c` stands between two `delimiter`s. -/
def quoteChar (delimiter c : Char) : String :=
  if c = '\x00' then "\\0"
  else if c = '\t' then "\\t"
  else if c = '\r' then "\\r"
  else if c = '\n' then "\\n"
  else if c = '\\' then "\\\\"
  else if c = delimiter then String.ofList ['\\',c]
  else if isPrintable c then String.singleton c
  else codePointEscape c

/-- The characters of `cs` as they stand between two `delimiter`s. -/
def quoteChars (delimiter : Char) : List Char → String
  | [] => ""
  | c :: cs => quoteChar delimiter c ++ quoteChars delimiter cs

/-- `s` between double quotes. -/
def quoted (s : String) : String := "\"" ++ quoteChars '"' s.toList ++ "\""

/-- `c` between single quotes. -/
def quotedChar (c : Char) : String := "'" ++ quoteChar '\'' c ++ "'"

/-- The text of a list in parentheses, nothing if the list is empty. -/
def parenthesized {α : Type} (items : List α) (text : String) : String :=
  if items.isEmpty then "" else "(" ++ text ++ ")"

example : quoteChar '"' '\'' = "'" ∧ quoteChar '\'' '\'' = "\\'" := by decide

end TreeRules.Text
