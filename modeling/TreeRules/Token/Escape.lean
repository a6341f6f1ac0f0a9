/-!
Escapes in the body of a string or character literal.
-/
namespace TreeRules

/-- The character that a backslash before `c` stands for. -/
def escaped? : Char → Option Char
  | 'n' => some '\n'
  | 't' => some '\t'
  | 'r' => some '\r'
  | '\\' => some '\\'
  | '"' => some '"'
  | '\'' => some '\''
  | _ => none

/-- Resolves the escapes of a literal's body, the quotes taken off. Fails with the first escape
that stands for nothing. -/
def unescapeChars : List Char → Except String (List Char)
  | [] => .ok []
  | ['\\'] => .error "\\"
  | '\\' :: c :: cs =>
    match escaped? c with
    | some d => (unescapeChars cs).map (d :: ·)
    | none => .error (String.ofList ['\\',c])
  | c :: cs => (unescapeChars cs).map (c :: ·)

def unescape (body : String) : Except String String :=
  (unescapeChars body.toList).map String.ofList

example : unescapeChars ['a','\\','n'] = .ok ['a','\n'] := by rfl

end TreeRules
