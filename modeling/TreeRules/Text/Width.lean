import TreeRules.Text.Extending

/-!
Columns of a text on a screen. Controls have no place there, so a sign stands for each of them; it
takes one column. Marks and ignorable code points take none. A character that fills two columns is
counted as one.
-/
namespace TreeRules.Text

/-- Whether `c` steers the direction of the text around it. -/
def isDirection (c : Char) : Bool := inRanges [(0x202a,0x202e),(0x2066,0x2069)] c

/-- What is shown for `c`: a tab is four blanks, a control has its picture, and a direction control
shows as the replacement character. -/
def picture (c : Char) : List Char :=
  if c = '\t' then [' ',' ',' ',' ']
  else if c = '\n' then [c]
  else if c.toNat < 0x20 then [Char.ofNat (0x2400 + c.toNat)]
  else if c = '\x7f' then ['\u2421']
  else if c = '\u200d' then []
  else if isDirection c then ['\ufffd']
  else [c]

/-- The text with a picture for every character that has one. -/
def pictures (chars : List Char) : List Char := chars.flatMap picture

/-- What takes no column and is neither a mark nor ignorable: vowels and finals of Hangul, which
join their initial, and signs that join the letter or the number behind them. -/
def joinedRanges : List (Nat × Nat) :=
  [(0x605,0x605),(0x70f,0x70f),(0x890,0x891),(0x8e2,0x8e2),(0xd4e,0xd4e),
   (0x1160,0x11ff),(0xa8fa,0xa8fa),(0xd7b0,0xd7c6),(0xd7cb,0xd7fb),(0x111c2,0x111c3),
   (0x113d1,0x113d1),(0x1193f,0x1193f),(0x11941,0x11941),(0x11a84,0x11a89),
   (0x11d46,0x11d46),(0x11f02,0x11f02)]

/-- The number of columns of `c`. The joiner of Tifinagh is a mark that shows. -/
def charWidth (c : Char) : Nat :=
  if c = '\t' then 4
  else if c = '\u2d7f' || isDirection c then 1
  else if isIgnorable c || isExtending c || inRanges joinedRanges c then 0
  else 1

/-- The number of columns of a text. -/
def width (chars : List Char) : Nat := chars.foldr (charWidth · + ·) 0

/-- Whether `c` is white space. -/
def isSpace (c : Char) : Bool :=
  inRanges [(0x9,0xd),(0x20,0x20),(0x85,0x85),(0xa0,0xa0),(0x1680,0x1680),
    (0x2000,0x200a),(0x2028,0x2029),(0x202f,0x202f),(0x205f,0x205f),(0x3000,0x3000)] c

/-- The text from column `n` on. -/
def dropColumns : (n : Nat) → List Char → List Char
  | _, [] => []
  | n, c :: cs => if n = 0 then c :: cs else dropColumns (n - charWidth c) cs

/-- As much of the text as fits in `n` columns. -/
def takeColumns : (n : Nat) → List Char → List Char
  | _, [] => []
  | n, c :: cs => if charWidth c ≤ n then c :: takeColumns (n - charWidth c) cs else []

/-- How many characters from the start of a text fill `n` columns; all of them if it has fewer. -/
def charsToFill : (n : Nat) → List Char → Nat
  | _, [] => 0
  | n, c :: cs => if n ≤ charWidth c then 1 else charsToFill (n - charWidth c) cs + 1

example : width ['e','\u0301','\x01'] = 2 := by decide +kernel

end TreeRules.Text
