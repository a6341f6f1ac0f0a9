/-!
Holes: the numbered places of a pattern whose matches are captured.
-/
namespace TreeRules

/-- A hole, written `#n`. -/
structure Hole where
  number : UInt32
deriving DecidableEq, Inhabited

namespace Hole

def text (h : Hole) : String := "#" ++ toString h.number.toNat

/-- The number that a list of decimal digits writes, continuing from `value`. -/
def digitsValue (value : Nat) (digits : List Char) : Nat :=
  digits.foldl (fun value c => 10 * value + (c.toNat - '0'.toNat)) value

/-- The hole whose number is written by `digits`, if there are digits and the number has at most 32
bits. -/
def ofDigits? (digits : List Char) : Option Hole :=
  let value := digitsValue 0 digits
  if !digits.isEmpty && digits.all Char.isDigit && decide (value < UInt32.size) then
    some ⟨UInt32.ofNat value⟩
  else none

example : ofDigits? ['0','0','7'] = some ⟨7⟩ := by decide
example : ofDigits? [] = none := by decide

end Hole

end TreeRules
