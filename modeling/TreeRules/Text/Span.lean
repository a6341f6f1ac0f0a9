/-!
Byte spans of a source text. A span runs from `start` up to, and not including, `stop`; offsets
count the bytes of the text's UTF-8 form.
-/
namespace TreeRules

/-- A half-open range of byte offsets. -/
structure Span where
  start : Nat
  stop : Nat
deriving DecidableEq, Inhabited

namespace Span

/-- The span of something that stands nowhere in a source. -/
def none : Span := ⟨0,0⟩

/-- The empty span at `offset`. -/
def emptyAt (offset : Nat) : Span := ⟨offset,offset⟩

def isEmpty (s : Span) : Bool := s.start == s.stop

/-- Written `start..stop`. -/
def text (s : Span) : String := toString s.start ++ ".." ++ toString s.stop

end Span

/-- Number of bytes that `chars` take in UTF-8. -/
def byteLength : List Char → Nat
  | [] => 0
  | c :: cs => c.utf8Size + byteLength cs

@[simp] theorem byteLength_nil : byteLength [] = 0 := rfl

@[simp] theorem byteLength_cons (c : Char) (cs : List Char) :
    byteLength (c :: cs) = c.utf8Size + byteLength cs := rfl

@[simp] theorem byteLength_append (as bs : List Char) :
    byteLength (as ++ bs) = byteLength as + byteLength bs := by
  induction as with
  | nil => simp
  | cons c cs ih => simp [ih, Nat.add_assoc]

end TreeRules
