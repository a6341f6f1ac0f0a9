import TreeRules.Token.Lexer
import Mathlib.Tactic.Common

/-! Where the tokens of a source stand: one behind the other, from its start to its end. -/
namespace TreeRules

namespace Token

/-- Tokens stand one behind the other between two offsets. -/
def InOrder : Nat → List Token → Nat → Prop
  | low, [], high => low ≤ high
  | low, t :: ts, high =>
    low ≤ t.span.start ∧ t.span.start ≤ t.span.stop ∧ InOrder t.span.stop ts high

namespace InOrder

variable {low high : Nat} {ts : List Token}

lemma mono {low' : Nat} (hl : low' ≤ low) (h : InOrder low ts high) : InOrder low' ts high := by
  cases ts with
  | nil => exact Nat.le_trans hl h
  | cons t ts => exact ⟨Nat.le_trans hl h.1,h.2⟩

/-- Tokens that are left out leave the others in order. -/
lemma filter (p : Token → Bool) (h : InOrder low ts high) : InOrder low (ts.filter p) high := by
  induction ts generalizing low with
  | nil => exact h
  | cons t ts ih =>
    rw [List.filter_cons]
    split_ifs
    · exact ⟨h.1,h.2.1,ih h.2.2⟩
    · exact (ih h.2.2).mono (Nat.le_trans h.1 h.2.1)

end InOrder

end Token

namespace Lexer

open Token (Kind InOrder)

variable {low high : Nat} {t : Token} {ts : List Token}

/-- The pieces of a text stand in order behind what is already cut off. -/
lemma inOrder_pieces (skip offset : Nat) (chars : List Char) :
    InOrder (offset + byteLength (chars.take skip)) (pieces skip offset chars)
      (offset + byteLength chars) := by
  fun_induction pieces skip offset chars with
  | case1 skip offset =>
    rw [List.take_nil]
    exact Nat.le_refl _
  | case2 skip offset c cs ih => simpa [Nat.add_assoc] using ih
  | case3 offset c cs s ih =>
    refine ⟨by simp [tokenAt],by simp [tokenAt],?_⟩
    obtain ⟨n,hn⟩ := Nat.exists_eq_succ_of_ne_zero (Nat.ne_of_gt (scan_length_pos c cs))
    have hs : s.length = n + 1 := hn
    simpa [tokenAt, hs, Nat.add_assoc] using ih

lemma inOrder_joinGarbage (h : InOrder low (t :: ts) high) :
    InOrder low (joinGarbage t ts) high := by
  fun_cases joinGarbage t ts with
  | case1 => exact h
  | case2 u us hk =>
    obtain ⟨h₁,h₂,h₃,h₄,h₅⟩ := h
    refine ⟨h₁,?_,h₅⟩
    exact Nat.le_trans h₂ (Nat.le_trans h₃ h₄)
  | case3 => exact h

lemma inOrder_join (h : InOrder low ts high) : InOrder low (ts.foldr joinGarbage []) high := by
  induction ts generalizing low with
  | nil => exact h
  | cons t ts ih => exact inOrder_joinGarbage ⟨h.1,h.2.1,ih h.2.2⟩

/-- The tokens of a source stand in order. -/
theorem inOrder_lex (source : String) :
    InOrder 0 (lex source) (byteLength source.toList) := by
  have h := inOrder_join (inOrder_pieces 0 0 source.toList)
  simpa [lex] using h

/-! What holds of all pieces, garbage apart, holds of all tokens. -/

lemma forall_joinGarbage {P : Token → Prop} (hP : ∀ t, t.kind = .garbage → P t) (ht : P t)
    (hts : ∀ u ∈ ts, P u) : ∀ u ∈ joinGarbage t ts, P u := by
  fun_cases joinGarbage t ts with
  | case1 => simpa using ht
  | case2 u us hk =>
    intro v hv
    rcases List.mem_cons.mp hv with rfl | hv
    · exact hP _ rfl
    · exact hts v (List.mem_cons_of_mem _ hv)
  | case3 => simpa using And.intro ht (by simpa using hts)

lemma forall_pieces {P : Token → Prop}
    (hP : ∀ c cs offset, P (tokenAt (scan c cs).kind (scan c cs).length offset (c :: cs)))
    (skip offset : Nat) (chars : List Char) : ∀ t ∈ pieces skip offset chars, P t := by
  fun_induction pieces skip offset chars with
  | case1 => simp
  | case2 skip offset c cs ih => exact ih
  | case3 offset c cs s ih => simpa using And.intro (hP c cs offset) ih

lemma forall_join {P : Token → Prop} (hg : ∀ t, t.kind = .garbage → P t)
    (hts : ∀ t ∈ ts, P t) : ∀ t ∈ ts.foldr joinGarbage [], P t := by
  induction ts with
  | nil => simp
  | cons t ts ih =>
    rw [List.forall_mem_cons] at hts
    exact forall_joinGarbage hg hts.1 (ih hts.2)

end Lexer

end TreeRules
