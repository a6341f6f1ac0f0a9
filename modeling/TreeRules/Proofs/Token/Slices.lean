import TreeRules.Proofs.Token.Rules

/-! Slices of a text by byte offsets. A slice has to begin and end where characters do. The text of
every token is the slice of its source at the token's span, and what stands between the quotes of a
literal, or behind the sign of a hole, is a slice of the token's text. -/
namespace TreeRules

namespace Text

/-- The characters before a byte offset and those from it on, unless it lies inside a character or
behind the last one. -/
def cut? : (offset : Nat) → List Char → Option (List Char × List Char)
  | 0, cs => some ([],cs)
  | _ + 1, [] => none
  | offset + 1, c :: cs =>
    if c.utf8Size ≤ offset + 1 then
      (cut? (offset + 1 - c.utf8Size) cs).map fun p => (c :: p.1,p.2)
    else none

/-- The characters from one byte offset to before another. -/
def slice? (start stop : Nat) (cs : List Char) : Option (List Char) :=
  if start ≤ stop then (cut? start cs).bind fun p => (cut? (stop - start) p.2).map Prod.fst
  else none

lemma cut?_append (before after : List Char) :
    cut? (byteLength before) (before ++ after) = some (before,after) := by
  induction before with
  | nil =>
    cases after <;> rfl
  | cons c cs ih =>
    obtain ⟨n,hn⟩ := Nat.exists_eq_succ_of_ne_zero (Nat.ne_of_gt c.utf8Size_pos)
    have hoffset : byteLength (c :: cs) = n + byteLength cs + 1 := by
      rw [byteLength_cons, hn]
      omega
    have hrest : n + byteLength cs + 1 - c.utf8Size = byteLength cs := by omega
    rw [hoffset, List.cons_append, cut?, if_pos (by omega), hrest, ih]
    rfl

lemma slice?_append (before text after : List Char) :
    slice? (byteLength before) (byteLength before + byteLength text) (before ++ text ++ after) =
      some text := by
  rw [slice?, if_pos (Nat.le_add_right _ _), List.append_assoc, cut?_append, Option.bind_some,
    Nat.add_sub_cancel_left, cut?_append]
  rfl

end Text

namespace Token

lemma InOrder.le {low high : Nat} {ts : List Token} (h : InOrder low ts high) : low ≤ high := by
  induction ts generalizing low with
  | nil => exact h
  | cons t ts ih => exact Nat.le_trans h.1 (Nat.le_trans h.2.1 (ih h.2.2))

/-- Tokens in order end before the upper offset. -/
lemma InOrder.le_of_mem {low high : Nat} {ts : List Token} (h : InOrder low ts high) :
    ∀ t ∈ ts, t.span.start ≤ t.span.stop ∧ t.span.stop ≤ high := by
  induction ts generalizing low with
  | nil => simp
  | cons t ts ih =>
    rw [List.forall_mem_cons]
    exact ⟨⟨h.2.1,h.2.2.le⟩,ih h.2.2⟩

/-- Tokens that lie side by side, from `offset` on, and have the characters of a text. -/
def Tile : (offset : Nat) → List Char → List Token → Prop
  | _, chars, [] => chars = []
  | offset, chars, t :: ts =>
    ∃ after, chars = t.text.toList ++ after ∧
      t.span = ⟨offset,offset + byteLength t.text.toList⟩ ∧
      Tile (offset + byteLength t.text.toList) after ts

/-- What is written in the token is the slice of the text at the token's span. -/
def IsSlice (chars : List Char) (t : Token) : Prop :=
  Text.slice? t.span.start t.span.stop chars = some t.text.toList

lemma Tile.isSlice {before chars : List Char} {ts : List Token}
    (h : Tile (byteLength before) chars ts) : ∀ t ∈ ts, IsSlice (before ++ chars) t := by
  induction ts generalizing before chars with
  | nil => simp
  | cons t ts ih =>
    obtain ⟨after,rfl,hspan,hrest⟩ := h
    intro u hu
    rcases List.mem_cons.mp hu with rfl | hu
    · rw [IsSlice, hspan, ← List.append_assoc]
      exact Text.slice?_append _ _ _
    · rw [← byteLength_append] at hrest
      rw [← List.append_assoc]
      exact ih hrest u hu

end Token

namespace Lexer

open Token (Kind Tile IsSlice)

variable {offset : Nat} {chars : List Char} {t : Token} {ts : List Token}

/-- The pieces of a text lie side by side behind what is already cut off. -/
lemma tile_pieces (skip offset : Nat) (chars : List Char) :
    Tile (offset + byteLength (chars.take skip)) (chars.drop skip) (pieces skip offset chars) := by
  fun_induction pieces skip offset chars with
  | case1 skip offset => exact List.drop_nil
  | case2 skip offset c cs ih => simpa [Nat.add_assoc] using ih
  | case3 offset c cs s ih =>
    obtain ⟨n,hn⟩ := Nat.exists_eq_succ_of_ne_zero (Nat.ne_of_gt (scan_length_pos c cs))
    have hs : s.length = n + 1 := hn
    refine ⟨(c :: cs).drop s.length,?_,?_,?_⟩
    · simp [tokenAt]
    · simp [tokenAt]
    · simpa [tokenAt, hs, Nat.add_assoc] using ih

lemma tile_joinGarbage (h : Tile offset chars (t :: ts)) :
    Tile offset chars (joinGarbage t ts) := by
  fun_cases joinGarbage t ts with
  | case1 => exact h
  | case2 u us hk =>
    obtain ⟨_,rfl,ht,after,rfl,hu,hrest⟩ := h
    refine ⟨after,by simp,?_,?_⟩
    · simp [ht, hu, Nat.add_assoc]
    · simpa [Nat.add_assoc] using hrest
  | case3 => exact h

lemma tile_join (h : Tile offset chars ts) : Tile offset chars (ts.foldr joinGarbage []) := by
  induction ts generalizing offset chars with
  | nil => exact h
  | cons t ts ih =>
    obtain ⟨after,hchars,hspan,hrest⟩ := h
    exact tile_joinGarbage ⟨after,hchars,hspan,ih hrest⟩

/-- The tokens of a source lie side by side and have its characters. -/
lemma tile_lex (source : String) : Tile 0 source.toList (lex source) := by
  have h := tile_join (tile_pieces 0 0 source.toList)
  simpa [lex] using h

/-- The text of a token is the slice of the source at its span. -/
theorem isSlice_lex (source : String) : ∀ t ∈ lex source, IsSlice source.toList t :=
  @Tile.isSlice [] _ _ (tile_lex source)

/-! What encloses the text of a token. -/

/-- What is written behind the sign of a hole is a slice. -/
theorem slice?_of_hole {source : String} {t : Token} (ht : t ∈ lex source) (hk : t.kind = .hole) :
    Text.slice? 1 (byteLength t.text.toList) t.text.toList = some (t.text.toList.drop 1) := by
  obtain ⟨digits,htext⟩ := exists_digits source t ht hk
  have hslice := Text.slice?_append ['#'] digits []
  rw [List.append_nil] at hslice
  rw [htext]
  exact hslice

/-- What is written between the quotes of a literal is a slice. -/
theorem slice?_of_literal {source : String} {t : Token} (ht : t ∈ lex source)
    (hk : t.kind = .stringLiteral ∨ t.kind = .charLiteral) :
    Text.slice? 1 (byteLength t.text.toList - 1) t.text.toList =
      some (t.text.toList.drop 1).dropLast := by
  obtain ⟨quote,body,hquote,htext⟩ := exists_body source t ht hk
  have hslice := Text.slice?_append [quote] body [quote]
  have hlength : byteLength (quote :: (body ++ [quote])) - 1 =
      byteLength [quote] + byteLength body := by
    simp [hquote]
    omega
  rw [show byteLength [quote] = 1 by simp [hquote]] at hslice hlength
  rw [htext, hlength]
  simpa using hslice

end Lexer

end TreeRules
