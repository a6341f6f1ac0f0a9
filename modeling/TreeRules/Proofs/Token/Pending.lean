import TreeRules.Proofs.Token.Slices

/-! Lexing in one pass. A loop over the pieces keeps where the garbage starts that has not ended
yet, and writes one token for it when something else comes or the source ends. It makes the tokens
that joining the pieces from the end makes. -/
namespace TreeRules
namespace Lexer

open Token (Kind Tile)

/-- The tokens that are written, each as its kind and its span, and where pending garbage starts. -/
structure Pending where
  written : List (Kind × Span)
  start? : Option Nat

namespace Pending

/-- What is written when pending garbage ends at `stop`. -/
def close (p : Pending) (stop : Nat) : List (Kind × Span) :=
  p.written ++ (p.start?.map fun start => (Kind.garbage,⟨start,stop⟩)).toList

/-- One piece. Only the first of several pieces of garbage tells where they start. -/
def turn (p : Pending) (piece : Token) : Pending :=
  if piece.kind = .garbage then ⟨p.written,some (p.start?.getD piece.span.start)⟩
  else ⟨p.close piece.span.start ++ [(piece.kind,piece.span)],none⟩

end Pending

/-- All pieces of a source. -/
def lexLoop (source : String) : List (Kind × Span) :=
  ((pieces 0 0 source.toList).foldl Pending.turn ⟨[],none⟩).close (byteLength source.toList)

/-- A token without its text. -/
def outline (t : Token) : Kind × Span := (t.kind,t.span)

/-- Garbage before garbage is one piece, whatever it is joined with. -/
lemma joinGarbage_joinGarbage {t u : Token} (ht : t.kind = .garbage) (hu : u.kind = .garbage)
    (ts : List Token) : joinGarbage t (joinGarbage u ts) =
      joinGarbage ⟨.garbage,⟨t.span.start,u.span.stop⟩,t.text ++ u.text⟩ ts := by
  cases ts with
  | nil => simp [joinGarbage, ht, hu]
  | cons v ts => by_cases hv : v.kind = .garbage <;>
      simp [joinGarbage, ht, hu, hv, String.append_assoc]

lemma joinGarbage_of_ne {t : Token} (ht : t.kind ≠ .garbage) (ts : List Token) :
    joinGarbage t ts = t :: ts := by
  cases ts <;> simp [joinGarbage, ht]

lemma joinGarbage_cons_of_ne {u : Token} (hu : u.kind ≠ .garbage) (t : Token) (ts : List Token) :
    joinGarbage t (u :: ts) = t :: u :: ts := by
  simp [joinGarbage, hu]

/-- The loop from any place on. Pending garbage counts as a piece that ends there. -/
lemma close_foldl_turn {offset : Nat} {chars : List Char} {ts : List Token}
    (h : Tile offset chars ts) (written : List (Kind × Span)) :
    (ts.foldl Pending.turn ⟨written,none⟩).close (offset + byteLength chars) =
        written ++ (ts.foldr joinGarbage []).map outline ∧
      ∀ start text,
        (ts.foldl Pending.turn ⟨written,some start⟩).close (offset + byteLength chars) =
          written ++ (joinGarbage ⟨.garbage,⟨start,offset⟩,text⟩
            (ts.foldr joinGarbage [])).map outline := by
  induction ts generalizing offset chars written with
  | nil =>
    obtain rfl : chars = [] := h
    exact ⟨rfl,fun start text => rfl⟩
  | cons t ts ih =>
    obtain ⟨after,rfl,hspan,hrest⟩ := h
    rw [byteLength_append, ← Nat.add_assoc]
    have hstart : t.span.start = offset := by rw [hspan]
    simp only [List.foldl_cons, List.foldr_cons, Pending.turn]
    by_cases ht : t.kind = .garbage
    · -- The piece begins or continues what is pending.
      have htoken : t = ⟨.garbage,⟨offset,offset + byteLength t.text.toList⟩,t.text⟩ := by
        rw [← ht, ← hspan]
      refine ⟨?_,fun start text => ?_⟩
      · rw [if_pos ht, Option.getD_none, hstart, (ih hrest written).2 offset t.text, ← htoken]
      · rw [if_pos ht, Option.getD_some, (ih hrest written).2 start (text ++ t.text),
          joinGarbage_joinGarbage rfl ht, hspan]
    · -- The piece ends what is pending.
      refine ⟨?_,fun start text => ?_⟩
      · rw [if_neg ht, (ih hrest _).1, joinGarbage_of_ne ht]
        simp [Pending.close, outline]
      · rw [if_neg ht, (ih hrest _).1, joinGarbage_of_ne ht, joinGarbage_cons_of_ne ht]
        simp [Pending.close, outline, hstart]

/-- The loop writes the kinds and spans of the tokens of the source. Their texts are the slices at
their spans (`isSlice_lex`). -/
theorem lexLoop_eq (source : String) : lexLoop source = (lex source).map outline := by
  have h := (close_foldl_turn (tile_pieces 0 0 source.toList) []).1
  simpa [lexLoop, lex] using h

end Lexer
end TreeRules
