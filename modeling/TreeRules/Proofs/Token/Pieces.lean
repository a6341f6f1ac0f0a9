import TreeRules.Proofs.Pattern.Parts
import TreeRules.Proofs.Text.Quote
import TreeRules.Proofs.Token.Order

/-! Words at the front of a text: what the lexer takes for one token if something else follows, and
how the tokens of a text are those of its words. -/
namespace TreeRules.Lexer

open Text (StopsAt)
open Token (Kind)

variable {c : Char} {cs run rest : List Char} {kind : Kind}

lemma takeWhile_run {p : Char → Bool} (hrun : ∀ c ∈ run, p c = true) (hrest : StopsAt p rest) :
    (run ++ rest).takeWhile p = run := by
  rw [List.takeWhile_append_of_pos hrun]
  cases rest with
  | nil => simp
  | cons c cs => simp [hrest c (by simp)]

/-! Words. -/

lemma scan_punctuation (h : punctuation? c = some kind) (cs : List Char) :
    scan c cs = ⟨kind,1⟩ := by
  unfold scan
  rw [h]

lemma punctuation?_of_isIdStart (h : isIdStart c = true) : punctuation? c = none := by
  revert h
  fun_cases punctuation? c with
  | case14 => exact fun _ => rfl
  | _ => decide

lemma scan_word (hc : isIdStart c = true) (hcs : ∀ d ∈ cs, isIdChar d = true)
    (hrest : StopsAt isIdChar rest) :
    scan c (cs ++ rest) = ⟨wordKind (c :: cs),cs.length + 1⟩ := by
  unfold scan
  rw [punctuation?_of_isIdStart hc]
  dsimp only
  rw [if_pos hc, takeWhile_run hcs hrest, List.length_cons]

lemma scan_blank (hrest : StopsAt isBlank rest) : scan ' ' rest = ⟨.whitespace,1⟩ := by
  have hnone : ∀ c ∈ ([] : List Char), isBlank c = true := by simp
  have hrun : rest.takeWhile isBlank = [] := takeWhile_run hnone hrest
  change (⟨.whitespace,1 + (rest.takeWhile isBlank).length⟩ : Scan) = _
  rw [hrun]
  rfl

lemma scan_hole {digits : List Char} (hne : digits ≠ []) (hd : ∀ c ∈ digits, c.isDigit = true)
    (hrest : StopsAt Char.isDigit rest) :
    scan '#' (digits ++ rest) = ⟨.hole,digits.length + 1⟩ := by
  change (if ((digits ++ rest).takeWhile Char.isDigit).isEmpty then (⟨.garbage,1⟩ : Scan)
    else ⟨.hole,1 + ((digits ++ rest).takeWhile Char.isDigit).length⟩) = _
  rw [takeWhile_run hd hrest, if_neg (by simpa using hne), Nat.add_comm]

/-- A type name is one word. -/
lemma wordKind_eq_id {name : String} (hl : name ≠ "language") (hn : name ≠ "null") :
    wordKind name.toList = .id := by
  rw [wordKind, if_neg, if_neg]
  · exact fun h => hn (String.toList_inj.mp (h.trans (by simp)))
  · exact fun h => hl (String.toList_inj.mp (h.trans (by simp)))

/-! Pieces. -/

lemma pieces_skip (offset : Nat) (run rest : List Char) :
    pieces run.length offset (run ++ rest) = pieces 0 (offset + byteLength run) rest := by
  induction run generalizing offset with
  | nil => rfl
  | cons c run ih =>
    rw [List.length_cons, List.cons_append, pieces, ih, byteLength_cons, Nat.add_assoc]

/-- A word at the front is the first piece. -/
lemma pieces_word (h : scan c (cs ++ rest) = ⟨kind,cs.length + 1⟩) (offset : Nat) :
    ∃ t : Token, t.kind = kind ∧ t.text = String.ofList (c :: cs) ∧
      pieces 0 offset (c :: cs ++ rest) =
        t :: pieces 0 (offset + byteLength (c :: cs)) rest := by
  refine ⟨tokenAt kind (cs.length + 1) offset (c :: cs ++ rest),rfl,?_,?_⟩
  · simp [tokenAt]
  · rw [List.cons_append, pieces, h, Nat.add_sub_cancel, pieces_skip, byteLength_cons,
      Nat.add_assoc]

lemma join_eq_self {ts : List Token} (h : ∀ t ∈ ts, t.kind ≠ .garbage) :
    ts.foldr joinGarbage [] = ts := by
  induction ts with
  | nil => rfl
  | cons t ts ih =>
    rw [List.forall_mem_cons] at h
    rw [List.foldr_cons, ih h.2]
    fun_cases joinGarbage t ts with
    | case1 => rfl
    | case2 u us hk => exact absurd hk.1 h.1
    | case3 => rfl

end TreeRules.Lexer
