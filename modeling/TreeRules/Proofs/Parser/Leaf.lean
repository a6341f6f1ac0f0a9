import TreeRules.Proofs.Parser.Sequence

/-! The leaves of the grammar: holes, literals and data blocks. -/
namespace TreeRules.Parser

open Grammar
open Token (Kind)

section Sound

variable {s : State}

lemma Wp.hole (hs : Good s) (hh : headKind s.rest = .hole) :
    Wp Parser.hole s fun ts h _ => HoleOf ts h := by
  obtain ⟨t,rest,hr,hk⟩ := exists_cons_of_headKind hh (by decide)
  refine Wp.next_bind hs hr fun u hu _ _ => ?_
  cases hdigits : Hole.ofDigits? (t.text.toList.drop 1) with
  | some h => exact .pure hu ⟨hk,hdigits⟩
  | none => exact report_reject (Wp.reportAt hu _ _)

/-- A literal of some kind whose escapes are known. -/
lemma Wp.literal (hs : Good s) {kind : Kind} (hh : headKind s.rest = kind)
    (hkind : kind ≠ .endOfInput) :
    Wp Parser.literal s fun ts p _ =>
      ts = [p.1] ∧ p.1.kind = kind ∧ unescapeChars (literalBody p.1) = .ok p.2 := by
  obtain ⟨t,rest,hr,hk⟩ := exists_cons_of_headKind hh hkind
  refine Wp.next_bind hs hr fun u hu _ _ => ?_
  rw [show (t.text.toList.drop 1).dropLast = literalBody t from rfl]
  cases hbody : unescapeChars (literalBody t) with
  | ok chars => exact .pure hu ⟨rfl,hk,hbody⟩
  | error escape => exact report_reject (Wp.reportAt hu _ _)

lemma Wp.char (hs : Good s) : Wp Parser.char s fun ts c _ => CharOf ts c := by
  refine .peek ?_
  split_ifs with hh
  · refine (Wp.literal hs hh (by decide)).bind ?_
    rintro ts ⟨t,chars⟩ u hu - ⟨rfl,hk,hc⟩
    match chars, hc with
    | [c], hc => exact .pure hu ⟨hk,hc⟩
    | [], _ => exact report_reject (Wp.reportAt hu _ _)
    | _ :: _ :: _, _ => exact report_reject (Wp.reportAt hu _ _)
  · exact report_reject (Wp.reportHere hs _ _)

lemma Wp.dots (hs : Good s) : Wp Parser.dots s fun ts b _ => DotsOf ts b := by
  refine (Wp.eat? hs (by decide)).bind ?_
  rintro ts (_ | t) u hu - ht
  · exact .pure hu (by simpa [ht.1] using DotsOf.none)
  · exact .pure hu (by simpa [ht.1] using DotsOf.some ht.2)

lemma Wp.dataBlock (hs : Good s) (hh : headKind s.rest = .angleOpen) :
    Wp Parser.dataBlock s fun ts d _ => DataOf ts (some d) := by
  obtain ⟨o,rest,hr,ho⟩ := exists_cons_of_headKind hh (by decide)
  refine Wp.next_bind hs hr fun t ht hm _ => .peek ?_
  have hclose : ∀ ts d u, Good u → Moves t ts u → DatumOf ts d →
      Wp (do Parser.close .angleClose .unclosedAngle o.span; Pure.pure d) u
        fun us d _ => DataOf (o :: (ts ++ us)) (some d) := by
    intro ts d u hu hm' hd
    refine (Wp.close hu (by decide) _ ((hm.trans hm').start_le hs)).bind ?_
    rintro us - v hv - ⟨c,rfl,hc⟩
    exact .pure hv (by simpa using DataOf.some ho hd hc)
  dsimp only
  split
  next hk =>
    have hhole : Wp (Datum.hole <$> Parser.hole) t fun ts d _ => DatumOf ts d :=
      .map ((Wp.hole ht hk).mono fun _ _ _ _ _ hh => .hole hh)
    exact hhole.bind hclose
  next hk =>
    refine (Wp.literal ht hk (by decide)).bind ?_
    rintro ts ⟨l,chars⟩ u hu hm' ⟨rfl,hl,hc⟩
    exact hclose [l] _ u hu hm' (.literal hl hc)
  next => exact report_reject (Wp.reportHere ht _ _)

lemma Wp.dataBlock? (hs : Good s) : Wp Parser.dataBlock? s fun ts d _ => DataOf ts d := by
  refine .peek ?_
  split_ifs with hh
  · exact .map (Wp.dataBlock hs hh)
  · exact .pure hs .none

end Sound

section Complete

variable {s : State} {ts rest : List Token}

lemma headKind_holeOf {h : Hole} (hh : HoleOf ts h) (rest : List Token) :
    headKind (ts ++ rest) = .hole := by
  obtain ⟨hk,-⟩ := hh
  exact hk

lemma Yields.hole {h : Hole} (hh : HoleOf ts h) (hr : s.rest = ts ++ rest) :
    Yields Parser.hole s h (s.past ts rest) := by
  obtain ⟨hk,hdigits⟩ := hh
  refine .bind (.next hr) ?_
  rw [hdigits]
  exact .pure _ _

lemma Yields.literal {t : Token} {chars : List Char}
    (hc : unescapeChars (literalBody t) = .ok chars) (hr : s.rest = t :: rest) :
    Yields Parser.literal s (t,chars) (s.past [t] rest) := by
  refine .bind (.next hr) ?_
  rw [literalBody] at hc
  rw [hc]
  exact .pure _ _

lemma Yields.char {c : Char} (hc : CharOf ts c) (hr : s.rest = ts ++ rest) :
    Yields Parser.char s c (s.past ts rest) := by
  obtain ⟨hk,hbody⟩ := hc
  refine .peek ?_
  rw [if_pos (by rw [hr]; exact hk)]
  exact .bind (.literal hbody hr) (.pure _ _)

lemma Yields.dots {b : Bool} (hb : DotsOf ts b) (hr : s.rest = ts ++ rest)
    (hrest : headKind rest ≠ .ellipsis) : Yields Parser.dots s b (s.past ts rest) := by
  cases hb with
  | none =>
    rw [past_nil hr]
    exact .bind (.eat_none (by rw [hr]; exact hrest)) (.pure _ _)
  | some hk => exact .bind (.eat hr hk) (.pure _ _)

lemma Yields.dataBlock {d : Datum} (hd : DataOf ts (some d)) (hr : s.rest = ts ++ rest) :
    Yields Parser.dataBlock s d (s.past ts rest) := by
  obtain _ | @⟨o,c,us,_,ho,hd,hc⟩ := hd
  have hr' : s.rest = o :: (us ++ c :: rest) := by simpa using hr
  refine .bind (.next hr') (.peek ?_)
  have hclose : Yields (do Parser.close .angleClose .unclosedAngle o.span; Pure.pure d)
      (s.past (o :: us) (c :: rest)) d (s.past (o :: (us ++ [c])) rest) := by
    refine .bind (.close rfl hc _ _) ?_
    rw [past_past]
    exact .pure _ _
  cases hd with
  | hole hh =>
    rw [rest_past, headKind_holeOf hh]
    have hhole := Yields.hole hh (s := s.past [o] (us ++ c :: rest)) rfl
    rw [past_past] at hhole
    exact .bind (.map hhole) hclose
  | @literal t chars hk hbody =>
    have hliteral := Yields.literal hbody (s := s.past [o] ([t] ++ c :: rest)) rfl
    rw [past_past] at hliteral
    rw [rest_past, show headKind ([t] ++ c :: rest) = .stringLiteral from hk]
    exact .bind hliteral hclose

lemma headKind_dataOf_ne {d : Option Datum} {kind : Kind} (hd : DataOf ts d)
    (hk : .angleOpen ≠ kind) (hrest : headKind rest ≠ kind) : headKind (ts ++ rest) ≠ kind := by
  cases hd with
  | none => exact hrest
  | some ho hd hc =>
    change Token.kind _ ≠ kind
    rw [ho]
    exact hk

lemma Yields.dataBlock? {d : Option Datum} (hd : DataOf ts d) (hr : s.rest = ts ++ rest)
    (hrest : headKind rest ≠ .angleOpen) : Yields Parser.dataBlock? s d (s.past ts rest) := by
  refine .peek ?_
  cases hd with
  | none =>
    rw [if_neg (by rw [hr]; exact hrest), past_nil hr]
    exact .pure _ _
  | some ho hd hc =>
    rw [if_pos (by rw [hr]; exact ho)]
    exact .map (.dataBlock (.some ho hd hc) hr)

end Complete

end TreeRules.Parser
