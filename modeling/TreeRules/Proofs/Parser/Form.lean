import TreeRules.Proofs.Parser.Leaf

/-! The forms of items: what is written before the tag is known. -/
namespace TreeRules.Parser

open Grammar
open Token (Kind)

variable {R : List Token → Item → Prop}

/-- Forms that put their tag on one and the same item. -/
def Tagged (make : Form) : Prop := ∀ a b, (make a).withTag b = make b

lemma Tagged.tag {make : Form} (h : Tagged make) (a : Item.Tag) : (make a).tag = a := by
  rw [← h a a, Item.tag_withTag]

/-- What is known of a form that was read, be it with diagnostics or without. -/
structure FormPost (R : List Token → Item → Prop) (ts : List Token) (make : Form) (t : State) :
    Prop where
  nonempty : ts ≠ []
  tagged : Tagged make
  formOf : t.diagnostics = [] → FormOf R ts make

lemma Reads.namedForm {p : Parser Item} (hp : Reads R p) {s : State} (hs : Good s)
    (hh : headKind s.rest = .id) : Wp (Parser.namedForm p) s (FormPost R) := by
  obtain ⟨name,rest,hr,hn⟩ := exists_cons_of_headKind hh (by decide)
  refine Wp.next_bind hs hr fun t ht _ _ => .peek ?_
  split_ifs with hk
  · refine (Wp.hole ht hk).bind fun ts h u hu _ hts => ?_
    refine (Wp.dots hu).bind fun us b v hv _ hus => ?_
    exact .pure hv ⟨by simp,fun _ _ => rfl,fun _ => by simpa using FormOf.typedHole hn hts hus⟩
  · refine (Wp.dataBlock? ht).bind fun ts data u hu _ hts => ?_
    refine (hp.children hu).bind fun us items v hv _ hus => ?_
    exact .pure hv ⟨by simp,fun _ _ => rfl,fun hd => by simpa using FormOf.fixed hn hts (hus hd)⟩

lemma Wp.holeForm {s : State} (hs : Good s) (hh : headKind s.rest = .hole) :
    Wp Parser.holeForm s (FormPost R) := by
  refine (Wp.hole hs hh).bind fun ts h u hu _ hts => ?_
  refine (Wp.dots hu).bind fun us b v hv _ hus => ?_
  refine .pure hv ⟨?_,fun _ _ => rfl,fun _ => by simpa using FormOf.untypedHole hts hus⟩
  obtain ⟨_,_⟩ := hts
  simp

lemma Wp.rangeForm {s : State} (hs : Good s) : Wp Parser.rangeForm s (FormPost R) := by
  refine (Wp.char hs).bind fun ts first t ht _ hts => ?_
  refine (Wp.expect ht (by decide) _).bind ?_
  rintro _ - u hu - ⟨d,rfl,hd⟩
  refine (Wp.char hu).bind fun us last v hv _ hus => ?_
  refine (Wp.eat? hv (by decide)).bind ?_
  rintro _ (_ | o) w hw hm ho
  · obtain ⟨rfl,-,-⟩ := ho
    exact .pure hw ⟨by simp,fun _ _ => rfl,fun _ => by
      simpa using FormOf.symbolRange hts hd hus .none⟩
  · obtain ⟨rfl,ho⟩ := ho
    refine .peek ?_
    split_ifs with hk
    · refine (Wp.hole hw hk).bind fun hs' h x hx hm' hh => ?_
      refine (Wp.close hx (by decide) _ ((hm.trans hm').start_le hv)).bind ?_
      rintro _ - y hy - ⟨c,rfl,hc⟩
      exact .pure hy ⟨by simp,fun _ _ => rfl,fun _ => by
        simpa using FormOf.symbolRange hts hd hus (.some ho hh hc)⟩
    · exact Wp.report_reject (Wp.reportHere hw _ _)

lemma Reads.combined {p : Parser Item} (hp : Reads R p) {s : State} (hs : Good s) {kind : Kind}
    (hh : headKind s.rest = kind) (hk : kind ≠ .endOfInput) :
    Wp (Parser.combined p) s fun ts items t =>
      ∃ sign us, ts = sign :: us ∧ sign.kind = kind ∧ (t.diagnostics = [] → ListOf R us items) := by
  obtain ⟨sign,rest,hr,hsign⟩ := exists_cons_of_headKind hh hk
  refine Wp.next_bind hs hr fun t ht _ _ => .peek ?_
  split_ifs with hopen
  · exact (hp.parenthesized ht hopen).mono fun us _ _ _ _ h => ⟨sign,us,rfl,hsign,h⟩
  · exact Wp.report_reject (Wp.reportHere ht _ _)

lemma Reads.form {p : Parser Item} (hp : Reads R p) {s : State} (hs : Good s) :
    Wp (Parser.form p) s (FormPost R) := by
  refine .peek ?_
  split
  next hk => exact hp.namedForm hs hk
  next hk => exact Wp.holeForm hs hk
  next hk => exact Wp.rangeForm hs
  next hk =>
    refine (hp.combined hs hk (by decide)).bind ?_
    rintro _ items t ht - ⟨sign,us,rfl,hsign,hus⟩
    exact .pure ht ⟨by simp,fun _ _ => rfl,fun hd => by simpa using FormOf.anyOf hsign (hus hd)⟩
  next hk =>
    refine (hp.combined hs hk (by decide)).bind ?_
    rintro _ items t ht - ⟨sign,us,rfl,hsign,hus⟩
    exact .pure ht ⟨by simp,fun _ _ => rfl,fun hd => by simpa using FormOf.allOf hsign (hus hd)⟩
  next hk =>
    obtain ⟨dots,rest,hr,hdots⟩ := exists_cons_of_headKind hk (by decide)
    refine Wp.next_bind hs hr fun t ht _ _ => ?_
    exact .pure ht ⟨by simp,fun _ _ => rfl,fun _ => .rest hdots⟩
  next => exact Wp.report_reject (Wp.reportHere hs _ _)

/-! Completeness. -/

/-- What an atom begins with. -/
lemma headKind_formOf {ts : List Token} {make : Form} (h : FormOf R ts make) (rest : List Token) :
    headKind (ts ++ rest) ∈ [.id,.hole,.charLiteral,.pipe,.ampersand,.ellipsis] := by
  cases h with
  | typedHole hn | fixed hn => simp [headKind, hn]
  | untypedHole hh =>
    rw [List.append_assoc, headKind_holeOf hh]
    decide
  | symbolRange hf =>
    obtain ⟨hk,-⟩ := hf
    simp [headKind, hk]
  | anyOf hs | allOf hs => simp [headKind, hs]
  | rest ht => simp [headKind, ht]

section Complete

variable {p : Parser Item} {s : State} {ts rest : List Token}

lemma Covers.combined (hb : Begins R) (hp : Covers R p) {sign : Token} {items : List Item}
    (h : ListOf R ts items) (hs : Good s) (hr : s.rest = sign :: (ts ++ rest)) :
    Yields (Parser.combined p) s items (s.past (sign :: ts) rest) := by
  refine .bind (.next hr) (.peek ?_)
  rw [rest_past, if_pos (headKind_listOf h rest)]
  have hlist := hp.parenthesized hb h (good_past_one hs hr) rfl
  rw [past_past] at hlist
  exact hlist

lemma Yields.rangeForm {us hs : List Token} {d : Token} {first last : Char} {hole : Option Hole}
    (hf : CharOf ts first) (hd : d.kind = .dotDot) (hl : CharOf us last) (hh : RangeHoleOf hs hole)
    (hr : s.rest = ts ++ (d :: (us ++ (hs ++ rest)))) (hrest : headKind rest ≠ .angleOpen) :
    Yields Parser.rangeForm s (fun tag => .symbolRange tag first last hole)
      (s.past (ts ++ d :: (us ++ hs)) rest) := by
  refine .bind (.char hf hr) (.bind (.expect rfl hd _) (.bind (.char hl rfl) ?_))
  cases hh with
  | none => exact .bind (.eat_none hrest) (.finish _ (by simp))
  | @some o c hs h ho hh hc =>
    refine .bind (.eat (show _ = o :: (hs ++ c :: rest) by simp) ho) (.peek ?_)
    rw [rest_past, if_pos (headKind_holeOf hh _)]
    exact .bind (.hole hh rfl) (.bind (.close rfl hc _ _) (.finish _ (by simp)))

lemma Covers.form (hb : Begins R) (hp : Covers R p) {make : Form} (h : FormOf R ts make)
    (hs : Good s) (hr : s.rest = ts ++ rest) (hstop : Stops rest) :
    Yields (Parser.form p) s make (s.past ts rest) := by
  refine .peek ?_
  cases h with
  | @typedHole name hs' ds h ellipsis hn hh hd =>
    have hr' : s.rest = name :: (hs' ++ (ds ++ rest)) := by simpa using hr
    rw [show headKind s.rest = .id by rw [hr']; exact hn]
    refine .bind (.next hr') (.peek ?_)
    rw [rest_past, if_pos (headKind_holeOf hh _)]
    exact .bind (.hole hh rfl) (.bind (.dots hd rfl hstop.ellipsis) (.finish _ (by simp)))
  | @fixed name us vs data items hn hd hi =>
    have hr' : s.rest = name :: (us ++ (vs ++ rest)) := by simpa using hr
    rw [show headKind s.rest = .id by rw [hr']; exact hn]
    refine .bind (.next hr') (.peek ?_)
    have hus := headKind_childrenOf_ne hi (by decide) hstop.angle
    rw [rest_past, if_neg (headKind_dataOf_ne hd (by decide)
      (headKind_childrenOf_ne hi (by decide) hstop.hole))]
    refine .bind (.dataBlock? hd rfl hus) ?_
    rw [past_past]
    refine .bind (hp.children hb hi (good_past hs (by simpa using hr)) rfl hstop) ?_
    exact .finish _ (by simp)
  | @untypedHole hs' ds h ellipsis hh hd =>
    have hr' : s.rest = hs' ++ (ds ++ rest) := by simpa using hr
    rw [show headKind s.rest = .hole by rw [hr']; exact headKind_holeOf hh _]
    exact .bind (.hole hh hr') (.bind (.dots hd rfl hstop.ellipsis) (.finish _ (by simp)))
  | @symbolRange us vs hs' d first last hole hf hd hl hh =>
    have hk : headKind s.rest = .charLiteral := by
      obtain ⟨hk,-⟩ := hf
      rw [hr]
      exact hk
    rw [hk]
    exact .rangeForm hf hd hl hh (by simpa using hr) hstop.angle
  | @anyOf sign us items hsign hi =>
    rw [show headKind s.rest = .pipe by rw [hr]; exact hsign]
    exact .bind (hp.combined hb hi hs hr) (.pure _ _)
  | @allOf sign us items hsign hi =>
    rw [show headKind s.rest = .ampersand by rw [hr]; exact hsign]
    exact .bind (hp.combined hb hi hs hr) (.pure _ _)
  | @rest dots hdots =>
    rw [show headKind s.rest = .ellipsis by rw [hr]; exact hdots]
    exact .bind (.next hr) (.pure _ _)

end Complete

end TreeRules.Parser
