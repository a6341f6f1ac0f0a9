import TreeRules.Proofs.Parser.Form

/-! Items: what is read is an item of the grammar, and every item of the grammar is read. -/
namespace TreeRules.Parser

open Grammar
open Token (Kind)

/-! Things and where they stand. -/

section Spanned

variable {α β : Type} {s t : State} {o : Token} {ts rest : List Token}

lemma cover_cons (o : Token) (ts : List Token) :
    cover (o :: ts) = ⟨o.span.start,endOf o.span.stop ts⟩ := by
  rw [cover, endOf, List.getLast?_cons]
  cases ts.getLast? <;> rfl

lemma moves_past (hr : s.rest = ts ++ rest) : Moves s ts (s.past ts rest) := ⟨hr,rfl,rfl,id⟩

lemma Moves.hereSpan (hm : Moves s (o :: ts) t) : hereSpan s = o.span := by
  rw [Parser.hereSpan, hm.rest]
  rfl

lemma spanFrom_cover (hs : Good s) (hm : Moves s (o :: ts) t) :
    spanFrom o.span.start t = .ok (cover (o :: ts)) t := by
  rw [spanFrom_eq (hm.start_le hs), cover_cons, hm.lastStop, endOf_cons]

lemma Wp.spanOf {f : Span → Parser β} {post : List Token → β → State → Prop} {start stop : Nat}
    (h : start ≤ stop) (hf : Wp (f ⟨start,stop⟩) s post) :
    Wp (Parser.spanOf start stop >>= f) s post := by
  rw [Wp, bind_apply, spanOf_eq h]
  exact hf

lemma Wp.spanFrom {f : Span → Parser β} {post : List Token → β → State → Prop} (hs : Good s)
    (hm : Moves s (o :: ts) t) (hf : Wp (f (cover (o :: ts))) t post) :
    Wp (Parser.spanFrom o.span.start >>= f) t post := by
  rw [Wp, bind_apply, spanFrom_cover hs hm]
  exact hf

lemma Yields.spanFrom (hs : Good s) (hr : s.rest = o :: (ts ++ rest)) :
    Yields (Parser.spanFrom o.span.start) (s.past (o :: ts) rest) (cover (o :: ts))
      (s.past (o :: ts) rest) := .of_eq (spanFrom_cover hs (moves_past hr))

/-- What a parser reads, with its span. -/
lemma Wp.spanned {p : Parser α} {f : α → Span → β} {post : List Token → β → State → Prop}
    (hs : Good s) (hp : Wp p s fun ts v t => ts ≠ [] ∧ post ts (f v (cover ts)) t) :
    Wp (do
      let start := (← Parser.here).start
      let v ← p
      let span ← Parser.spanFrom start
      return f v span) s post := by
  refine .here (hp.bind ?_)
  rintro (_ | ⟨o,ts⟩) v t ht hm ⟨hne,hv⟩
  · exact absurd rfl hne
  · rw [hm.hereSpan]
    exact .spanFrom hs hm (.pure ht (by simpa using hv))

lemma Yields.spanned {p : Parser α} {f : α → Span → β} {v : α} (hs : Good s)
    (hr : s.rest = ts ++ rest) (hne : ts ≠ []) (hp : Yields p s v (s.past ts rest)) :
    Yields (do
      let start := (← Parser.here).start
      let v ← p
      let span ← Parser.spanFrom start
      return f v span) s (f v (cover ts)) (s.past ts rest) := by
  obtain ⟨o,ts,rfl⟩ := List.exists_cons_of_ne_nil hne
  refine .here (.bind hp ?_)
  rw [(moves_past hr).hereSpan]
  exact .bind (.spanFrom hs hr) (.pure _ _)

end Spanned

section Sound

variable {R : List Token → Item → Prop} {p : Parser Item} {s : State}

/-- An atom, with the form that it was made by. -/
lemma Reads.atom (hp : Reads R p) (hs : Good s) :
    Wp (Parser.atom p) s fun ts i t =>
      ∃ make, FormPost R ts make t ∧ i = make ⟨.normal,false,cover ts⟩ := by
  have hform := (hp.form hs).mono fun ts make t _ _ h => And.intro h.nonempty
    (show ∃ make', FormPost R ts make' t ∧ make (.plain (cover ts)) = make' _ from ⟨make,h,rfl⟩)
  exact .spanned hs hform

lemma Reads.negated (hp : Reads R p) (hs : Good s) (hh : headKind s.rest = .negation) :
    Wp (Parser.negated p) s fun ts i t => ts ≠ [] ∧ (t.diagnostics = [] → BareOf R ts i) := by
  obtain ⟨sign,rest,hr,hsign⟩ := exists_cons_of_headKind hh (by decide)
  refine Wp.next_bind hs hr fun t ht hm _ => (hp.atom ht).bind ?_
  rintro (_ | ⟨o,us⟩) _ u hu hm' ⟨make,hmake,rfl⟩
  · exact absurd rfl hmake.nonempty
  have hle : sign.span.start ≤ endOf o.span.stop us := by
    have := (hm.trans hm').start_le hs
    rw [(hm.trans hm').lastStop] at this
    simpa using this
  rw [Item.span, hmake.tagged.tag, cover_cons]
  refine .spanOf hle (.pure hu ⟨by simp,fun hd => ?_⟩)
  rw [hmake.tagged]
  simpa [cover_cons] using BareOf.negated hsign (hmake.formOf hd)

lemma mode_ne_normal {opening closing : Kind} {mode : Mode}
    (h : BracketsOf opening closing mode) : mode ≠ .normal := by
  cases h <;> decide

/-- An item whose mode is normal has no mode brackets. -/
lemma bareOf_of_mode {ts : List Token} {i : Item} (h : ItemOf ts i) (hi : i.mode = .normal) :
    BareOf ItemOf ts i := by
  rw [itemOf_iff] at h
  cases h with
  | bare hb => exact hb
  | moded hb hj =>
    rw [Item.mode, Item.tag_withTag] at hi
    exact absurd hi (mode_ne_normal hb)

/-- A mode inside a mode is reported. -/
lemma Wp.reportNestedMode (hs : Good s) (i : Item) :
    Wp (Parser.reportNestedMode i) s fun ts _ t =>
      ts = [] ∧ (t.diagnostics = [] → i.mode = .normal) := by
  rw [Parser.reportNestedMode]
  split_ifs with hi
  · exact .pure hs ⟨rfl,fun _ => hi⟩
  · exact (Wp.reportAt hs _ _).mono fun _ _ _ _ _ h => ⟨h.1,fun hd => absurd hd h.2.2⟩

lemma Reads.moded (hp : Reads ItemOf p) (hs : Good s) {opening closing : Kind} {mode : Mode}
    (hb : BracketsOf opening closing mode) (hh : headKind s.rest = opening)
    (unclosed : Diagnostic.Kind) :
    Wp (Parser.moded p mode closing unclosed) s fun ts i t =>
      ts ≠ [] ∧ (t.diagnostics = [] → ItemOf ts i) := by
  obtain ⟨o,rest,hr,ho⟩ := exists_cons_of_headKind hh (by cases hb <;> decide)
  refine Wp.next_bind hs hr fun t ht hm _ => (hp t ht).bind ?_
  rintro us i u hu hm' ⟨-,hi⟩
  refine (Wp.reportNestedMode hu i).bind ?_
  rintro _ - v hv hm'' ⟨rfl,hmode⟩
  have hmoves := (hm.trans hm').trans hm''
  refine (Wp.close hv (by cases hb <;> decide) _ (hmoves.start_le hs)).bind ?_
  rintro _ - w hw hm₃ ⟨c,rfl,hc⟩
  refine .spanFrom hs (hmoves.trans hm₃) (.pure hw ⟨by simp,fun hd => ?_⟩)
  have hv := hm₃.quiet hd
  have hbare := bareOf_of_mode (hi (hm''.quiet hv)) (hmode hv)
  simpa using itemOf_iff.mpr (.moded (ho ▸ hc ▸ hb) hbare)

end Sound

/-- What is read without diagnostics is an item. -/
lemma Reads.itemWith {p : Parser Item} (hp : Reads ItemOf p) :
    Reads ItemOf (Parser.itemWith p) := by
  intro s hs
  have hbare : ∀ {ts i}, BareOf ItemOf ts i → ItemOf ts i :=
    fun h => itemOf_iff.mpr (.bare h)
  refine .peek ?_
  split
  next hk => exact hp.moded hs .optional hk _
  next hk => exact hp.moded hs .repeated hk _
  next hk => exact (hp.negated hs hk).mono fun _ _ _ _ _ h => ⟨h.1,fun hd => hbare (h.2 hd)⟩
  next =>
    refine (hp.atom hs).mono ?_
    rintro ts _ t - - ⟨make,hmake,rfl⟩
    exact ⟨hmake.nonempty,fun hd => hbare (.plain (hmake.formOf hd))⟩

lemma reads_item (depth : Nat) : Reads ItemOf (item depth) := by
  induction depth with
  | zero => exact fun _ _ => Or.inr rfl
  | succ depth ih => exact ih.itemWith

/-! Completeness. -/

lemma startsItem_brackets {opening closing : Kind} {mode : Mode}
    (h : BracketsOf opening closing mode) : startsItem opening = true := by
  cases h <;> rfl

lemma startsItem_formOf {R : List Token → Item → Prop} {ts : List Token} {make : Form}
    (h : FormOf R ts make) (rest : List Token) : startsItem (headKind (ts ++ rest)) = true := by
  have hmem := headKind_formOf h rest
  revert hmem
  cases headKind (ts ++ rest) <;> decide

/-- What an item begins with. -/
lemma startsItem_itemOf {ts : List Token} {i : Item} (h : ItemOf ts i) (rest : List Token) :
    startsItem (headKind (ts ++ rest)) = true := by
  rw [itemOf_iff] at h
  cases h with
  | bare hb =>
    cases hb with
    | plain hm => exact startsItem_formOf hm rest
    | @negated sign ts make hs hm =>
      change startsItem sign.kind = true
      rw [hs]
      rfl
  | moded hb => exact startsItem_brackets hb

lemma begins_itemOf : Begins ItemOf := by
  intro ts i rest h hk
  have := startsItem_itemOf h rest
  rw [hk] at this
  cases this

section Complete

variable {R : List Token → Item → Prop} {p : Parser Item}

lemma formOf_ne_nil {ts : List Token} {make : Form} (h : FormOf R ts make) : ts ≠ [] := by
  rintro rfl
  cases startsItem_formOf h []

lemma tagged_of_formOf {ts : List Token} {make : Form} (h : FormOf R ts make) : Tagged make := by
  cases h <;> exact fun _ _ => rfl

lemma mode_of_bareOf {ts : List Token} {i : Item} (h : BareOf R ts i) : i.mode = .normal := by
  cases h with
  | plain hm | negated _ hm => rw [Item.mode, (tagged_of_formOf hm).tag]

lemma Covers.atom (hb : Begins R) (hp : Covers R p) {ts : List Token} {make : Form}
    (h : FormOf R ts make) {s : State} {rest : List Token} (hs : Good s)
    (hr : s.rest = ts ++ rest) (hstop : Stops rest) :
    Yields (Parser.atom p) s (make ⟨.normal,false,cover ts⟩) (s.past ts rest) :=
  .spanned hs hr (formOf_ne_nil h) (hp.form hb h hs hr hstop)

/-- Items without mode brackets are read. -/
lemma Covers.bare (hb : Begins R) (hp : Covers R p) : Covers (BareOf R) (Parser.itemWith p) := by
  intro ts i hi s rest hs hr hstop
  refine .peek ?_
  cases hi with
  | @plain ts make hm =>
    have hatom := hp.atom hb hm hs hr hstop
    have hmem := headKind_formOf hm rest
    rw [← hr] at hmem
    generalize headKind s.rest = k at hmem
    simp only [List.mem_cons, List.not_mem_nil, or_false] at hmem
    rcases hmem with rfl | rfl | rfl | rfl | rfl | rfl <;> exact hatom
  | @negated sign ts make hsign hm =>
    rw [show headKind s.rest = .negation by rw [hr]; exact hsign]
    have hatom := hp.atom hb hm (good_past_one hs hr) rfl hstop
    rw [past_past] at hatom
    refine .bind (.next hr) (.bind hatom ?_)
    have hle := (moves_past hr).start_le hs
    obtain ⟨o,us,rfl⟩ := List.exists_cons_of_ne_nil (formOf_ne_nil hm)
    rw [lastStop_past, endOf_cons, endOf_cons] at hle
    rw [Item.span, (tagged_of_formOf hm).tag, cover_cons o us, cover_cons sign, endOf_cons]
    refine .bind (.of_eq (spanOf_eq hle _)) ?_
    rw [tagged_of_formOf hm]
    exact .pure _ _

/-- Items in mode brackets are read. -/
lemma Covers.moded (hp : Covers (BareOf R) p) {o c : Token} {opening closing : Kind} {mode : Mode}
    (hb : BracketsOf opening closing mode) (ho : o.kind = opening) (hc : c.kind = closing)
    {ts : List Token} {i : Item} (hi : BareOf R ts i) {s : State} {rest : List Token} (hs : Good s)
    (hr : s.rest = o :: (ts ++ [c]) ++ rest) :
    Yields (Parser.itemWith p) s
      (i.withTag { i.tag with mode := mode, span := cover (o :: (ts ++ [c])) })
      (s.past (o :: (ts ++ [c])) rest) := by
  have hr' : s.rest = o :: (ts ++ c :: rest) := by simpa using hr
  have hmoded : ∀ unclosed, Yields (Parser.moded p mode closing unclosed) s
      (i.withTag { i.tag with mode := mode, span := cover (o :: (ts ++ [c])) })
      (s.past (o :: (ts ++ [c])) rest) := by
    intro unclosed
    have hstop : Stops (c :: rest) := .of_head hc (by cases hb <;> decide)
    have hinner := hp ts i hi _ _ (good_past_one hs hr') rfl hstop
    rw [past_past] at hinner
    refine .bind (.next hr') (.bind hinner ?_)
    rw [Parser.reportNestedMode, if_pos (mode_of_bareOf hi)]
    have hclose := Yields.close (s := s.past (o :: ts) (c :: rest)) rfl hc unclosed o.span
    rw [past_past] at hclose
    exact .bind (.pure _ _) (.bind hclose (.bind (.spanFrom hs hr) (.pure _ _)))
  refine .peek ?_
  rw [show headKind s.rest = opening by rw [hr]; exact ho]
  cases hb with
  | optional => exact hmoded _
  | repeated => exact hmoded _

end Complete

/-- Every item is read, limits apart. -/
lemma covers_item (depth : Nat) : Covers ItemOf (item depth) := by
  intro ts i h
  induction h generalizing depth with
  | @intro R hR ts i hi ih =>
    intro s rest hs hr hstop
    have hb : Begins R := fun ts i rest h => begins_itemOf ts i rest (hR ts i h)
    have hcovers : ∀ depth, Covers R (item depth) := fun depth ts i h => ih ts i h depth
    have hbare : ∀ depth, Covers (BareOf R) (item depth) := by
      intro depth
      cases depth with
      | zero => exact fun _ _ _ _ _ _ _ _ => Or.inr (Or.inr rfl)
      | succ depth => exact (hcovers depth).bare hb
    cases hi with
    | bare hi => exact hbare depth _ _ hi s rest hs hr hstop
    | moded hbr hi =>
      cases depth with
      | zero => exact Or.inr (Or.inr rfl)
      | succ depth => exact (hbare depth).moded hbr rfl rfl hi hs hr

end TreeRules.Parser
