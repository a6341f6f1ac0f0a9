import TreeRules.Proofs.Parser.Template
import TreeRules.Parser.File

/-! Rules and language blocks. A malformed rule has its diagnostic, and reading goes on behind
it. -/
namespace TreeRules.Parser

open Grammar
open Token (Kind)

/-! Skipping. -/

lemma statementLength_le (opened : Nat) (ts : List Token) :
    statementLength opened ts ≤ ts.length := by
  fun_induction statementLength opened ts with
  | case1 => exact Nat.le_refl 0
  | case2 | case4 => simp
  | case3 _ _ _ _ ih | case5 _ _ _ _ ih | case6 _ _ _ _ _ _ _ ih =>
    exact Nat.succ_le_succ ih

/-- A statement that begins an item has a token to skip. -/
lemma statementLength_pos (opened : Nat) {ts : List Token} (h : startsItem (headKind ts) = true) :
    0 < statementLength opened ts := by
  fun_cases statementLength opened ts with
  | case1 => cases h
  | case4 t ts hk =>
    rw [headKind, hk] at h
    cases h
  | case2 | case3 | case5 | case6 => exact Nat.succ_pos _

section Sound

variable {s : State}

lemma Wp.advance (n : Nat) (hs : Good s) (hn : n ≤ s.rest.length) :
    Wp (Parser.advance n) s fun ts _ _ => ts.length = n := by
  induction n generalizing s with
  | zero => exact .pure hs rfl
  | succ n ih =>
    obtain ⟨t,rest,hr⟩ := List.exists_cons_of_length_pos (Nat.lt_of_lt_of_le (Nat.succ_pos n) hn)
    refine Wp.next_bind hs hr fun u hu _ hur => ?_
    refine (ih hu ?_).mono fun ts _ _ _ _ h => by simp [h]
    rw [hr] at hn
    rw [hur]
    exact Nat.le_of_succ_le_succ hn

lemma Wp.skipStatement (hs : Good s) :
    Wp Parser.skipStatement s fun ts _ _ => ts.length = statementLength 0 s.rest :=
  Wp.advance _ hs (statementLength_le 0 s.rest)

lemma Wp.ruleBody (depth : Nat) (hs : Good s) :
    Wp (Parser.ruleBody depth) s fun ts v t =>
      ts ≠ [] ∧ (t.diagnostics = [] → RuleOf ts ⟨v.1,v.2,cover ts⟩) := by
  refine ((reads_item depth).separated s hs).bind ?_
  rintro ts pattern t ht - ⟨-,hts⟩
  refine (Wp.expect ht (by decide) _).bind ?_
  rintro _ - u hu hmu ⟨arrow,rfl,harrow⟩
  refine (reads_template depth u hu).bind ?_
  rintro us result v hv hmv ⟨-,hus⟩
  refine (Wp.expect hv (by decide) _).bind ?_
  rintro _ - w hw hmw ⟨semicolon,rfl,hsemicolon⟩
  refine .pure hw ⟨by simp,fun hd => ?_⟩
  have hdv := hmw.quiet hd
  simpa using RuleOf.intro (hts (hmu.quiet (hmv.quiet hdv))) harrow (hus hdv) hsemicolon

/-- What was read, or else a diagnostic. -/
def OptionPost {α : Type} (R : List Token → α → Prop) (ts : List Token) (o : Option α) (t : State) :
    Prop :=
  ts ≠ [] ∧ match o with
    | some a => t.diagnostics = [] → R ts a
    | none => t.diagnostics ≠ []

/-- A rule, or what is skipped instead. -/
lemma Wp.rule (depth : Nat) (hs : Good s) (hh : startsItem (headKind s.rest) = true) :
    Wp (Parser.rule depth) s (OptionPost RuleOf) := by
  refine .here ((Wp.attempt (Wp.ruleBody depth hs)).bind ?_)
  rintro ts (_ | ⟨pattern,result⟩) t ht hm hrule
  · refine (Wp.skipStatement ht).bind fun us _ u hu hm' hus => ?_
    refine .pure hu ⟨fun hnil => ?_,fun hd => hrule (hm'.quiet hd)⟩
    -- nothing was read before: then what begins an item is skipped now
    rw [List.append_nil, List.append_eq_nil_iff] at hnil
    obtain ⟨rfl,rfl⟩ := hnil
    have hpos := statementLength_pos 0 hh
    rw [hm.rest, List.nil_append, ← hus] at hpos
    exact absurd hpos (Nat.lt_irrefl 0)
  · obtain ⟨hne,hrule⟩ := hrule
    obtain ⟨o,us,rfl⟩ := List.exists_cons_of_ne_nil hne
    dsimp only
    rw [hm.hereSpan]
    exact .spanFrom hs hm (.pure ht ⟨by simp,by simpa using hrule⟩)

lemma turnPost_ofOption {α : Type} {R : List Token → α → Prop} {D : List Token → State → Prop}
    {ts : List Token} {o : Option α} {t : State} (h : OptionPost R ts o t) :
    TurnPost R D ts (Turn.ofOption o) t := by
  cases o <;> exact h

/-- A token that nothing begins with has its diagnostic. -/
lemma Wp.skipUnexpected (hs : Good s) (hne : s.rest ≠ []) :
    Wp Parser.skipUnexpected s fun ts _ t => ts ≠ [] ∧ t.diagnostics ≠ [] := by
  obtain ⟨o,rest,hr⟩ := List.exists_cons_of_ne_nil hne
  have htext : Parser.peekText s = .ok o.text s := by rw [Parser.peekText, hr]
  rw [Wp, Parser.skipUnexpected, bind_apply, htext]
  refine (Wp.reportHere hs _ _).bind ?_
  rintro _ - t ht - ⟨rfl,htr,hd⟩
  refine Wp.next_bind ht (htr.trans hr) fun u hu hm _ => ?_
  exact .pure hu ⟨by simp,fun hu => hd (hm.quiet hu)⟩

/-- The end of a block. -/
def BlockEnd (ts : List Token) (_ : State) : Prop := ∃ c, ts = [c] ∧ c.kind = .braceClose

lemma Wp.blockTurn (depth : Nat) {opened : Span} (hs : Good s) (ho : opened.start ≤ s.lastStop) :
    Wp (Parser.blockTurn depth opened) s (TurnPost RuleOf BlockEnd) := by
  refine .atEnd ?_
  split_ifs with hend
  · refine (Wp.reportUnclosed hs _ _ ho).bind ?_
    rintro _ - t ht - ⟨-,-,hd⟩
    exact .pure ht fun hd' => absurd hd' hd
  · refine .peek ?_
    split
    next hk =>
      obtain ⟨c,rest,hr,hc⟩ := exists_cons_of_headKind hk (by decide)
      exact Wp.next_bind hs hr fun t ht _ _ => .pure ht fun _ => ⟨c,rfl,hc⟩
    next =>
      split_ifs with hitem
      · exact .map ((Wp.rule depth hs hitem).mono fun _ _ _ _ _ => turnPost_ofOption)
      · refine (Wp.skipUnexpected hs (by simpa using hend)).bind ?_
        rintro ts - t ht - ⟨hts,hd⟩
        exact .pure ht ⟨by simpa using hts,hd⟩

lemma Wp.blockName (hs : Good s) :
    Wp Parser.blockName s fun ts o t => match o with
      | some name => ts = [name] ∧ name.kind = .id
      | none => t.diagnostics ≠ [] := by
  refine (Wp.eat? hs (by decide)).bind ?_
  rintro ts (_ | name) t ht - hname
  · refine (Wp.reportHere ht _ _).bind ?_
    rintro us - u hu - ⟨-,-,hd⟩
    exact .pure hu hd
  · exact .pure ht (by simpa using hname)

/-- A block, or what is skipped instead. -/
lemma Wp.block (depth : Nat) (hs : Good s) (hh : headKind s.rest = .kwLanguage) :
    Wp (Parser.block depth) s (OptionPost fun ts b => EntryOf ts (.block b)) := by
  obtain ⟨kw,rest,hr,hkw⟩ := exists_cons_of_headKind hh (by decide)
  refine Wp.next_bind hs hr fun t ht _ _ => (Wp.blockName ht).bind ?_
  intro ts name u hu hmu hname
  refine (Wp.eat? hu (by decide)).bind ?_
  rintro us (_ | o) v hv hmv ho
  · refine (Wp.reportHere hv _ _).bind ?_
    rintro vs - w hw - ⟨-,-,hd⟩
    exact .pure hw ⟨by simp,hd⟩
  · obtain ⟨rfl,ho⟩ := ho
    refine (Wp.loop o.span.start (fun w hw => Wp.blockTurn depth hw) hv (hmv.start_le hu)).bind ?_
    intro vs rules w hw hmw hvs
    refine .pure hw ⟨by simp,?_⟩
    cases name with
    | none => exact fun hd => hname (hmv.quiet (hmw.quiet hd))
    | some name =>
      intro hd
      obtain ⟨rfl,hname⟩ := hname
      obtain ⟨xs,_,rfl,hrules,c,rfl,hc⟩ := hvs hd
      simpa using EntryOf.block hkw hname ho hrules hc

end Sound

/-! Completeness. -/

/-- What a rule begins with. -/
lemma startsItem_ruleOf {ts : List Token} {r : Rule} (h : RuleOf ts r) (rest : List Token) :
    startsItem (headKind (ts ++ rest)) = true := by
  obtain ⟨⟨hi,-⟩,-,-,-⟩ := h
  simpa using startsItem_itemOf hi _

lemma ruleOf_ne_nil {ts : List Token} {r : Rule} (h : RuleOf ts r) : ts ≠ [] := by
  rintro rfl
  cases startsItem_ruleOf h []

lemma isEmpty_rest_of_startsItem {s : State} (h : startsItem (headKind s.rest) = true) :
    s.rest.isEmpty = false := by
  cases hr : s.rest with
  | nil =>
    rw [hr] at h
    cases h
  | cons t ts => rfl

section Complete

variable {s : State} {ts rest : List Token}

lemma Yields.ruleBody (depth : Nat) {r : Rule} (h : RuleOf ts r) (hs : Good s)
    (hr : s.rest = ts ++ rest) :
    Yields (Parser.ruleBody depth) s (r.pattern,r.result) (s.past ts rest) := by
  obtain @⟨us,vs,arrow,semicolon,pattern,result,hp,ha,ht,hsemi⟩ := h
  have hr₁ : s.rest = us ++ arrow :: (vs ++ semicolon :: rest) := by simpa using hr
  have hr₂ : s.rest = (us ++ [arrow]) ++ (vs ++ semicolon :: rest) := by simpa using hr
  have hpattern := (covers_item depth).separated hp hs hr₁ (.of_head ha (by decide))
    (by simp [headKind, ha])
  have hresult := covers_template depth vs result ht _ (semicolon :: rest) (good_past hs hr₂) rfl
    (.of_head hsemi (by decide))
  refine .bind hpattern (.bind (.expect rfl ha _) ?_)
  rw [past_past]
  exact .bind hresult (.bind (.expect rfl hsemi _) (.finish _ (by simp)))

/-- Every rule is read, limits apart. -/
lemma Yields.rule (depth : Nat) {r : Rule} (h : RuleOf ts r) (hs : Good s)
    (hr : s.rest = ts ++ rest) : Yields (Parser.rule depth) s (some r) (s.past ts rest) := by
  have hcover : r = ⟨r.pattern,r.result,cover ts⟩ := by
    obtain ⟨-,-,-,-⟩ := h
    rfl
  obtain ⟨o,us,rfl⟩ := List.exists_cons_of_ne_nil (ruleOf_ne_nil h)
  refine .here (.bind (.attempt (.ruleBody depth h hs hr)) ?_)
  dsimp only
  rw [(moves_past hr).hereSpan, hcover]
  exact .bind (.spanFrom hs hr) (.pure _ _)

lemma Yields.blockTurn_rule (depth : Nat) (opened : Span) {r : Rule} (h : RuleOf ts r)
    (hs : Good s) (hr : s.rest = ts ++ rest) :
    Yields (Parser.blockTurn depth opened) s (.item r) (s.past ts rest) := by
  have hitem := startsItem_ruleOf h rest
  rw [← hr] at hitem
  refine .atEnd ?_
  rw [isEmpty_rest_of_startsItem hitem, if_neg (by decide)]
  refine .peek ?_
  split
  next hk =>
    rw [hk] at hitem
    cases hitem
  next =>
    rw [if_pos hitem]
    exact .map (.rule depth h hs hr)

lemma Yields.blockTurn_done (depth : Nat) (opened : Span) {c : Token} (hc : c.kind = .braceClose)
    (hr : s.rest = c :: rest) :
    Yields (Parser.blockTurn depth opened) s .done (s.past [c] rest) := by
  refine .atEnd ?_
  rw [if_neg (by simp [hr])]
  refine .peek ?_
  rw [show headKind s.rest = .braceClose by rw [hr]; exact hc]
  exact .bind (.next hr) (.pure _ _)

/-- Every block is read, limits apart. -/
lemma Yields.block (depth : Nat) {b : Block} (h : EntryOf ts (.block b)) (hs : Good s)
    (hr : s.rest = ts ++ rest) : Yields (Parser.block depth) s (some b) (s.past ts rest) := by
  obtain _ | @⟨kw,name,o,c,us,rules,hk,hn,ho,hrules,hc⟩ := h
  have hr₁ : s.rest = kw :: name :: o :: (us ++ ([c] ++ rest)) := by simpa using hr
  have hr₂ : s.rest = [kw,name,o] ++ (us ++ ([c] ++ rest)) := hr₁
  refine .bind (.next hr₁) (.bind (.bind (.eat rfl hn) (.pure _ _)) (.bind (.eat rfl ho) ?_))
  rw [past_past, past_past]
  have hloop := Yields.loop (F := fun _ => True) [c] rest (fun _ _ => ruleOf_ne_nil)
    (fun _ _ _ => trivial)
    (fun _ _ h s later hs hr _ => Yields.blockTurn_rule depth o.span h hs hr)
    (fun s hs hr => Yields.blockTurn_done depth o.span hc hr) hrules (good_past hs hr₂) rfl
  rw [past_past] at hloop
  exact .bind hloop (.finish _ (by simp))

end Complete

end TreeRules.Parser
