import TreeRules.Proofs.Parser.Grammar
import TreeRules.Proofs.Parser.Success

/-! Loops, lists with commas and lists in parentheses: what they read if their elements read what
they should, and that they read it. -/
namespace TreeRules.Parser

open Grammar
open Token (Kind)

variable {α : Type} {R : List Token → α → Prop}

/-- What a turn of a loop is to come to. -/
def TurnPost (R : List Token → α → Prop) (D : List Token → State → Prop) (ts : List Token)
    (turn : Turn α) (t : State) : Prop :=
  match turn with
  | .done => t.diagnostics = [] → D ts t
  | .skip => ts ≠ [] ∧ t.diagnostics ≠ []
  | .item a => ts ≠ [] ∧ (t.diagnostics = [] → R ts a)

lemma Moves.length_lt {s t : State} {ts : List Token} (h : Moves s ts t) (hts : ts ≠ []) :
    t.rest.length < s.rest.length := by
  rw [h.rest, List.length_append]
  have := List.length_pos_iff.mpr hts
  omega

/-- A loop whose turns read tokens comes to its end. What lies behind stays behind. -/
lemma Wp.turns {step : Parser (Turn α)} {D : List Token → State → Prop} (low : Nat)
    (hstep : ∀ s, Good s → low ≤ s.lastStop → Wp step s (TurnPost R D)) {budget : Nat} {s : State}
    (hs : Good s) (hlow : low ≤ s.lastStop) (hb : s.rest.length < budget) :
    Wp (Parser.turns step budget) s fun ts as t =>
      t.diagnostics = [] → ∃ us vs, ts = us ++ vs ∧ Many R us as ∧ D vs t := by
  induction budget generalizing s with
  | zero => exact absurd hb (Nat.not_lt_zero _)
  | succ budget ih =>
    refine (hstep s hs hlow).bind fun ts turn t ht hm hturn => ?_
    have hlow' := Nat.le_trans hlow (hm.lastStop_le hs)
    cases turn with
    | done => exact .pure ht fun hd => ⟨[],ts,by simp,.nil,hturn hd⟩
    | skip =>
      have hlt := hm.length_lt hturn.1
      exact (ih ht hlow' (by omega)).mono fun us as u _ hm' _ hd => absurd (hm'.quiet hd) hturn.2
    | item a =>
      have hlt := hm.length_lt hturn.1
      refine .map ((ih ht hlow' (by omega)).mono fun us as u _ hm' hu hd => ?_)
      obtain ⟨xs,ys,rfl,hxs,hys⟩ := hu hd
      exact ⟨ts ++ xs,ys,by simp,.cons (hturn.2 (hm'.quiet hd)) hxs,hys⟩

lemma Wp.loop {step : Parser (Turn α)} {D : List Token → State → Prop} (low : Nat)
    (hstep : ∀ s, Good s → low ≤ s.lastStop → Wp step s (TurnPost R D)) {s : State} (hs : Good s)
    (hlow : low ≤ s.lastStop) :
    Wp (Parser.loop step) s fun ts as t =>
      t.diagnostics = [] → ∃ us vs, ts = us ++ vs ∧ Many R us as ∧ D vs t :=
  Wp.turns low hstep hs hlow (Nat.lt_succ_self _)

/-- A loop reads all that its turns read, up to a last turn. -/
lemma Yields.turns {step : Parser (Turn α)} {F : List Token → Prop} (vs rest : List Token)
    (hne : ∀ ts a, R ts a → ts ≠ [])
    (hfollow : ∀ us as, Many R us as → F (us ++ (vs ++ rest)))
    (hstep : ∀ ts a, R ts a → ∀ s later, Good s → s.rest = ts ++ later → F later →
      Yields step s (.item a) (s.past ts later))
    (hdone : ∀ s, Good s → s.rest = vs ++ rest → Yields step s .done (s.past vs rest))
    {ts : List Token} {as : List α} (hmany : Many R ts as) {budget : Nat} {s : State}
    (hs : Good s) (hr : s.rest = ts ++ (vs ++ rest)) (hb : s.rest.length < budget) :
    Yields (Parser.turns step budget) s as (s.past (ts ++ vs) rest) := by
  induction hmany generalizing budget s with
  | nil =>
    cases budget with
    | zero => exact absurd hb (Nat.not_lt_zero _)
    | succ budget => exact .bind (hdone s hs hr) (.pure _ _)
  | @cons ts us a as ha has ih =>
    cases budget with
    | zero => exact absurd hb (Nat.not_lt_zero _)
    | succ budget =>
      rw [List.append_assoc] at hr
      have hlen : (us ++ (vs ++ rest)).length < budget := by
        have hpos := List.length_pos_iff.mpr (hne ts a ha)
        rw [hr, List.length_append] at hb
        omega
      refine .bind (hstep ts a ha s _ hs hr (hfollow us as has)) ?_
      have hrest := ih (good_past hs hr) rfl hlen
      rw [past_past, ← List.append_assoc ts us vs] at hrest
      exact .map hrest

lemma Yields.loop {step : Parser (Turn α)} {F : List Token → Prop} (vs rest : List Token)
    (hne : ∀ ts a, R ts a → ts ≠ [])
    (hfollow : ∀ us as, Many R us as → F (us ++ (vs ++ rest)))
    (hstep : ∀ ts a, R ts a → ∀ s later, Good s → s.rest = ts ++ later → F later →
      Yields step s (.item a) (s.past ts later))
    (hdone : ∀ s, Good s → s.rest = vs ++ rest → Yields step s .done (s.past vs rest))
    {ts : List Token} {as : List α} (hmany : Many R ts as) {s : State} (hs : Good s)
    (hr : s.rest = ts ++ (vs ++ rest)) :
    Yields (Parser.loop step) s as (s.past (ts ++ vs) rest) :=
  Yields.turns vs rest hne hfollow hstep hdone hmany hs hr (Nat.lt_succ_self _)

/-! Elements. -/

/-- A parser that reads what `R` says if it reports nothing. -/
def Reads (R : List Token → α → Prop) (p : Parser α) : Prop :=
  ∀ s, Good s → Wp p s fun ts a t => ts ≠ [] ∧ (t.diagnostics = [] → R ts a)

/-- What no element goes on with. -/
structure Stops (rest : List Token) : Prop where
  hole : headKind rest ≠ .hole
  ellipsis : headKind rest ≠ .ellipsis
  angle : headKind rest ≠ .angleOpen
  paren : headKind rest ≠ .parenOpen

/-- A parser that reads all that `R` says. -/
def Covers (R : List Token → α → Prop) (p : Parser α) : Prop :=
  ∀ ts a, R ts a → ∀ s rest, Good s → s.rest = ts ++ rest → Stops rest →
    Yields p s a (s.past ts rest)

lemma Stops.of_head {t : Token} {rest : List Token} {kind : Kind} (hk : t.kind = kind)
    (h : kind ∉ [.hole,.ellipsis,.angleOpen,.parenOpen]) : Stops (t :: rest) := by
  subst hk
  simp only [List.mem_cons, List.not_mem_nil, or_false, not_or] at h
  exact ⟨h.1,h.2.1,h.2.2.1,h.2.2.2⟩

/-- What was opened lies behind. -/
lemma Moves.start_le {s t : State} {o : Token} {ts : List Token} (hs : Good s)
    (hm : Moves s (o :: ts) t) : o.span.start ≤ t.lastStop := by
  have ho := hs.inOrder
  rw [hm.rest] at ho
  rw [hm.lastStop, endOf_cons]
  exact Nat.le_trans ho.2.1 (inOrder_drop ho.2.2).1

lemma Reads.separated {p : Parser α} (hp : Reads R p) :
    Reads (SeparatedOf R) (Parser.separated p) := by
  intro s hs
  refine (hp s hs).bind ?_
  rintro ts a t ht - ⟨hts,ha⟩
  refine Wp.bind (Wp.loop (R := AfterComma R) (D := fun vs _ => vs = []) 0 (fun u hu _ => ?_) ht
    (Nat.zero_le _)) ?_
  · refine (Wp.eat? hu (by decide)).bind ?_
    rintro us (_ | c) v hv - hc
    · exact .pure hv fun _ => by simpa using hc.1
    · obtain ⟨rfl,hc⟩ := hc
      exact .map ((hp v hv).mono fun _ _ _ _ _ h => ⟨by simp,fun hd => .intro hc (h.2 hd)⟩)
  · intro us as u hu hm' hus
    refine .pure hu ⟨by simp [hts],fun hd => ?_⟩
    obtain ⟨xs,ys,rfl,hxs,rfl⟩ := hus hd
    simpa using SeparatedOf.intro (ha (hm'.quiet hd)) hxs

lemma Reads.parenthesized {p : Parser α} (hp : Reads R p) {s : State} (hs : Good s)
    (hh : headKind s.rest = .parenOpen) :
    Wp (Parser.parenthesized p) s fun ts as t => t.diagnostics = [] → ListOf R ts as := by
  obtain ⟨o,rest,hr,ho⟩ := exists_cons_of_headKind hh (by decide)
  refine Wp.next_bind hs hr fun t ht hm _ => ?_
  refine (Wp.eat? ht (by decide)).bind ?_
  rintro ts (_ | c) u hu - hc
  · obtain ⟨rfl,rfl,-⟩ := hc
    refine (hp.separated u hu).bind ?_
    rintro ts as v hv hm' ⟨-,has⟩
    refine (Wp.close hv (by decide) _ ((hm.trans hm').start_le hs)).bind ?_
    rintro us - w hw hm'' ⟨c,rfl,hc⟩
    refine .pure hw fun hd => ?_
    simpa using ListOf.some ho (has (hm''.quiet hd)) hc
  · obtain ⟨rfl,hc⟩ := hc
    exact .pure hu fun _ => .empty ho hc

lemma Reads.children {p : Parser α} (hp : Reads R p) {s : State} (hs : Good s) :
    Wp (Parser.children p) s fun ts as t => t.diagnostics = [] → ChildrenOf R ts as := by
  refine .peek ?_
  split_ifs with hh
  · exact (hp.parenthesized hs hh).mono fun _ _ _ _ _ h hd => .some (h hd)
  · exact .pure hs fun _ => .none

lemma Covers.separated {p : Parser α} (hp : Covers R p) {ts : List Token} {as : List α}
    (h : SeparatedOf R ts as) {s : State} {rest : List Token} (hs : Good s)
    (hr : s.rest = ts ++ rest) (hstop : Stops rest) (hcomma : headKind rest ≠ .comma) :
    Yields (Parser.separated p) s as (s.past ts rest) := by
  obtain @⟨ts,us,a,as,ha,has⟩ := h
  have hfollow : ∀ us as, Many (AfterComma R) us as → Stops (us ++ ([] ++ rest)) := by
    rintro _ _ (_ | ⟨⟨hc,_⟩,_⟩)
    · exact hstop
    · exact .of_head hc (by decide)
  rw [List.append_assoc] at hr
  refine .bind (hp ts a ha s _ hs hr (hfollow us as has)) ?_
  rw [← List.append_nil (ts ++ us), List.append_assoc, ← past_past (us ++ [] ++ rest)]
  refine .bind (Yields.loop [] rest ?_ hfollow ?_ ?_ has (good_past hs hr) rfl) (.pure _ _)
  · rintro _ _ ⟨_,_⟩
    simp
  · rintro _ b ⟨hc,hb⟩ u later hu hur hlater
    refine .bind (.eat hur hc) ?_
    have hb := hp _ b hb _ later (good_past_one hu hur) rfl hlater
    rw [past_past] at hb
    exact .map hb
  · intro u hu hur
    rw [past_nil hur]
    exact .bind (.eat_none (by simpa [hur] using hcomma)) (.pure _ _)

/-- No element begins with a closing parenthesis. -/
def Begins (R : List Token → α → Prop) : Prop :=
  ∀ ts a rest, R ts a → headKind (ts ++ rest) ≠ .parenClose

lemma Covers.parenthesized {p : Parser α} (hb : Begins R) (hp : Covers R p) {ts : List Token}
    {as : List α} (h : ListOf R ts as) {s : State} {rest : List Token} (hs : Good s)
    (hr : s.rest = ts ++ rest) : Yields (Parser.parenthesized p) s as (s.past ts rest) := by
  cases h with
  | @empty o c ho hc =>
    refine .bind (.next hr) (.bind (.eat rfl hc) ?_)
    rw [past_past]
    exact .pure _ _
  | @some o c ts as ho has hc =>
    have hr' : s.rest = [o] ++ (ts ++ c :: rest) := by simpa using hr
    refine .bind (.next hr') (.bind (.eat_none ?_) ?_)
    · obtain @⟨ts,us,a,as,ha,-⟩ := has
      rw [rest_past, List.append_assoc]
      exact hb ts a _ ha
    · have hsep := hp.separated has (good_past hs hr') rfl (.of_head hc (by decide))
        (by simp [headKind, hc])
      rw [past_past] at hsep
      refine .bind hsep (.bind (.close rfl hc _ _) ?_)
      rw [past_past]
      exact .pure _ _

lemma headKind_listOf {ts : List Token} {as : List α} (h : ListOf R ts as) (rest : List Token) :
    headKind (ts ++ rest) = .parenOpen := by
  rcases h with ⟨ho,-⟩ | ⟨ho,-,-⟩ <;> exact ho

lemma headKind_childrenOf_ne {ts rest : List Token} {as : List α} {kind : Kind}
    (h : ChildrenOf R ts as) (hk : .parenOpen ≠ kind) (hrest : headKind rest ≠ kind) :
    headKind (ts ++ rest) ≠ kind := by
  cases h with
  | none => exact hrest
  | some hlist =>
    rw [headKind_listOf hlist]
    exact hk

lemma Covers.children {p : Parser α} (hb : Begins R) (hp : Covers R p) {ts : List Token}
    {as : List α} (h : ChildrenOf R ts as) {s : State} {rest : List Token} (hs : Good s)
    (hr : s.rest = ts ++ rest) (hstop : Stops rest) :
    Yields (Parser.children p) s as (s.past ts rest) := by
  refine .peek ?_
  cases h with
  | none =>
    rw [if_neg (by rw [hr]; exact hstop.paren), past_nil hr]
    exact .pure _ _
  | @some ts as hlist =>
    rw [if_pos (by rw [hr]; exact headKind_listOf hlist rest)]
    exact hp.parenthesized hb hlist hs hr

end TreeRules.Parser
