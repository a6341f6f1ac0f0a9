import TreeRules.Proofs.Parser.Excerpt

/-! Items, templates and rules, read from an excerpt alongside the whole: the same is read from
both, up to where it stands. -/
namespace TreeRules.Parser.Excerpt

open Grammar
open Token (Kind)

variable {E : Excerpt} {α β : Type} {s' s t' t : State}

namespace Matches

/-! Leaves. -/

lemma hole (h : E.Inside s' s) (hh : headKind s'.rest = .hole) :
    E.Matches (fun a b => b = a) Parser.hole Parser.hole s' s := by
  refine .next_bind h hh (by decide) fun c t' t _ hplace hsteps => ?_
  rw [Token.text_forward]
  cases Hole.ofDigits? (c.text.toList.drop 1) with
  | some hole => exact .pure hsteps.inside rfl
  | none => exact .reportSpan_reject hsteps.inside hplace

lemma literal {kind : Kind} (h : E.Inside s' s) (hh : headKind s'.rest = kind)
    (hk : kind ∉ [.endOfInput,.semicolon]) :
    E.Matches (fun a b => b = (a.1.forward E.shift,a.2) ∧ (E.told → E.place a.1.span.start))
      Parser.literal Parser.literal s' s := by
  refine .next_bind h hh hk fun c t' t _ hplace hsteps => ?_
  rw [Token.text_forward]
  cases unescapeChars (c.text.toList.drop 1).dropLast with
  | ok chars => exact .pure hsteps.inside ⟨rfl,hplace⟩
  | error escape => exact .reportSpan_reject hsteps.inside hplace

lemma char (h : E.Inside s' s) : E.Matches (fun a b => b = a) Parser.char Parser.char s' s := by
  refine .peek h ?_
  split_ifs with hh
  · refine (literal h hh (by decide)).bind ?_
    rintro ⟨c,chars⟩ _ ts t' t - ⟨rfl,hplace⟩ hsteps
    match chars with
    | [d] => exact .pure hsteps.inside rfl
    | [] => exact .reportSpan_reject hsteps.inside hplace
    | _ :: _ :: _ => exact .reportSpan_reject hsteps.inside hplace
  · exact .reportHere_reject h _ _

lemma dots (h : E.Inside s' s) : E.Matches (fun a b => b = a) Parser.dots Parser.dots s' s := by
  refine (eat? h (by decide)).bind ?_
  rintro o _ ts t' t - rfl hsteps
  exact .pure hsteps.inside (by cases o <;> rfl)

lemma dataBlock (h : E.Inside s' s) (hh : headKind s'.rest = .angleOpen) :
    E.Matches (fun a b => b = a) Parser.dataBlock Parser.dataBlock s' s := by
  refine .next_bind h hh (by decide) fun o t' t _ _ hsteps => .peek hsteps.inside ?_
  have hclose : ∀ d u' u, E.Inside u' u → E.Matches (fun a b : Datum => b = a)
      (do Parser.close .angleClose .unclosedAngle o.span; Pure.pure d)
      (do Parser.close .angleClose .unclosedAngle (o.forward E.shift).span; Pure.pure d) u' u := by
    intro d u' u hu
    exact (close hu (by decide) _ _).bind fun _ _ ts v' v _ _ hv => .pure hv.inside rfl
  dsimp only
  split
  next hk =>
    have hdatum : E.Matches (fun a b : Datum => b = a) (Datum.hole <$> Parser.hole)
        (Datum.hole <$> Parser.hole) t' t :=
      .map ((hole hsteps.inside hk).mono fun _ _ => congrArg Datum.hole)
    refine hdatum.bind ?_
    rintro _ d ts u' u - rfl hu
    exact hclose d u' u hu.inside
  next hk =>
    refine (literal hsteps.inside hk (by decide)).bind ?_
    rintro ⟨c,chars⟩ _ ts u' u - ⟨rfl,-⟩ hu
    exact hclose _ u' u hu.inside
  next => exact .reportHere_reject hsteps.inside _ _

lemma dataBlock? (h : E.Inside s' s) :
    E.Matches (fun a b => b = a) Parser.dataBlock? Parser.dataBlock? s' s := by
  refine .peek h ?_
  split_ifs with hh
  · refine .map ((dataBlock h hh).mono ?_)
    rintro d _ rfl
    rfl
  · exact .pure h rfl

end Matches

/-! Lists. -/

section Lists

variable {g : α → α} {p : Parser α}

/-- Each turn of the excerpt's loop but the last reads a token, so that its turns suffice. -/
lemma Matches.turns {step : Parser (Turn α)}
    (hstep : ∀ s' s, E.Inside s' s → E.Matches (fun a b => b = match a with
      | .done => .done
      | .skip => .skip
      | .item a => .item (g a)) step step s' s)
    (hread : ∀ s, Takes 0 step s fun ts turn => turn ≠ .done → ts ≠ []) {budget' budget : Nat}
    (h : E.Inside s' s) (hbudget : s'.rest.length < budget') :
    E.Matches (fun a b => b = a.map g) (Parser.turns step budget') (Parser.turns step budget)
      s' s := by
  induction budget generalizing budget' s' s with
  | zero => trivial
  | succ budget ih =>
    obtain ⟨n,rfl⟩ := Nat.exists_eq_succ_of_ne_zero (Nat.ne_of_gt (Nat.zero_lt_of_lt hbudget))
    refine (hstep s' s h).bind ?_
    rintro turn _ ts t' t hrun rfl hsteps
    have hlt : turn ≠ .done → t'.rest.length < n := by
      intro hturn
      obtain ⟨us,hm,-,-,hne⟩ := (hread s').of_ok hrun
      have := hm.length_lt (hne hturn)
      omega
    cases turn with
    | done => exact .pure hsteps.inside rfl
    | skip => exact ih hsteps.inside (hlt nofun)
    | item a =>
      refine .map ((ih hsteps.inside (hlt nofun)).mono ?_)
      rintro as _ rfl
      rfl

variable (hp : ∀ s' s, E.Inside s' s → E.Matches (fun a b => b = g a) p p s' s)
  {R : List Token → α → Prop} (htakes : ∀ s, Takes 0 p s R)
include hp htakes

lemma Matches.separated (h : E.Inside s' s) :
    E.Matches (fun a b => b = a.map g) (Parser.separated p) (Parser.separated p) s' s := by
  refine (hp s' s h).bind ?_
  rintro a _ ts t' t - rfl hsteps
  refine Matches.bind (Matches.turns (g := g) (fun u' u hu => ?_) (fun u => ?_) hsteps.inside
    (Nat.lt_succ_self _)) ?_
  · refine (Matches.eat? hu (by decide)).bind ?_
    rintro (_ | c) _ us v' v - rfl hv
    · exact .pure hv.inside rfl
    · refine .map ((hp v' v hv.inside).mono ?_)
      rintro b _ rfl
      rfl
  · refine (Takes.eat? (by decide)).bind ?_
    rintro us (_ | c) v - hc
    · exact .pure fun hdone => absurd rfl hdone
    · refine .map ((htakes v).mono fun _ _ _ _ => ?_)
      simp [hc.1]
  · rintro as _ us u' u - rfl hu
    exact .pure hu.inside rfl

lemma Matches.parenthesized (h : E.Inside s' s) (hh : headKind s'.rest = .parenOpen) :
    E.Matches (fun a b => b = a.map g) (Parser.parenthesized p) (Parser.parenthesized p) s' s := by
  refine .next_bind h hh (by decide) fun o t' t _ _ hsteps => ?_
  refine (Matches.eat? hsteps.inside (by decide)).bind ?_
  rintro (_ | c) _ ts u' u - rfl hu
  · refine (Matches.separated hp htakes hu.inside).bind ?_
    rintro as _ us v' v - rfl hv
    refine (Matches.close hv.inside (by decide) _ _).bind fun _ _ vs w' w _ _ hw => ?_
    exact .pure hw.inside rfl
  · exact .pure hu.inside rfl

lemma Matches.children (h : E.Inside s' s) :
    E.Matches (fun a b => b = a.map g) (Parser.children p) (Parser.children p) s' s := by
  refine .peek h ?_
  split_ifs with hh
  · exact Matches.parenthesized hp htakes h hh
  · exact .pure h rfl

end Lists

/-- Where both readers took a token, the spans of what they read agree. -/
lemma Matches.spanned {p : Parser α} {V : α → α → Prop} {f : α → Span → β} {g : β → β}
    (h : E.Inside s' s) (hp : E.Matches V p p s' s)
    (hne : Takes 0 p s' fun ts _ => ts ≠ [])
    (hf : ∀ v' v span, V v' v → f v (span.forward E.shift) = g (f v' span)) :
    E.Matches (fun a b => b = g a) (do
      let start := (← Parser.here).start
      let v ← p
      let span ← Parser.spanFrom start
      return f v span) (do
      let start := (← Parser.here).start
      let v ← p
      let span ← Parser.spanFrom start
      return f v span) s' s := by
  refine .here h (hp.bind fun v' v ts t' t hrun hv hsteps => ?_)
  obtain ⟨us,hm,-,-,hus⟩ := hne.of_ok hrun
  obtain rfl := hsteps.excerpt.unique hm
  refine (Matches.spanFrom hsteps.inside (hsteps.lastStop hus) _).bind ?_
  rintro span _ us u' u - rfl hu
  exact .pure hu.inside (hf v' v span hv)

/-! Items. -/

section Items

/-- A form of the excerpt makes the items that the whole's one makes further on. -/
def SameForm (k : Nat) (make' make : Form) : Prop :=
  ∀ tag, make (tag.forward k) = (make' tag).forward k

lemma Matches.holeForm (h : E.Inside s' s) (hh : headKind s'.rest = .hole) :
    E.Matches (SameForm E.shift) Parser.holeForm Parser.holeForm s' s := by
  refine (Matches.hole h hh).bind ?_
  rintro _ n ts t' t - rfl hsteps
  refine (Matches.dots hsteps.inside).bind ?_
  rintro _ b us u' u - rfl hu
  exact .pure hu.inside fun _ => rfl

lemma Matches.rangeForm (h : E.Inside s' s) :
    E.Matches (SameForm E.shift) Parser.rangeForm Parser.rangeForm s' s := by
  refine (Matches.char h).bind ?_
  rintro _ first ts t' t - rfl ht
  refine (Matches.expect ht.inside (by decide) _).bind fun _ _ us u' u _ _ hu => ?_
  refine (Matches.char hu.inside).bind ?_
  rintro _ last vs v' v - rfl hv
  refine (Matches.eat? hv.inside (by decide)).bind ?_
  rintro (_ | o) _ ws w' w - rfl hw
  · exact .pure hw.inside fun _ => rfl
  · refine .peek hw.inside ?_
    split_ifs with hk
    · refine (Matches.hole hw.inside hk).bind ?_
      rintro _ n xs x' x - rfl hx
      refine (Matches.close hx.inside (by decide) _ _).bind fun _ _ ys y' y _ _ hy => ?_
      exact .pure hy.inside fun _ => rfl
    · exact .reportHere_reject hw.inside _ _

variable {p : Parser Item}
  (hp : ∀ s' s, E.Inside s' s → E.Matches (fun i' i => i = i'.forward E.shift) p p s' s)
  (hspans : ∀ s, Takes 0 p s fun ts i => Spans ts i.span)
include hp hspans

lemma Matches.namedForm (h : E.Inside s' s) (hh : headKind s'.rest = .id) :
    E.Matches (SameForm E.shift) (Parser.namedForm p) (Parser.namedForm p) s' s := by
  refine .next_bind h hh (by decide) fun name t' t _ _ ht => .peek ht.inside ?_
  split_ifs with hk
  · refine (Matches.hole ht.inside hk).bind ?_
    rintro _ n us u' u - rfl hu
    refine (Matches.dots hu.inside).bind ?_
    rintro _ b vs v' v - rfl hv
    exact .pure hv.inside fun _ => rfl
  · refine (Matches.dataBlock? ht.inside).bind ?_
    rintro _ data us u' u - rfl hu
    refine (Matches.children hp hspans hu.inside).bind ?_
    rintro items _ vs v' v - rfl hv
    exact .pure hv.inside fun _ => by simp [Item.forward]

lemma Matches.combined {kind : Kind} (h : E.Inside s' s) (hh : headKind s'.rest = kind)
    (hk : kind ∉ [.endOfInput,.semicolon]) :
    E.Matches (fun a b => b = a.map (Item.forward E.shift)) (Parser.combined p)
      (Parser.combined p) s' s := by
  refine .next_bind h hh hk fun sign t' t _ _ ht => .peek ht.inside ?_
  split_ifs with hopen
  · exact Matches.parenthesized hp hspans ht.inside hopen
  · exact .reportHere_reject ht.inside _ _

lemma Matches.form (h : E.Inside s' s) :
    E.Matches (SameForm E.shift) (Parser.form p) (Parser.form p) s' s := by
  refine .peek h ?_
  split
  next hk => exact Matches.namedForm hp hspans h hk
  next hk => exact Matches.holeForm h hk
  next => exact Matches.rangeForm h
  next hk =>
    refine (Matches.combined hp hspans h hk (by decide)).bind ?_
    rintro items _ ts t' t - rfl ht
    exact .pure ht.inside fun _ => by simp [Item.forward]
  next hk =>
    refine (Matches.combined hp hspans h hk (by decide)).bind ?_
    rintro items _ ts t' t - rfl ht
    exact .pure ht.inside fun _ => by simp [Item.forward]
  next hk => exact .next_bind h hk (by decide) fun c t' t _ _ ht => .pure ht.inside fun _ => rfl
  next => exact .reportHere_reject h _ _

lemma Matches.atom (h : E.Inside s' s) :
    E.Matches (fun i' i => i = i'.forward E.shift) (Parser.atom p) (Parser.atom p) s' s :=
  .spanned h (Matches.form hp hspans h) ((Takes.form hspans s').mono fun _ _ => formOf_ne_nil)
    fun _ _ span hmake => hmake (.plain span)

lemma Matches.negated (h : E.Inside s' s) (hh : headKind s'.rest = .negation) :
    E.Matches (fun i' i => i = i'.forward E.shift) (Parser.negated p) (Parser.negated p) s' s := by
  refine .next_bind h hh (by decide) fun sign t' t _ _ ht => ?_
  refine (Matches.atom hp hspans ht.inside).bind ?_
  rintro i _ us u' u - rfl hu
  rw [Item.span_forward, Token.span_forward]
  refine (Matches.spanOf hu.inside _ _).bind ?_
  rintro span _ vs v' v - rfl hv
  refine .pure hv.inside ?_
  rw [Item.forward_withTag, Item.tag_forward]
  rfl

lemma Matches.moded {opening : Kind} (h : E.Inside s' s) (hh : headKind s'.rest = opening)
    (hopening : opening ∉ [.endOfInput,.semicolon]) {closing : Kind}
    (hclosing : closing ∉ [.endOfInput,.semicolon]) (mode : Mode) (unclosed : Diagnostic.Kind) :
    E.Matches (fun i' i => i = i'.forward E.shift) (Parser.moded p mode closing unclosed)
      (Parser.moded p mode closing unclosed) s' s := by
  refine .next_bind h hh hopening fun o t' t _ _ ht => (hp t' t ht.inside).bind ?_
  rintro i _ us u' u hrun rfl hu
  have hreport : E.Matches (fun _ _ => True) (reportNestedMode i)
      (reportNestedMode (i.forward E.shift)) u' u := by
    rw [reportNestedMode, reportNestedMode, Item.mode, Item.mode, Item.tag_forward]
    by_cases hmode : i.tag.mode = .normal
    · rw [if_pos hmode, if_pos (show (i.tag.forward E.shift).mode = .normal from hmode)]
      exact .pure hu.inside trivial
    · rw [if_neg hmode, if_neg (show (i.tag.forward E.shift).mode ≠ .normal from hmode)]
      refine .reportAt hu.inside fun htold => ?_
      obtain ⟨ts,hm,-,-,hne,hcover⟩ := (hspans t').of_ok hrun
      obtain ⟨c,cs,rfl⟩ := List.exists_cons_of_ne_nil hne
      have hplace : E.place c.span.start := (ht.inside.tells htold).places c (by simp [hm.rest])
      rw [E.unmoved htold, Item.forward_zero, hcover]
      exact ⟨rfl,rfl,hplace⟩
  refine hreport.bind fun _ _ vs v' v _ _ hv => ?_
  refine (Matches.close hv.inside hclosing _ _).bind fun _ _ ws w' w _ _ hw => ?_
  have hlast := (((ht.trans hu).trans hv).trans hw).lastStop (by simp)
  refine (Matches.spanFrom hw.inside hlast _).bind ?_
  rintro span _ xs x' x - rfl hx
  refine .pure hx.inside ?_
  rw [Item.forward_withTag, Item.tag_forward]
  rfl

lemma Matches.itemWith (h : E.Inside s' s) :
    E.Matches (fun i' i => i = i'.forward E.shift) (Parser.itemWith p) (Parser.itemWith p)
      s' s := by
  refine .peek h ?_
  split
  next hk => exact Matches.moded hp hspans h hk (by decide) (by decide) _ _
  next hk => exact Matches.moded hp hspans h hk (by decide) (by decide) _ _
  next hk => exact Matches.negated hp hspans h hk
  next => exact Matches.atom hp hspans h

end Items

theorem matches_item (depth : Nat) (s' s : State) (h : E.Inside s' s) :
    E.Matches (fun i' i => i = i'.forward E.shift) (item depth) (item depth) s' s := by
  induction depth generalizing s' s with
  | zero => trivial
  | succ depth ih =>
    exact Matches.itemWith ih (fun s => (takes_item depth s).mono fun _ _ => spans_of_looseItem) h

/-! Templates. -/

lemma Matches.templateForm {p : Parser Template}
    (hp : ∀ s' s, E.Inside s' s → E.Matches (fun t' t => t = t'.forward E.shift) p p s' s)
    {R : List Token → Template → Prop} (htakes : ∀ s, Takes 0 p s R) (h : E.Inside s' s) :
    E.Matches (fun make' make => ∀ span : Span, make (span.forward E.shift) =
      (make' span).forward E.shift) (Parser.templateForm p) (Parser.templateForm p) s' s := by
  refine .peek h ?_
  split
  next hk => exact .next_bind h hk (by decide) fun c t' t _ _ ht => .pure ht.inside fun _ => rfl
  next hk =>
    refine (Matches.hole h hk).bind ?_
    rintro _ n ts t' t - rfl ht
    exact .pure ht.inside fun _ => rfl
  next hk =>
    refine .next_bind h hk (by decide) fun name t' t _ _ ht => ?_
    refine (Matches.dataBlock? ht.inside).bind ?_
    rintro _ data us u' u - rfl hu
    refine (Matches.children hp htakes hu.inside).bind ?_
    rintro parts _ vs v' v - rfl hv
    exact .pure hv.inside fun _ => by simp [Template.forward]
  next => exact .reportHere_reject h _ _

theorem matches_template (depth : Nat) (s' s : State) (h : E.Inside s' s) :
    E.Matches (fun t' t => t = t'.forward E.shift) (template depth) (template depth) s' s := by
  induction depth generalizing s' s with
  | zero => trivial
  | succ depth ih =>
    have htakes := takes_template depth
    exact .spanned h (Matches.templateForm ih htakes h)
      ((Takes.templateForm htakes s').mono fun _ _ => templateForm_ne_nil)
      fun _ _ span hmake => hmake span

/-! Rules. -/

lemma matches_ruleFront (depth : Nat) (h : E.Inside s' s) :
    E.Matches (fun a b => b = (a.1.map (Item.forward E.shift),a.2.forward E.shift))
      (ruleFront depth) (ruleFront depth) s' s := by
  refine (Matches.separated (matches_item depth) (takes_item depth) h).bind ?_
  rintro pattern _ ts t' t - rfl ht
  refine (Matches.expect ht.inside (by decide) _).bind fun _ _ us u' u _ _ hu => ?_
  refine (matches_template depth u' u hu.inside).bind ?_
  rintro result _ vs v' v - rfl hv
  exact .pure hv.inside rfl

/-- Like `Matches`, but reading may have come to the end of the excerpt. -/
def Leaves (E : Excerpt) (V : α → β → Prop) (p' : Parser α) (p : Parser β) (s' s : State) : Prop :=
  match p s with
  | .ok v t => ∃ v' t' ts, p' s' = .ok v' t' ∧ V v' v ∧ Moves s' ts t' ∧
      Moves s (ts.map (Token.forward E.shift)) t ∧ E.Joins t' t
  | .reject t => E.told → ∃ t', p' s' = .reject t' ∧ E.Inside t' t
  | .stop _ => True

section Leaves

variable {γ δ : Type} {V : α → β → Prop} {W : γ → δ → Prop} {p' : Parser α} {p : Parser β}

lemma Matches.leaves (h : E.Matches V p' p s' s) : E.Leaves V p' p s' s := by
  rw [Matches] at h
  rw [Leaves]
  cases hps : p s with
  | ok v t =>
    rw [hps] at h
    obtain ⟨v',t',ts,hrun,hv,hsteps⟩ := h
    exact ⟨v',t',ts,hrun,hv,hsteps.excerpt,hsteps.whole,hsteps.inside.toJoins⟩
  | reject t =>
    rw [hps] at h
    exact h
  | stop fault => trivial

lemma Leaves.bind {f' : α → Parser γ} {f : β → Parser δ} (hp : E.Matches V p' p s' s)
    (hf : ∀ v' v ts t' t, V v' v → E.Steps s' s ts t' t → E.Leaves W (f' v') (f v) t' t) :
    E.Leaves W (p' >>= f') (p >>= f) s' s := by
  rw [Leaves, bind_apply]
  rw [Matches] at hp
  cases hps : p s with
  | ok v t =>
    rw [hps] at hp
    obtain ⟨v',t',ts,hrun,hv,hsteps⟩ := hp
    have hnext := hf v' v ts t' t hv hsteps
    rw [Leaves] at hnext
    dsimp only
    cases hfs : f v t with
    | ok w u =>
      rw [hfs] at hnext
      obtain ⟨w',u',us,hrun',hw,hm',hm,hjoins⟩ := hnext
      refine ⟨w',u',ts ++ us,?_,hw,hsteps.excerpt.trans hm',?_,hjoins⟩
      · rw [bind_apply, hrun]
        exact hrun'
      · simpa using hsteps.whole.trans hm
    | reject u =>
      rw [hfs] at hnext
      intro ht
      obtain ⟨u',hrun',hinside⟩ := hnext ht
      refine ⟨u',?_,hinside⟩
      rw [bind_apply, hrun]
      exact hrun'
    | stop fault => trivial
  | reject t =>
    rw [hps] at hp
    intro ht
    obtain ⟨t',hrun,hinside⟩ := hp ht
    refine ⟨t',?_,hinside⟩
    rw [bind_apply, hrun]
  | stop fault => trivial

end Leaves

/-- The semicolon may be the last token of the excerpt. -/
lemma leaves_semicolon {γ δ : Type} {W : γ → δ → Prop} {v' : γ} {v : δ} (h : E.Inside s' s)
    (hv : W v' v) (missing : Diagnostic.Kind) :
    E.Leaves W (do expect .semicolon missing; return v') (do expect .semicolon missing; return v)
      s' s := by
  by_cases hh : headKind s'.rest = .semicolon
  · obtain ⟨c,cs,hr,-⟩ := exists_cons_of_headKind hh (by decide)
    rw [Leaves, bind_apply, expect_eq, if_pos (h.headKind_eq.trans hh), bind_apply]
    cases hrun : next s with
    | ok d t =>
      obtain ⟨t',hrun',-,hm',hm,hjoins⟩ := h.toJoins.next hr hrun
      refine ⟨v',t',[c],?_,hv,hm',hm,hjoins⟩
      rw [bind_apply, expect_eq, if_pos hh, bind_apply, hrun']
      rfl
    | reject t => exact absurd hrun (Settles.next s t)
    | stop fault => trivial
  · have hexpect : E.Matches (fun _ _ => True) (expect .semicolon missing)
        (expect .semicolon missing) s' s := by
      rw [Matches, expect_eq, expect_eq, if_neg hh, if_neg (h.headKind_eq ▸ hh)]
      exact Matches.reportHere_reject h _ _
    exact (hexpect.bind fun _ _ _ _ _ _ _ hsteps => .pure hsteps.inside hv).leaves

lemma leaves_ruleBody (depth : Nat) (h : E.Inside s' s) :
    E.Leaves (fun a b => b = (a.1.map (Item.forward E.shift),a.2.forward E.shift))
      (ruleBody depth) (ruleBody depth) s' s := by
  rw [ruleBody_eq]
  refine Leaves.bind (matches_ruleFront depth h) fun body' body ts t' t hbody hsteps => ?_
  refine leaves_semicolon hsteps.inside ?_ _
  exact hbody

/-! Skipping. -/

/-- How much of a statement is skipped does not depend on what stands behind the excerpt. -/
lemma statementLength_excerpt (k opened : Nat) {ts later : List Token}
    (hend : (∃ c ∈ ts.getLast?, c.kind = .semicolon) ∨ later = []) :
    statementLength opened (ts.map (Token.forward k) ++ later) = statementLength opened ts := by
  have hlast : ∀ {t : Token} {ts : List Token}, t.kind ≠ .semicolon →
      ((∃ c ∈ (t :: ts).getLast?, c.kind = .semicolon) ∨ later = []) →
      (∃ c ∈ ts.getLast?, c.kind = .semicolon) ∨ later = [] := by
    rintro t ts ht (⟨c,hc,hk⟩ | hlater)
    · cases ts with
      | nil =>
        cases hc
        exact absurd hk ht
      | cons u us => exact Or.inl ⟨c,by simpa using hc,hk⟩
    · exact Or.inr hlater
  fun_induction statementLength opened ts with
  | case1 opened =>
    obtain ⟨c,hc,-⟩ | rfl := hend
    · cases hc
    · rfl
  | case2 opened t ts hk => simp [statementLength, hk]
  | case3 t ts opened hk ih =>
    simp [statementLength, hk, ih (hlast (by simp [hk]) hend)]
  | case4 t ts hk => simp [statementLength, hk]
  | case5 t ts opened hk ih =>
    simp [statementLength, hk, ih (hlast (by simp [hk]) hend)]
  | case6 t ts opened hsemicolon hopen hclose hclose' ih =>
    have hrest := ih (hlast hsemicolon hend)
    obtain ⟨kind,span,text⟩ := t
    cases kind with
    | semicolon => exact (hsemicolon rfl).elim
    | braceOpen => exact (hopen rfl).elim
    | braceClose =>
      cases opened with
      | zero => exact (hclose rfl rfl).elim
      | succ n => exact (hclose' n rfl rfl).elim
    | _ => exact congrArg (· + 1) hrest

/-- Reading both came to where the excerpt stands for the whole, be it at the excerpt's end. -/
structure Reaches (E : Excerpt) (s' s t' t : State) : Prop where
  excerpt : ∃ ts, Moves s' ts t'
  whole : ∃ ts, Moves s ts t
  joins : E.Joins t' t

lemma Reaches.trans {u' u : State} (h : E.Reaches s' s t' t) (h' : E.Reaches t' t u' u) :
    E.Reaches s' s u' u := by
  obtain ⟨⟨ts,hts⟩,⟨us,hus⟩,-⟩ := h
  obtain ⟨⟨vs,hvs⟩,⟨ws,hws⟩,hjoins⟩ := h'
  exact ⟨⟨ts ++ vs,hts.trans hvs⟩,⟨us ++ ws,hus.trans hws⟩,hjoins⟩

lemma Joins.advance (h : E.Joins s' s) {n : Nat} (hn : n ≤ s'.rest.length)
    (hrun : advance n s = .ok () t) :
    ∃ t', Parser.advance n s' = .ok () t' ∧ E.Reaches s' s t' t := by
  induction n generalizing s' s with
  | zero =>
    cases hrun
    exact ⟨s',rfl,⟨[],.refl s'⟩,⟨[],.refl _⟩,h⟩
  | succ n ih =>
    obtain ⟨c,cs,hr⟩ := List.exists_cons_of_length_pos (Nat.lt_of_lt_of_le n.succ_pos hn)
    obtain ⟨d,u,hnext,hrun⟩ := exists_of_bind hrun
    obtain ⟨u',hnext',-,hm',hm,hjoins⟩ := h.next hr hnext
    have hlength : n ≤ u'.rest.length := by
      rw [hm'.rest] at hn
      exact Nat.le_of_succ_le_succ hn
    obtain ⟨t',hrun',hreaches⟩ := ih hjoins hlength hrun
    refine ⟨t',?_,Reaches.trans ⟨⟨_,hm'⟩,⟨_,hm⟩,hjoins⟩ hreaches⟩
    rw [Parser.advance, bind_apply, hnext']
    exact hrun'

lemma Inside.skipStatement (h : E.Inside s' s) (hrun : skipStatement s = .ok () t) :
    ∃ t', Parser.skipStatement s' = .ok () t' ∧ E.Reaches s' s t' t := by
  have hlength : statementLength 0 s.rest = statementLength 0 s'.rest := by
    rw [h.rest]
    exact statementLength_excerpt _ _ (h.encloses.imp_right And.left)
  rw [Parser.skipStatement, hlength] at hrun
  exact h.toJoins.advance (statementLength_le 0 s'.rest) hrun

/-- A rule is read from the excerpt as from the whole; so is what is no rule, where diagnostics are
compared. -/
lemma Inside.rule {depth : Nat} {o : Option Rule} (h : E.Inside s' s)
    (hrun : rule depth s = .ok o t) (ho : o.isSome = true ∨ E.told) :
    ∃ o' t', Parser.rule depth s' = .ok o' t' ∧ o = o'.map (Rule.forward E.shift) ∧
      E.Reaches s' s t' t := by
  have hleaves := leaves_ruleBody depth h
  rw [Leaves] at hleaves
  rw [Parser.rule, here_bind] at hrun ⊢
  obtain ⟨body,u,hbody,hrun⟩ := exists_of_bind hrun
  rw [attempt] at hbody
  cases hcase : ruleBody depth s with
  | ok v w =>
    have htaken := taken_ruleBody depth s
    rw [hcase] at hbody hleaves htaken
    cases hbody
    obtain ⟨v',t',ts,hrun',rfl,hm',hm,hjoins⟩ := hleaves
    obtain ⟨us,c,hmu,-⟩ := htaken
    -- something was read, so both know where it ends
    have hne : ts ≠ [] := by
      rintro rfl
      simpa using hm.unique hmu
    have hlast : u.lastStop = t'.lastStop + E.shift := by
      rw [hm.lastStop, hm'.lastStop, endOf_forward hne]
    obtain ⟨span,x,hspan,hrun⟩ := exists_of_bind hrun
    cases hrun
    rw [spanFrom, spanOf, hlast, h.hereSpan_eq] at hspan
    split_ifs at hspan with hle
    · cases hspan
      refine ⟨some ⟨v'.1,v'.2,⟨(hereSpan s').start,t'.lastStop⟩⟩,t',?_,rfl,⟨ts,hm'⟩,⟨_,hm⟩,hjoins⟩
      rw [bind_apply, attempt, hrun']
      dsimp only
      rw [bind_apply, spanFrom_eq (Nat.le_of_add_le_add_right hle)]
      rfl
    · cases hspan
  | reject w =>
    have htaken := taken_ruleBody depth s
    have htaken' := taken_ruleBody depth s'
    rw [hcase] at hbody hleaves htaken
    cases hbody
    obtain ⟨_,x,hskip,hrun⟩ := exists_of_bind hrun
    cases hrun
    obtain ⟨w',hrun',hinside⟩ := hleaves (ho.resolve_left (by simp))
    rw [hrun'] at htaken'
    obtain ⟨ts,hm,-⟩ := htaken
    obtain ⟨ts',hm',-⟩ := htaken'
    obtain ⟨t',hskip',hreaches⟩ := hinside.skipStatement hskip
    refine ⟨none,t',?_,rfl,Reaches.trans ⟨⟨_,hm'⟩,⟨_,hm⟩,hinside.toJoins⟩ hreaches⟩
    rw [bind_apply, attempt, hrun']
    dsimp only
    rw [bind_apply, hskip']
    rfl
  | stop fault =>
    rw [hcase] at hbody
    cases hbody

end TreeRules.Parser.Excerpt
