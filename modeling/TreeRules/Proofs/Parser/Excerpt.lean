import TreeRules.Proofs.Parser.Course
import TreeRules.Proofs.Rule.Moved

/-! Reading an excerpt beside reading the whole. The tokens of an excerpt stand somewhere in the
whole, all moved by the same number of bytes, with other tokens behind them. An excerpt ends with a
semicolon or with the whole. Items and templates take no semicolon, so reading them from the whole
never gets out of the excerpt, and reading the excerpt alone does the same. -/
namespace TreeRules.Parser

open Grammar
open Token (Kind)

/-- Where an excerpt stands in the whole. -/
structure Excerpt where
  /-- How far the tokens of the excerpt are moved. -/
  shift : Nat
  /-- The tokens behind the excerpt. -/
  later : List Token
  /-- Whether diagnostics are to be the same. -/
  told : Prop
  /-- The places in the excerpt that a diagnostic can be for. -/
  place : Nat → Prop
  /-- The place of the last diagnostic before the excerpt. -/
  reported : Option Nat
  /-- The diagnostics from before the excerpt. -/
  earlier : List Diagnostic
  unmoved : told → shift = 0
  fresh : ∀ q, place q → reported ≠ some q

namespace Excerpt

variable (E : Excerpt)

/-- The diagnostics of the whole are those of the excerpt behind the earlier ones. -/
structure Tells (s' s : State) : Prop where
  diagnostics : s.diagnostics = E.earlier ++ s'.diagnostics
  reportedAt : (s'.reportedAt = none ∧ s.reportedAt = E.reported) ∨
    ∃ q, E.place q ∧ s'.reportedAt = some q ∧ s.reportedAt = some q
  places : ∀ c ∈ s'.rest, E.place c.span.start

/-- The state `s'` in the excerpt stands for the state `s` in the whole. -/
structure Joins (s' s : State) : Prop where
  rest : s.rest = s'.rest.map (Token.forward E.shift) ++ E.later
  fuel : s.fuel ≤ s'.fuel
  tells : E.told → E.Tells s' s

/-- The semicolon of the excerpt is not read yet, or the excerpt ends with the whole. -/
def Encloses (s' s : State) : Prop :=
  (∃ c ∈ s'.rest.getLast?, c.kind = .semicolon) ∨
    E.later = [] ∧ s.endOffset = s'.endOffset + E.shift ∧ (E.told → E.place s'.endOffset)

structure Inside (s' s : State) : Prop extends E.Joins s' s where
  encloses : E.Encloses s' s

/-- Both readers took the same tokens and are still inside. -/
structure Steps (s' s : State) (ts : List Token) (t' t : State) : Prop where
  excerpt : Moves s' ts t'
  whole : Moves s (ts.map (Token.forward E.shift)) t
  inside : E.Inside t' t

variable {α β γ δ : Type}

/-- Where `p` yields a value from `s`, so does `p'` from `s'`, and the values are related; where `p`
rejects and diagnostics are compared, so does `p'`. -/
def Matches (V : α → β → Prop) (p' : Parser α) (p : Parser β) (s' s : State) : Prop :=
  match p s with
  | .ok v t => ∃ v' t' ts, p' s' = .ok v' t' ∧ V v' v ∧ E.Steps s' s ts t' t
  | .reject t => E.told → ∃ t', p' s' = .reject t' ∧ E.Inside t' t
  | .stop _ => True

variable {E} {s' s t' t : State}

/-! States. -/

lemma Steps.refl (h : E.Inside s' s) : E.Steps s' s [] s' s := ⟨.refl s',.refl s,h⟩

lemma Steps.trans {u' u : State} {ts us : List Token} (h : E.Steps s' s ts t' t)
    (h' : E.Steps t' t us u' u) : E.Steps s' s (ts ++ us) u' u :=
  ⟨h.excerpt.trans h'.excerpt,by simpa using h.whole.trans h'.whole,h'.inside⟩

lemma endOf_forward {ts : List Token} (hne : ts ≠ []) (k stop stop' : Nat) :
    endOf stop (ts.map (Token.forward k)) = endOf stop' ts + k := by
  rw [endOf, endOf, List.getLast?_map]
  cases hlast : ts.getLast? with
  | none => exact absurd (List.getLast?_eq_none_iff.mp hlast) hne
  | some c => rfl

lemma Steps.lastStop {ts : List Token} (h : E.Steps s' s ts t' t) (hne : ts ≠ []) :
    t.lastStop = t'.lastStop + E.shift := by
  rw [h.whole.lastStop, h.excerpt.lastStop, endOf_forward hne]

/-- At the end of the excerpt only the whole's end can come. -/
lemma Inside.cases (h : E.Inside s' s) :
    (∃ c cs, s'.rest = c :: cs ∧
      s.rest = c.forward E.shift :: (cs.map (Token.forward E.shift) ++ E.later)) ∨
    (s'.rest = [] ∧ s.rest = [] ∧ s.endOffset = s'.endOffset + E.shift ∧
      (E.told → E.place s'.endOffset)) := by
  have hrest := h.rest
  cases hr : s'.rest with
  | nil =>
    obtain ⟨c,hc,-⟩ | ⟨hlater,hend⟩ := h.encloses
    · rw [hr] at hc
      cases hc
    · rw [hr, hlater] at hrest
      exact Or.inr ⟨rfl,hrest,hend⟩
  | cons c cs =>
    rw [hr] at hrest
    exact Or.inl ⟨c,cs,rfl,hrest⟩

lemma Inside.headKind_eq (h : E.Inside s' s) : headKind s.rest = headKind s'.rest := by
  obtain ⟨c,cs,hr',hr⟩ | ⟨hr',hr,-⟩ := h.cases
  · rw [hr', hr]
    rfl
  · rw [hr', hr]

lemma Inside.hereSpan_eq (h : E.Inside s' s) : hereSpan s = (hereSpan s').forward E.shift := by
  rw [hereSpan, hereSpan]
  obtain ⟨c,cs,hr',hr⟩ | ⟨hr',hr,hend,-⟩ := h.cases
  · rw [hr', hr]
    rfl
  · rw [hr', hr, hend]
    rfl

lemma Inside.place (h : E.Inside s' s) (ht : E.told) : E.place (hereSpan s').start := by
  rw [hereSpan]
  obtain ⟨c,cs,hr',-⟩ | ⟨hr',-,-,hend⟩ := h.cases
  · rw [hr']
    exact (h.tells ht).places c (by simp [hr'])
  · rw [hr']
    exact hend ht

/-- Unless the excerpt is read to its end, its semicolon is yet to come. -/
lemma Encloses.of_moves {ts us : List Token} (h : E.Encloses s' s) (hm' : Moves s' ts t')
    (hm : Moves s us t) (hne : t'.rest ≠ []) : E.Encloses t' t := by
  obtain ⟨c,hc,hk⟩ | ⟨hlater,hend,hplace⟩ := h
  · refine Or.inl ⟨c,?_,hk⟩
    rwa [hm'.rest, List.getLast?_append_of_ne_nil _ hne] at hc
  · right
    rw [hm'.endOffset, hm.endOffset]
    exact ⟨hlater,hend,hplace⟩

/-- Reading a token. -/
lemma Joins.next (h : E.Joins s' s) {c d : Token} {cs : List Token} (hr : s'.rest = c :: cs)
    (hrun : next s = .ok d t) :
    ∃ t', Parser.next s' = .ok c t' ∧ d = c.forward E.shift ∧ Moves s' [c] t' ∧
      Moves s [c.forward E.shift] t ∧ E.Joins t' t := by
  have hrest := h.rest
  rw [hr, List.map_cons, List.cons_append] at hrest
  rw [Parser.next, hrest] at hrun
  dsimp only at hrun
  split_ifs at hrun with hfuel
  cases hrun
  have hle := h.fuel
  refine ⟨{ s' with rest := cs, lastStop := c.span.stop, fuel := s'.fuel - 1 },?_,rfl,
    ⟨hr,rfl,rfl,id⟩,⟨hrest,rfl,rfl,id⟩,⟨rfl,Nat.sub_le_sub_right hle 1,fun ht => ?_⟩⟩
  · rw [Parser.next, hr]
    exact if_neg (by omega)
  have htells := h.tells ht
  refine ⟨htells.diagnostics,htells.reportedAt,fun e he => htells.places e ?_⟩
  rw [hr]
  exact List.mem_cons_of_mem c he

/-! Putting parsers together. -/

namespace Matches

variable {V : α → β → Prop} {W : γ → δ → Prop} {p' : Parser α} {p : Parser β}
  {f' : α → Parser γ} {f : β → Parser δ}

lemma pure {v' : α} {v : β} (h : E.Inside s' s) (hv : V v' v) :
    E.Matches V (pure v') (pure v) s' s := ⟨v',s',[],rfl,hv,.refl h⟩

lemma bind (hp : E.Matches V p' p s' s)
    (hf : ∀ v' v ts t' t, p' s' = .ok v' t' → V v' v → E.Steps s' s ts t' t →
      E.Matches W (f' v') (f v) t' t) : E.Matches W (p' >>= f') (p >>= f) s' s := by
  rw [Matches, bind_apply]
  rw [Matches] at hp
  cases hps : p s with
  | ok v t =>
    rw [hps] at hp
    obtain ⟨v',t',ts,hrun,hv,hsteps⟩ := hp
    have hnext := hf v' v ts t' t hrun hv hsteps
    rw [Matches] at hnext
    dsimp only
    cases hfs : f v t with
    | ok w u =>
      rw [hfs] at hnext
      obtain ⟨w',u',us,hrun',hw,hsteps'⟩ := hnext
      refine ⟨w',u',ts ++ us,?_,hw,hsteps.trans hsteps'⟩
      rw [bind_apply, hrun]
      exact hrun'
    | reject u =>
      rw [hfs] at hnext
      intro ht
      obtain ⟨u',hrun',hinside⟩ := hnext ht
      refine ⟨u',?_,hinside⟩
      rw [bind_apply, hrun]
      exact hrun'
    | stop fault => trivial
  | reject t =>
    rw [hps] at hp
    intro ht
    obtain ⟨t',hrun,hinside⟩ := hp ht
    refine ⟨t',?_,hinside⟩
    rw [bind_apply, hrun]
  | stop fault => trivial

lemma mono {V' : α → β → Prop} (hp : E.Matches V p' p s' s) (hV : ∀ v' v, V v' v → V' v' v) :
    E.Matches V' p' p s' s := by
  rw [Matches] at hp ⊢
  cases hps : p s with
  | ok v t =>
    rw [hps] at hp
    obtain ⟨v',t',ts,hrun,hv,hsteps⟩ := hp
    exact ⟨v',t',ts,hrun,hV v' v hv,hsteps⟩
  | reject t =>
    rw [hps] at hp
    exact hp
  | stop fault => trivial

lemma map {g' : α → γ} {g : β → δ} (hp : E.Matches (fun v' v => W (g' v') (g v)) p' p s' s) :
    E.Matches W (g' <$> p') (g <$> p) s' s :=
  hp.bind fun _ _ _ _ _ _ hv hsteps => .pure hsteps.inside hv

/-! Looking. -/

lemma peek {f' : Kind → Parser γ} {f : Kind → Parser δ} (h : E.Inside s' s)
    (hf : E.Matches W (f' (headKind s'.rest)) (f (headKind s'.rest)) s' s) :
    E.Matches W (Parser.peek >>= f') (Parser.peek >>= f) s' s := by
  rw [Matches, peek_bind, peek_bind, h.headKind_eq]
  exact hf

lemma here {f' : Span → Parser γ} {f : Span → Parser δ} (h : E.Inside s' s)
    (hf : E.Matches W (f' (hereSpan s')) (f ((hereSpan s').forward E.shift)) s' s) :
    E.Matches W (Parser.here >>= f') (Parser.here >>= f) s' s := by
  rw [← h.hereSpan_eq] at hf
  rw [Matches, here_bind, here_bind]
  exact hf

lemma spanOf (h : E.Inside s' s) (start stop : Nat) :
    E.Matches (fun a b => b = a.forward E.shift) (Parser.spanOf start stop)
      (Parser.spanOf (start + E.shift) (stop + E.shift)) s' s := by
  rw [Parser.spanOf, Parser.spanOf]
  by_cases hle : start ≤ stop
  · rw [if_pos hle, if_pos (by omega)]
    exact .pure h rfl
  · rw [if_neg hle, if_neg (by omega)]
    trivial

/-- A span that ends where the last token of both readers does. -/
lemma spanFrom (h : E.Inside s' s) (hlast : s.lastStop = s'.lastStop + E.shift) (start : Nat) :
    E.Matches (fun a b => b = a.forward E.shift) (Parser.spanFrom start)
      (Parser.spanFrom (start + E.shift)) s' s := by
  have hspan := spanOf h start s'.lastStop
  rw [← hlast] at hspan
  exact hspan

/-! Reading a token. -/

lemma next {kind : Kind} (h : E.Inside s' s) (hh : headKind s'.rest = kind)
    (hk : kind ∉ [.endOfInput,.semicolon]) :
    E.Matches (fun c d => d = c.forward E.shift ∧ c.kind = kind ∧ (E.told → E.place c.span.start))
      Parser.next Parser.next s' s := by
  obtain ⟨c,cs,hr,hc⟩ := exists_cons_of_headKind hh (by rintro rfl; simp at hk)
  rw [Matches]
  cases hrun : Parser.next s with
  | ok d t =>
    obtain ⟨t',hrun',rfl,hm',hm,hjoins⟩ := h.toJoins.next hr hrun
    have hplace : E.told → E.place c.span.start :=
      fun ht => (h.tells ht).places c (by simp [hr])
    refine ⟨c,t',[c],hrun',⟨rfl,hc,hplace⟩,hm',hm,hjoins,?_⟩
    -- the token is no semicolon, so the excerpt is not at its end
    by_cases hne : t'.rest = []
    · obtain ⟨e,he,hsemicolon⟩ | ⟨hlater,hend⟩ := h.encloses
      · obtain rfl : c = e := by simpa [hm'.rest, hne] using he
        rw [← hc, hsemicolon] at hk
        simp at hk
      · refine Or.inr ⟨hlater,?_⟩
        rwa [hm'.endOffset, hm.endOffset]
    · exact h.encloses.of_moves hm' hm hne
  | reject t => exact absurd hrun (Settles.next s t)
  | stop fault => trivial

lemma next_bind {f' : Token → Parser γ} {f : Token → Parser δ} {kind : Kind} (h : E.Inside s' s)
    (hh : headKind s'.rest = kind) (hk : kind ∉ [.endOfInput,.semicolon])
    (hf : ∀ c t' t, c.kind = kind → (E.told → E.place c.span.start) → E.Steps s' s [c] t' t →
      E.Matches W (f' c) (f (c.forward E.shift)) t' t) :
    E.Matches W (Parser.next >>= f') (Parser.next >>= f) s' s := by
  refine (next h hh hk).bind ?_
  rintro c _ ts t' t hrun ⟨rfl,hc,hplace⟩ hsteps
  obtain rfl := hsteps.excerpt.unique (moves_of_next hrun)
  exact hf c t' t hc hplace hsteps

lemma eat? (h : E.Inside s' s) {kind : Kind} (hk : kind ∉ [.endOfInput,.semicolon]) :
    E.Matches (fun o' o => o = o'.map (Token.forward E.shift)) (Parser.eat? kind)
      (Parser.eat? kind) s' s := by
  refine .peek h ?_
  split_ifs with hh
  · refine .map ((next h hh hk).mono ?_)
    rintro c _ ⟨rfl,-⟩
    rfl
  · exact .pure h rfl

/-! Reporting. -/

/-- A report at a place of the excerpt is a new one for both readers or for neither. -/
lemma reportedAt_iff (htells : E.Tells s' s) {q : Nat} (hq : E.place q) :
    s.reportedAt = some q ↔ s'.reportedAt = some q := by
  obtain ⟨hr',hr⟩ | ⟨q',-,hr',hr⟩ := htells.reportedAt
  · rw [hr', hr]
    exact ⟨fun h => absurd h (E.fresh q hq),nofun⟩
  · rw [hr', hr]

lemma tells_reportAt (htells : E.Tells s' s) {q : Nat} (hq : E.place q) (d : Diagnostic)
    (hrun' : Parser.reportAt q d s' = .ok () t') (hrun : Parser.reportAt q d s = .ok () t) :
    E.Tells t' t := by
  have hiff := reportedAt_iff htells hq
  rw [Parser.reportAt] at hrun' hrun
  by_cases hsame : s'.reportedAt = some q
  · rw [if_pos hsame] at hrun'
    rw [if_pos (hiff.mpr hsame)] at hrun
    cases hrun'
    cases hrun
    exact htells
  · rw [if_neg hsame] at hrun'
    rw [if_neg fun h => hsame (hiff.mp h)] at hrun
    cases hrun'
    cases hrun
    exact ⟨by simp [htells.diagnostics],Or.inr ⟨q,hq,rfl,rfl⟩,htells.places⟩

lemma exists_reportAt (q : Nat) (d : Diagnostic) (s : State) :
    ∃ t, Parser.reportAt q d s = .ok () t ∧ Moves s [] t ∧ t.fuel = s.fuel := by
  rw [Parser.reportAt]
  split_ifs
  · exact ⟨s,rfl,.refl s,rfl⟩
  · exact ⟨_,rfl,⟨rfl,rfl,rfl,by simp⟩,rfl⟩

lemma reportAt (h : E.Inside s' s) {q' q : Nat} {d' d : Diagnostic}
    (hq : E.told → q = q' ∧ d = d' ∧ E.place q') :
    E.Matches (fun _ _ => True) (Parser.reportAt q' d') (Parser.reportAt q d) s' s := by
  obtain ⟨t',hrun',hm',hfuel'⟩ := exists_reportAt q' d' s'
  obtain ⟨t,hrun,hm,hfuel⟩ := exists_reportAt q d s
  have hrest' : t'.rest = s'.rest := hm'.rest.symm
  have hrest : t.rest = s.rest := hm.rest.symm
  rw [Matches, hrun]
  refine ⟨(),t',[],hrun',trivial,hm',hm,⟨?_,?_,fun ht => ?_⟩,?_⟩
  · rw [hrest, hrest']
    exact h.rest
  · rw [hfuel, hfuel']
    exact h.fuel
  · obtain ⟨rfl,rfl,hplace⟩ := hq ht
    exact tells_reportAt (h.tells ht) hplace d hrun' hrun
  · have hencloses := h.encloses
    rwa [Encloses, ← hrest', ← hm'.endOffset, ← hm.endOffset] at hencloses

/-- Where both give up after a report, the report matters only if diagnostics are compared. -/
lemma report_reject {report' report : Parser Unit}
    (h : E.told → E.Matches (fun _ _ => True) report' report s' s) :
    E.Matches W (report' >>= fun _ => reject) (report >>= fun _ => reject) s' s := by
  by_cases ht : E.told
  · refine (h ht).bind fun _ _ ts t' t _ _ hsteps => ?_
    exact fun _ => ⟨t',rfl,hsteps.inside⟩
  · rw [Matches, bind_apply]
    cases report s with
    | ok _ t | reject t => exact fun ht' => absurd ht' ht
    | stop fault => trivial

lemma reportHere (h : E.Inside s' s) (kind : Diagnostic.Kind) (detail : Option String) :
    E.Matches (fun _ _ => True) (Parser.reportHere kind detail) (Parser.reportHere kind detail)
      s' s := by
  refine .here h (.reportAt h fun ht => ?_)
  rw [E.unmoved ht]
  exact ⟨rfl,rfl,h.place ht⟩

lemma reportHere_reject (h : E.Inside s' s) (kind : Diagnostic.Kind) (detail : Option String) :
    E.Matches W (Parser.reportHere kind detail >>= fun _ => reject)
      (Parser.reportHere kind detail >>= fun _ => reject) s' s :=
  report_reject fun _ => reportHere h kind detail

lemma reportSpan_reject (h : E.Inside s' s) {kind : Diagnostic.Kind} {span : Span}
    {detail : Option String} (hplace : E.told → E.place span.start) :
    E.Matches W (reportSpan kind span detail >>= fun _ => reject)
      (reportSpan kind (span.forward E.shift) detail >>= fun _ => reject) s' s := by
  refine report_reject fun ht => .reportAt h fun _ => ?_
  rw [E.unmoved ht]
  exact ⟨rfl,rfl,hplace ht⟩

lemma reportUnclosed_reject (h : E.Inside s' s) (kind : Diagnostic.Kind) (note : String)
    (opened : Span) :
    E.Matches W (Parser.reportUnclosed kind note opened >>= fun _ => reject)
      (Parser.reportUnclosed kind note (opened.forward E.shift) >>= fun _ => reject) s' s := by
  refine report_reject fun ht => ?_
  have hplace := h.place ht
  have hiff := reportedAt_iff (h.tells ht) hplace
  rw [Matches, Parser.reportUnclosed, Parser.reportUnclosed, here_eq, here_eq, h.hereSpan_eq,
    E.unmoved ht, Span.forward_zero, Span.forward_zero]
  dsimp only
  by_cases hsame : s'.reportedAt = some (hereSpan s').start
  · rw [if_pos hsame, if_pos (hiff.mpr hsame)]
    exact ⟨(),s',[],rfl,trivial,.refl h⟩
  · rw [if_neg hsame, if_neg fun hr => hsame (hiff.mp hr)]
    have hspan := spanOf h opened.start (hereSpan s').stop
    rw [E.unmoved ht] at hspan
    refine hspan.bind ?_
    rintro span _ ts t' t - rfl hsteps
    exact .reportAt hsteps.inside fun _ => ⟨rfl,rfl,hplace⟩

lemma expect (h : E.Inside s' s) {kind : Kind} (hk : kind ∉ [.endOfInput,.semicolon])
    (missing : Diagnostic.Kind) :
    E.Matches (fun _ _ => True) (Parser.expect kind missing) (Parser.expect kind missing) s' s := by
  refine (eat? h hk).bind ?_
  rintro (_ | c) _ ts t' t - rfl hsteps
  · exact reportHere_reject hsteps.inside _ _
  · exact .pure hsteps.inside trivial

lemma close (h : E.Inside s' s) {kind : Kind} (hk : kind ∉ [.endOfInput,.semicolon])
    (unclosed : Diagnostic.Kind) (opened : Span) :
    E.Matches (fun _ _ => True) (Parser.close kind unclosed opened)
      (Parser.close kind unclosed (opened.forward E.shift)) s' s := by
  refine (eat? h hk).bind ?_
  rintro (_ | c) _ ts t' t - rfl hsteps
  · exact reportUnclosed_reject hsteps.inside _ _ _
  · exact .pure hsteps.inside trivial

end Matches

end Excerpt

end TreeRules.Parser
