import TreeRules.Proofs.Parser.Statements
import TreeRules.Proofs.Token.Local

/-! The text of a rule. The span of a rule cuts its text out of the source, and that text alone
reads as this one rule, whatever stands around it in the source and whatever was reported there. -/
namespace TreeRules

/-- Tokens that lie side by side cover their text. -/
lemma Token.Tile.cover_eq {offset : Nat} {chars : List Char} {ts : List Token}
    (h : Tile offset chars ts) (hne : ts ≠ []) :
    Grammar.cover ts = ⟨offset,offset + byteLength chars⟩ := by
  induction ts generalizing offset chars with
  | nil => exact absurd rfl hne
  | cons t ts ih =>
    obtain ⟨after,rfl,hspan,hrest⟩ := h
    by_cases hts : ts = []
    · subst hts
      cases hrest
      simp [Grammar.cover, hspan]
    · have hstop : (Grammar.cover (t :: ts)).stop =
          offset + byteLength t.text.toList + byteLength after := by
        rw [Grammar.stop_cover_cons t hts, ih hrest hts]
      have hstart : (Grammar.cover (t :: ts)).start = offset := congrArg Span.start hspan
      rw [byteLength_append, ← Nat.add_assoc, ← hstop, ← hstart]

namespace Parser

open Grammar
open Token (Kind)

/-! Tokens of a rule among all tokens. -/

/-- Some of the tokens that are kept, next to one another: they stand in the whole with what is left
out between them, and begin and end there as they do alone. -/
lemma exists_of_filter {α : Type} {p : α → Bool} {us as : List α} (h : us <:+: as.filter p)
    (hne : us ≠ []) : ∃ front ts back, as = front ++ (ts ++ back) ∧ ts.filter p = us ∧
      ts.head? = us.head? ∧ ts.getLast? = us.getLast? := by
  obtain ⟨xs,ys,hxs⟩ := h
  obtain ⟨u,us,rfl⟩ := List.exists_cons_of_ne_nil hne
  rw [List.append_assoc, eq_comm, List.filter_eq_append_iff] at hxs
  obtain ⟨front,rest,rfl,-,hrest⟩ := hxs
  rw [List.cons_append, List.filter_eq_cons_iff] at hrest
  obtain ⟨skipped,rest,rfl,-,hu,hrest⟩ := hrest
  obtain rfl | ⟨us,v,rfl⟩ := List.eq_nil_or_concat' us
  · exact ⟨front ++ skipped,[u],rest,by simp,by simp [hu],rfl,rfl⟩
  · rw [List.append_assoc, List.filter_eq_append_iff] at hrest
    obtain ⟨inner,rest,rfl,hinner,hrest⟩ := hrest
    rw [List.singleton_append, List.filter_eq_cons_iff] at hrest
    obtain ⟨skipped',back,rfl,hskipped,hv,-⟩ := hrest
    refine ⟨front ++ skipped,u :: (inner ++ (skipped' ++ [v])),back,by simp,?_,rfl,?_⟩
    · have hnone : skipped'.filter p = [] := List.filter_eq_nil_iff.mpr hskipped
      simp [hu, hinner, hnone, hv]
    · simp [List.getLast?_cons]

lemma filter_map_forward (k : Nat) (ts : List Token) :
    (ts.map (Token.forward k)).filter (!·.isTrivia) =
      (ts.filter (!·.isTrivia)).map (Token.forward k) := by
  rw [List.filter_map]
  rfl

variable {depth fuel : Nat} {r : Rule} {source : String} {config : Config}

/-- Blanks and comments among the tokens of a rule are no garbage either. -/
lemma kind_ne_garbage {us ts : List Token} (h : WasRead depth fuel us r)
    (hts : ts.filter (!·.isTrivia) = us) : ∀ t ∈ ts, t.kind ≠ .garbage := by
  obtain ⟨-,ms,c,rfl,hinner,hc⟩ := h.cases
  intro t ht hk
  have hmem : t ∈ ms ++ [c] := by
    rw [← hts]
    exact List.mem_filter.mpr ⟨ht,by simp [Token.isTrivia, hk, Kind.isTrivia]⟩
  rcases List.mem_append.mp hmem with hmem | hmem
  · have hin := hinner t hmem
    rw [hk] at hin
    cases hin
  · obtain rfl := List.mem_singleton.mp hmem
    rw [hk] at hc
    cases hc

/-! Reading the rule alone. -/

/-- The tokens of a rule, cut out of a source; the diagnostics do not matter. -/
def cutOut (k : Nat) (later : List Token) : Excerpt where
  shift := k
  later := later
  told := False
  place _ := False
  reported := none
  earlier := []
  unmoved := False.elim
  fresh _ := False.elim

/-- The tokens of a rule alone, moved to the front, are the rule. -/
lemma course_of_wasRead {us : List Token} {k : Nat} (s' : State) (h : WasRead depth fuel us r)
    (hrest : us = s'.rest.map (Token.forward k)) (hfuel : fuel ≤ s'.fuel) :
    ∃ r' t', Course (fileTurn depth) s' [some (.loose r')] t' ∧ r'.forward k = r := by
  obtain ⟨-,ms,c,hus,-,hc⟩ := h.cases
  obtain ⟨s,t,hrun,hm,hle,hitem⟩ := h
  have hinside : (cutOut k t.rest).Inside s' s := by
    refine ⟨⟨?_,Nat.le_trans hle hfuel,False.elim⟩,Or.inl ?_⟩
    · rw [hm.rest, hrest]
      rfl
    · have hlast : (s'.rest.map (Token.forward k)).getLast? = some c := by
        rw [← hrest, hus, List.getLast?_concat]
      rw [List.getLast?_map, Option.map_eq_some_iff] at hlast
      obtain ⟨d,hd,rfl⟩ := hlast
      exact ⟨d,hd,hc⟩
  obtain ⟨o,t',hrun',ho,hreaches⟩ := hinside.rule hrun (Or.inl rfl)
  obtain ⟨r',rfl,hr'⟩ := Option.map_eq_some_iff.mp ho.symm
  -- all tokens are read
  have hnil : t'.rest = [] := by
    have hjoined : t.rest = t'.rest.map (Token.forward k) ++ t.rest := hreaches.joins.rest
    simpa using hjoined
  rw [hinside.headKind_eq] at hitem
  have hne : s'.rest ≠ [] := by
    intro hr
    rw [hr] at hitem
    cases hitem
  have hlanguage : headKind s'.rest ≠ .kwLanguage := by
    intro hk
    rw [hk] at hitem
    cases hitem
  have hturn : fileTurn depth s' = .ok (.ofOption (some (Entry.loose r'))) t' := by
    rw [fileTurn_eq hne hlanguage, if_pos hitem, bind_apply, hrun']
    rfl
  exact ⟨r',t',.turn hturn (.done (fileTurn_of_nil depth hnil)),hr'⟩

/-- Limits apart, the span of every rule of a file is that of tokens of the source next to one
another. What the source has at this span, read alone, is this one rule, moved to the front; what
is reported elsewhere does not matter. -/
theorem parse_slice (source : String) (config : Config)
    (hfuel : parse source config ≠ .error .fuelExhausted)
    (hdeep : parse source config ≠ .error .tooDeep) :
    ∃ p, parse source config = .ok p ∧ ∀ r ∈ p.file.rules, ∃ front ts back text q r',
      lex source = front ++ (ts ++ back) ∧ ts ≠ [] ∧ cover ts = r.span ∧
      Text.slice? r.span.start r.span.stop source.toList = some text ∧
      parse (String.ofList text) config = .ok q ∧ q.file.rules = [r'] ∧
      r'.forward r.span.start = r := by
  obtain ⟨p,hp⟩ := exists_parse hfuel hdeep
  refine ⟨p,hp,fun r hr => ?_⟩
  obtain ⟨us,hus,hread⟩ := (amid_of_parse hp).exists_of_mem hr
  obtain ⟨hne,hcover⟩ := spans_of_looseRule hread.cases.1
  obtain ⟨front,ts,back,hlex,hts,hhead,hlast⟩ := exists_of_filter hus hne
  have htsne : ts ≠ [] := by
    rintro rfl
    exact hne hts.symm
  have hspan : cover ts = r.span := by rw [hcover, cover, cover, hhead, hlast]
  obtain ⟨before,text,after,hsource,hmoved,htile⟩ :=
    Lexer.lex_local hlex htsne (kind_ne_garbage hread hts)
  rw [htile.cover_eq htsne] at hspan
  have hrest : us = (significant (String.ofList text)).map (Token.forward (byteLength before)) := by
    rw [← hts, hmoved, filter_map_forward]
    rfl
  obtain ⟨r',t,hcourse,hr'⟩ := course_of_wasRead (State.start (lex (String.ofList text))
    (byteLength (String.ofList text).toList) config.parseFuel) hread hrest (Nat.le_refl _)
  obtain ⟨q,hq,hrules,-⟩ := parseTokens_of_course (good_start _ _) hcourse
  refine ⟨front,ts,back,text,q,r',hlex,htsne,(htile.cover_eq htsne).trans hspan,?_,hq,hrules,?_⟩
  · rw [hsource, ← hspan]
    exact Text.slice?_append before text after
  · rw [← hspan]
    exact hr'

/-- A rule between garbage and failures, with brackets in one another and a comment inside it, read
again from its text. -/
theorem parse_slice_between_failures :
    ∃ (p q : Parse) (r r' : Rule),
      parse "§ A( ; [[B]], // é;\n C(#1...) -> D; § \x7d ->" ⟨80,6,4,"M"⟩ = .ok p ∧
      p.diagnostics.length = 6 ∧ p.file.rules = [r] ∧ r.span = ⟨8,37⟩ ∧
      parse "[[B]], // é;\n C(#1...) -> D;" ⟨80,6,4,"M"⟩ = .ok q ∧ q.file.rules = [r'] ∧
      r'.forward 8 = r := by
  have hread : (parse "§ A( ; [[B]], // é;\n C(#1...) -> D; § \x7d ->" ⟨80,6,4,"M"⟩).toOption.map
      (fun p => (p.diagnostics.length,p.file.rules.map Rule.span)) = some (6,[⟨8,37⟩]) := by
    decide +kernel
  have hslice : Text.slice? 8 37 "§ A( ; [[B]], // é;\n C(#1...) -> D; § \x7d ->".toList =
      some "[[B]], // é;\n C(#1...) -> D;".toList := by
    decide +kernel
  obtain ⟨p,hp,hrules⟩ := parse_slice _ _ (ne_error_of_map_toOption hread _)
    (ne_error_of_map_toOption hread _)
  rw [hp] at hread
  simp only [Except.toOption, Option.map_some, Option.some.injEq, Prod.mk.injEq,
    List.map_eq_singleton_iff] at hread
  obtain ⟨hlength,r,hr,hspan⟩ := hread
  obtain ⟨-,-,-,text,q,r',-,-,-,htext,hq,hq',hr'⟩ := hrules r (by simp [hr])
  rw [hspan] at htext hr'
  rw [hslice, Option.some.injEq] at htext
  rw [← htext, String.ofList_toList] at hq
  exact ⟨p,q,r,r',hp,hlength,hr,hspan,hq,hq',hr'⟩

end Parser

end TreeRules
