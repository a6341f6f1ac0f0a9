import TreeRules.Proofs.Parser.Alongside
import TreeRules.Proofs.Parser.Nested
import Mathlib.Data.List.Forall2

/-! Statements. A source without language blocks falls into statements, each up to and with its
semicolon. However malformed they are, each is read as if it stood alone: none takes tokens of the
next, and what was reported in one is forgotten in the next. -/
namespace TreeRules.Parser

open Grammar
open Token (Kind)

/-- The tokens, cut after each semicolon. -/
def statements : List Token → List (List Token)
  | [] => []
  | t :: ts =>
    if t.kind = .semicolon then [t] :: statements ts
    else match statements ts with
      | [] => [[t]]
      | st :: sts => (t :: st) :: sts

lemma statements_eq_nil {ts : List Token} : statements ts = [] ↔ ts = [] := by
  cases ts with
  | nil => exact ⟨fun _ => rfl,fun _ => rfl⟩
  | cons t ts =>
    refine ⟨fun h => ?_,nofun⟩
    rw [statements] at h
    split_ifs at h
    split at h <;> cases h

/-- The first statement ends with a semicolon, unless it is the last one. -/
lemma statements_cases {ts : List Token} (hne : ts ≠ []) :
    ∃ st later, ts = st ++ later ∧ st ≠ [] ∧ statements ts = st :: statements later ∧
      ((∃ c ∈ st.getLast?, c.kind = .semicolon) ∨ later = []) := by
  induction ts with
  | nil => exact absurd rfl hne
  | cons t ts ih =>
    by_cases hk : t.kind = .semicolon
    · refine ⟨[t],ts,rfl,by simp,?_,Or.inl ⟨t,rfl,hk⟩⟩
      rw [statements, if_pos hk]
    · by_cases hts : ts = []
      · subst hts
        refine ⟨[t],[],rfl,by simp,?_,Or.inr rfl⟩
        simp [statements, hk]
      · obtain ⟨st,later,rfl,hst,hcut,hlast⟩ := ih hts
        refine ⟨t :: st,later,rfl,by simp,?_,hlast.imp_left ?_⟩
        · rw [statements, if_neg hk, hcut]
        · rintro ⟨c,hc,hk⟩
          obtain ⟨d,ds,rfl⟩ := List.exists_cons_of_ne_nil hst
          exact ⟨c,by simpa using hc,hk⟩

/-! Turns of a file. -/

section Turns

variable {E : Excerpt} {s' s t : State} {depth : Nat}

lemma fileTurn_of_nil (depth : Nat) (hr : s.rest = []) : fileTurn depth s = .ok .done s := by
  rw [fileTurn, bind_apply, atEnd, hr]
  rfl

/-- A turn where neither the end nor a language block has come. -/
lemma fileTurn_eq (hne : s.rest ≠ []) (hk : headKind s.rest ≠ .kwLanguage) :
    fileTurn depth s = (if startsItem (headKind s.rest) = true then do
        return Turn.ofOption ((← rule depth).map Entry.loose)
      else do
        skipUnexpected
        return .skip) s := by
  rw [fileTurn, bind_apply, atEnd]
  dsimp only
  rw [if_neg (by simpa using hne), peek_bind]
  generalize headKind s.rest = kind at hk
  cases kind <;> first | rfl | exact absurd rfl hk

lemma Excerpt.Inside.skipUnexpected (h : E.Inside s' s) (hne : s'.rest ≠ [])
    (hrun : skipUnexpected s = .ok () t) :
    ∃ t', Parser.skipUnexpected s' = .ok () t' ∧ E.Reaches s' s t' t := by
  obtain ⟨x,xs,hr⟩ := List.exists_cons_of_ne_nil hne
  have hrest := h.rest
  rw [hr] at hrest
  have htext' : peekText s' = .ok x.text s' := by rw [peekText, hr]
  have htext : peekText s = .ok x.text s := by rw [peekText, hrest]; rfl
  obtain ⟨text,u,hpeek,hrun⟩ := exists_of_bind hrun
  rw [htext] at hpeek
  cases hpeek
  obtain ⟨_,v,hreport,hrun⟩ := exists_of_bind hrun
  obtain ⟨d,w,hnext,hrun⟩ := exists_of_bind hrun
  cases hrun
  have hmatches := Excerpt.Matches.reportHere h .unexpectedToken (some ("`" ++ x.text ++ "`"))
  rw [Excerpt.Matches, hreport] at hmatches
  obtain ⟨_,v',ts,hreport',-,hsteps⟩ := hmatches
  have hv' : v'.rest = x :: xs := ((Still.reportHere _ _).rest_of_ok hreport').trans hr
  obtain ⟨t',hnext',-,hm',hm,hjoins⟩ := hsteps.inside.toJoins.next hv' hnext
  refine ⟨t',?_,⟨_,hsteps.excerpt.trans hm'⟩,⟨_,hsteps.whole.trans hm⟩,hjoins⟩
  rw [Parser.skipUnexpected, bind_apply, htext']
  dsimp only
  rw [bind_apply, hreport']
  dsimp only
  rw [bind_apply, hnext']
  rfl

/-- As long as the statement lasts, a turn of the whole file is one of the statement alone. -/
lemma Excerpt.Inside.fileTurn (h : E.Inside s' s) (htold : E.told) (hne : s'.rest ≠ [])
    (hk : headKind s'.rest ≠ .kwLanguage) {turn : Turn Entry}
    (hrun : fileTurn depth s = .ok turn t) :
    ∃ t', Parser.fileTurn depth s' = .ok turn t' ∧ E.Reaches s' s t' t := by
  have hne' : s.rest ≠ [] := by
    rw [h.rest]
    simp [hne]
  rw [fileTurn_eq hne' (h.headKind_eq ▸ hk), h.headKind_eq] at hrun
  rw [fileTurn_eq hne hk]
  split_ifs at hrun ⊢
  · obtain ⟨o,u,hrule,hrun⟩ := exists_of_bind hrun
    cases hrun
    obtain ⟨o',t',hrule',rfl,hreaches⟩ := h.rule hrule (Or.inr htold)
    refine ⟨t',?_,hreaches⟩
    rw [bind_apply, hrule', E.unmoved htold, show Rule.forward 0 = id from funext Rule.forward_zero,
      Option.map_id, id]
    rfl
  · obtain ⟨_,u,hskip,hrun⟩ := exists_of_bind hrun
    cases hrun
    obtain ⟨t',hskip',hreaches⟩ := h.skipUnexpected hne hskip
    refine ⟨t',?_,hreaches⟩
    rw [bind_apply, hskip']
    rfl

/-- The turns of the whole begin with those of the excerpt alone and go on behind it. -/
def Divides (E : Excerpt) (depth : Nat) (s' s : State) (os : List (Option Entry)) (t : State) :
    Prop :=
  ∃ os₁ os₂ u' u, os = os₁ ++ os₂ ∧ Course (fileTurn depth) s' os₁ u' ∧
    Course (fileTurn depth) u os₂ t ∧ u'.rest = [] ∧ E.Reaches s' s u' u

lemma divides_of_nil {os : List (Option Entry)} (hjoins : E.Joins s' s)
    (h : Course (fileTurn depth) s os t) (hr : s'.rest = []) : Divides E depth s' s os t :=
  ⟨[],os,s',s,rfl,.done (fileTurn_of_nil depth hr),h,hr,⟨[],.refl s'⟩,⟨[],.refl s⟩,hjoins⟩

/-- Turn by turn, until the statement is read. -/
lemma divides_of_course (htold : E.told) {os : List (Option Entry)}
    (h : Course (fileTurn depth) s os t) (hk : ∀ c ∈ s'.rest, c.kind ≠ .kwLanguage)
    (hjoins : E.Joins s' s) (hend : s'.rest ≠ [] → E.Encloses s' s) :
    Divides E depth s' s os t := by
  induction h generalizing s' with
  | @done s t h =>
    refine divides_of_nil hjoins (.done h) ?_
    have hrest := hjoins.rest
    rw [(eq_of_fileTurn_done h).1] at hrest
    simpa using (List.append_eq_nil_iff.mp hrest.symm).1
  | @turn s t u o os h hcourse ih =>
    by_cases hr : s'.rest = []
    · exact divides_of_nil hjoins (.turn h hcourse) hr
    have hinside : E.Inside s' s := ⟨hjoins,hend hr⟩
    have hhead : headKind s'.rest ≠ .kwLanguage := by
      obtain ⟨c,cs,hc⟩ := List.exists_cons_of_ne_nil hr
      rw [hc]
      exact hk c (by simp [hc])
    obtain ⟨t',hturn',hreaches⟩ := hinside.fileTurn htold hr hhead h
    obtain ⟨ts,hm'⟩ := hreaches.excerpt
    obtain ⟨us,hm⟩ := hreaches.whole
    obtain ⟨os₁,os₂,u',v,rfl,hfirst,hrest,hnil,hreaches'⟩ := ih
      (fun c hc => hk c (by simp [hm'.rest, hc])) hreaches.joins
      fun hne => hinside.encloses.of_moves hm' hm hne
    exact ⟨o :: os₁,os₂,u',v,rfl,.turn hturn' hfirst,hrest,hnil,hreaches.trans hreaches'⟩

/-- There are no more turns than tokens. -/
lemma length_le_of_course (hs : Good s) {os : List (Option Entry)}
    (h : Course (fileTurn depth) s os t) : os.length ≤ s.rest.length := by
  induction h with
  | done => exact Nat.zero_le _
  | @turn s t u o os h _ ih =>
    have hturn := Wp.fileTurn depth hs
    rw [Wp, h] at hturn
    obtain ⟨ht,ts,hm,hpost⟩ := hturn
    have hts : ts ≠ [] := by
      cases o with
      | none => exact hpost.1
      | some e => exact hpost.1
    have hlt := hm.length_lt hts
    have hle := ih ht
    rw [List.length_cons]
    omega

end Turns

/-! Statements alone. -/

section Alone

open Token (InOrder)

/-- Tokens that are lined up stand in order. -/
lemma inOrder_of_lined {low high : Nat} {ts : List Token}
    (h : Span.Lined low (ts.map Token.span) high) (hle : low ≤ high) : InOrder low ts high := by
  induction ts generalizing low with
  | nil => exact hle
  | cons t ts ih =>
    obtain ⟨ht,hts⟩ := Span.Lined.cons_iff.mp h
    exact ⟨ht.1,Nat.le_of_lt ht.2.1,ih hts ht.2.2⟩

variable {endOffset : Nat} {config : Config} {s t : State}

/-- What the parser makes of a list of tokens is what its turns come to. -/
lemma parseTokens_of_course {ts : List Token} {os : List (Option Entry)}
    (hgood : Good (State.start ts endOffset config.parseFuel))
    (h : Course (fileTurn config.recursionLimit) (State.start ts endOffset config.parseFuel) os t) :
    ∃ q, parseTokens ts endOffset config = .ok q ∧
      q.file.rules = os.reduceOption.flatMap Entry.rules ∧ q.diagnostics = t.diagnostics := by
  have hlength := length_le_of_course hgood h
  have hrun : loop (fileTurn config.recursionLimit)
      (State.start ts endOffset config.parseFuel) = .ok os.reduceOption t :=
    h.turns_eq (Nat.lt_succ_of_le hlength)
  refine ⟨_,by rw [parseTokens, hrun],?_,rfl⟩
  exact rules_group _ _

/-- The states between statements: the tokens to come are lined up, and the last diagnostic was for
a place before them. -/
structure Between (config : Config) (endOffset : Nat) (s : State) : Prop where
  lined : Span.Lined 0 (s.rest.map Token.span) endOffset
  plain : ∀ c ∈ s.rest, c.isTrivia = false ∧ c.kind ≠ .kwLanguage ∧ c.kind ≠ .endOfInput
  endOffset : s.endOffset = endOffset
  fuel : s.fuel ≤ config.parseFuel
  reported : ∀ q ∈ s.reportedAt, ∀ c ∈ s.rest, q < c.span.start

/-- The first statement that is to come, as an excerpt. -/
def excerptOf (st later : List Token) (endOffset : Nat) (s : State)
    (hfresh : ∀ q, (∃ c ∈ st, q = c.span.start) ∨ (later = [] ∧ q = endOffset) →
      s.reportedAt ≠ some q) : Excerpt where
  shift := 0
  later := later
  told := True
  place q := (∃ c ∈ st, q = c.span.start) ∨ (later = [] ∧ q = endOffset)
  reported := s.reportedAt
  earlier := s.diagnostics
  unmoved _ := rfl
  fresh := hfresh

lemma course_of_nil {depth : Nat} {os : List (Option Entry)} (hr : s.rest = [])
    (h : Course (fileTurn depth) s os t) : os = [] ∧ t = s := by
  cases h with
  | done h => exact ⟨rfl,(eq_of_fileTurn_done h).2⟩
  | @turn _ _ _ o _ h _ =>
    rw [fileTurn_of_nil depth hr] at h
    cases o <;> cases h

namespace Between

variable {st later : List Token} (hs : Between config endOffset s) (hrest : s.rest = st ++ later)
include hs hrest

/-- What was reported before the statement is not reported at a place in it. -/
lemma fresh (hst : st ≠ []) (q : Nat)
    (hq : (∃ c ∈ st, q = c.span.start) ∨ (later = [] ∧ q = endOffset)) :
    s.reportedAt ≠ some q := by
  intro hsome
  have hlt := hs.reported q hsome
  rcases hq with ⟨c,hc,rfl⟩ | ⟨-,rfl⟩
  · exact Nat.lt_irrefl _ (hlt c (by simp [hrest, hc]))
  · obtain ⟨c,cs,rfl⟩ := List.exists_cons_of_ne_nil hst
    have hc : c ∈ s.rest := by simp [hrest]
    have hin := hs.lined.inside c.span (List.mem_map_of_mem hc)
    have := hlt c hc
    omega

lemma good_start_statement : Good (State.start st endOffset config.parseFuel) := by
  have hlined : Span.Lined 0 (st.map Token.span) endOffset :=
    hs.lined.sublist (hrest ▸ (List.sublist_append_left st later).map _)
  refine ⟨(inOrder_of_lined hlined (Nat.zero_le _)).filter _,fun c hc => ?_,nofun⟩
  exact (hs.plain c (by simp [hrest, (List.mem_filter.mp hc).1])).2.2

lemma rest_start : (State.start st endOffset config.parseFuel).rest = st := by
  refine List.filter_eq_self.mpr fun c hc => ?_
  simp [(hs.plain c (by simp [hrest, hc])).1]

/-- Behind a statement that was read alone, the state is again one between statements. -/
lemma next {E : Excerpt} {u' u : State} (htold : E.told) (hlater : E.later = later)
    (hplace : ∀ q, E.place q → (∃ c ∈ st, q = c.span.start) ∨ later = [])
    (hreported : E.reported = s.reportedAt) (hjoins : E.Joins u' u) (hnil : u'.rest = [])
    (hend : u.endOffset = s.endOffset) (hfuel : u.fuel ≤ config.parseFuel) :
    u.rest = later ∧ Between config endOffset u := by
  have hu : u.rest = later := by simpa [hnil, hlater] using hjoins.rest
  have hsub : later.Sublist s.rest := hrest ▸ List.sublist_append_right st later
  refine ⟨hu,hs.lined.sublist (hu ▸ hsub.map _),fun c hc => hs.plain c (hsub.subset (hu ▸ hc)),
    hend.trans hs.endOffset,hfuel,fun q hq c hc => ?_⟩
  rw [hu] at hc
  obtain ⟨-,hsame⟩ | ⟨q',hq',-,hq''⟩ := (hjoins.tells htold).reportedAt
  · exact hs.reported q (hreported ▸ hsame ▸ hq) c (hsub.subset hc)
  · obtain rfl : q' = q := by
      rw [hq''] at hq
      exact Option.some.inj hq
    obtain ⟨d,hd,rfl⟩ | rfl := hplace q' hq'
    · have hdrest : d ∈ s.rest := by simp [hrest, hd]
      have hin := hs.lined.inside d.span (List.mem_map_of_mem hdrest)
      have hapart := hs.lined.apart
      rw [hrest, List.map_append, List.pairwise_append] at hapart
      have := hapart.2.2 d.span (List.mem_map_of_mem hd) c.span (List.mem_map_of_mem hc)
      omega
    · cases hc

end Between

/-- Statement by statement: each is read alone to what the whole reads there. -/
lemma statements_of_course (hs : Between config endOffset s) {os : List (Option Entry)}
    (h : Course (fileTurn config.recursionLimit) s os t) :
    ∃ ps, List.Forall₂ (fun st q => parseTokens st endOffset config = .ok q)
        (statements s.rest) ps ∧
      os.reduceOption.flatMap Entry.rules = ps.flatMap (·.file.rules) ∧
      t.diagnostics = s.diagnostics ++ ps.flatMap (·.diagnostics) := by
  induction hsts : statements s.rest generalizing s os with
  | nil =>
    obtain ⟨rfl,rfl⟩ := course_of_nil (statements_eq_nil.mp hsts) h
    exact ⟨[],.nil,rfl,by simp⟩
  | cons st sts ih =>
    have hr : s.rest ≠ [] := fun hr => by simp [statements_eq_nil.mpr hr] at hsts
    obtain ⟨st',later,hrest,hst,hcut,hlast⟩ := statements_cases hr
    rw [hcut] at hsts
    obtain ⟨rfl,rfl⟩ := List.cons.inj hsts
    have hstart := hs.rest_start hrest
    let E := excerptOf st' later endOffset s (hs.fresh hrest hst)
    have hjoins : E.Joins (State.start st' endOffset config.parseFuel) s := by
      refine ⟨?_,hs.fuel,fun _ => ⟨(List.append_nil _).symm,Or.inl ⟨rfl,rfl⟩,fun c hc => ?_⟩⟩
      · rw [hstart, hrest]
        exact congrArg (· ++ later) (Token.map_forward_zero st').symm
      · exact Or.inl ⟨c,hstart ▸ hc,rfl⟩
    have hencloses : E.Encloses (State.start st' endOffset config.parseFuel) s := by
      refine hlast.imp (fun ⟨c,hc,hk⟩ => ⟨c,hstart.symm ▸ hc,hk⟩) fun hlater => ?_
      exact ⟨hlater,hs.endOffset,fun _ => Or.inr ⟨hlater,rfl⟩⟩
    have hplain : ∀ c ∈ (State.start st' endOffset config.parseFuel).rest,
        c.kind ≠ .kwLanguage := by
      rw [hstart]
      exact fun c hc => (hs.plain c (by simp [hrest, hc])).2.1
    obtain ⟨os₁,os₂,u',u,rfl,hfirst,hcourse,hnil,hreaches⟩ :=
      divides_of_course trivial h hplain hjoins fun _ => hencloses
    obtain ⟨q,hq,hrules,hdiagnostics⟩ :=
      parseTokens_of_course (hs.good_start_statement hrest) hfirst
    obtain ⟨us,hm⟩ := hreaches.whole
    have hfuel : u.fuel ≤ config.parseFuel :=
      Nat.le_trans hreaches.joins.fuel (hfirst.fuel_le (shortens_fileTurn _))
    obtain ⟨hu,hbetween⟩ := hs.next hrest (E := E) trivial rfl
      (fun q hq => hq.imp_right And.left) rfl hreaches.joins hnil hm.endOffset hfuel
    obtain ⟨ps,hps,hrules',hdiagnostics'⟩ := ih hbetween hcourse (by rw [hu])
    refine ⟨q :: ps,.cons hq hps,?_,?_⟩
    · rw [List.reduceOption_append, List.flatMap_append, ← hrules, hrules', List.flatMap_cons]
    · rw [hdiagnostics', (hreaches.joins.tells trivial).diagnostics, List.flatMap_cons,
        hdiagnostics, List.append_assoc]
      rfl

end Alone

/-- Limits apart, a source without language blocks is read statement by statement. Cut its tokens
after each semicolon: the rules and the diagnostics of the source are those of the statements, each
of them read alone, one behind the other. -/
theorem parse_statements (source : String) (config : Config)
    (hlanguage : ∀ t ∈ lex source, t.kind ≠ .kwLanguage)
    (hfuel : parse source config ≠ .error .fuelExhausted)
    (hdeep : parse source config ≠ .error .tooDeep) :
    ∃ p ps, parse source config = .ok p ∧
      List.Forall₂ (fun st q => parseTokens st (byteLength source.toList) config = .ok q)
        (statements (significant source)) ps ∧
      p.file.rules = ps.flatMap (·.file.rules) ∧
      p.diagnostics = ps.flatMap (·.diagnostics) := by
  obtain ⟨p,hp⟩ := exists_parse hfuel hdeep
  obtain ⟨entries,t,hrun,rfl⟩ := exists_reading hp
  obtain ⟨os,hcourse,-,rfl⟩ := exists_course hrun
  have hbetween : Between config (byteLength source.toList)
      (State.start (lex source) (byteLength source.toList) config.parseFuel) := by
    refine ⟨(Lexer.lined_lex source).sublist (List.filter_sublist.map _),fun c hc => ?_,rfl,
      Nat.le_refl _,nofun⟩
    obtain ⟨hmem,htrivia⟩ := List.mem_filter.mp hc
    exact ⟨by simpa using htrivia,hlanguage c hmem,Lexer.kind_lex_ne source c hmem⟩
  obtain ⟨ps,hps,hrules,hdiagnostics⟩ := statements_of_course hbetween hcourse
  refine ⟨_,ps,hp,hps,?_,hdiagnostics⟩
  rw [← hrules]
  exact rules_group _ _

/-- Of three statements one is read, with a bracket too many before it and brackets in one another;
each of the three has diagnostics of its own. -/
theorem parse_three_statements :
    ∃ (p : Parse) (ps : List Parse), parse "A(B -> X; \x7d [[C]] -> D; E, ->" ⟨50,5,4,"M"⟩ = .ok p ∧
      p.diagnostics.length = 4 ∧ p.file.rules.map Rule.span = [⟨12,23⟩] ∧ ps.length = 3 ∧
      p.file.rules = ps.flatMap (·.file.rules) ∧ p.diagnostics = ps.flatMap (·.diagnostics) := by
  have hread : (parse "A(B -> X; \x7d [[C]] -> D; E, ->" ⟨50,5,4,"M"⟩).toOption.map
      (fun p => (p.diagnostics.length,p.file.rules.map Rule.span)) = some (4,[⟨12,23⟩]) := by
    decide +kernel
  have hplain : ∀ t ∈ lex "A(B -> X; \x7d [[C]] -> D; E, ->", t.kind ≠ .kwLanguage := by
    decide +kernel
  have hcut : (statements (significant "A(B -> X; \x7d [[C]] -> D; E, ->")).length = 3 := by
    decide +kernel
  obtain ⟨p,ps,hp,hps,hrules,hdiagnostics⟩ := parse_statements _ _ hplain
    (ne_error_of_map_toOption hread _) (ne_error_of_map_toOption hread _)
  rw [hp] at hread
  simp only [Except.toOption, Option.map_some, Option.some.injEq, Prod.mk.injEq] at hread
  exact ⟨p,ps,hp,hread.1,hread.2,hps.length_eq.symm.trans hcut,hrules,hdiagnostics⟩

end TreeRules.Parser
