import TreeRules.Proofs.Parser.Budget
import TreeRules.Proofs.Parser.Lenient
import Mathlib.Data.List.ReduceOption

/-! The course of reading: the turns that a loop takes, one by one, and what a turn of a file or of
a block can be. The rules of a file stand in its order amid the tokens of the source. -/
namespace TreeRules.Parser

open Grammar Token
open Token (Kind)

variable {α β : Type} {s t u : State} {depth : Nat}

/-! Turns. -/

/-- The turns of a loop from one state to another. Each but the last may yield something. -/
inductive Course (step : Parser (Turn α)) : State → List (Option α) → State → Prop
  | done {s t : State} (h : step s = .ok .done t) : Course step s [] t
  | turn {s t u : State} {o : Option α} {os : List (Option α)} (h : step s = .ok (.ofOption o) t)
      (hrest : Course step t os u) : Course step s (o :: os) u

/-- A loop that comes to its end took turns that led there. -/
lemma exists_course {step : Parser (Turn α)} {budget : Nat} {as : List α}
    (h : turns step budget s = .ok as t) :
    ∃ os, Course step s os t ∧ os.length < budget ∧ os.reduceOption = as := by
  induction budget generalizing s as with
  | zero => cases h
  | succ budget ih =>
    obtain ⟨turn,u,hstep,hturn⟩ := exists_of_bind h
    cases turn with
    | done =>
      cases hturn
      exact ⟨[],.done hstep,Nat.succ_pos _,rfl⟩
    | skip =>
      obtain ⟨os,hcourse,hlt,rfl⟩ := ih hturn
      exact ⟨none :: os,.turn hstep hcourse,Nat.succ_lt_succ hlt,List.reduceOption_cons_of_none os⟩
    | item a =>
      obtain ⟨bs,hrun,rfl⟩ := exists_of_map hturn
      obtain ⟨os,hcourse,hlt,rfl⟩ := ih hrun
      exact ⟨some a :: os,.turn hstep hcourse,Nat.succ_lt_succ hlt,
        List.reduceOption_cons_of_some a os⟩

/-- A loop with enough turns comes to where the turns lead. -/
lemma Course.turns_eq {step : Parser (Turn α)} {os : List (Option α)} (h : Course step s os t)
    {budget : Nat} (hb : os.length < budget) :
    turns step budget s = .ok os.reduceOption t := by
  induction h generalizing budget with
  | done h =>
    obtain ⟨n,rfl⟩ := Nat.exists_eq_succ_of_ne_zero (Nat.ne_of_gt hb)
    rw [turns, bind_apply, h]
    rfl
  | @turn s t u o os h _ ih =>
    obtain ⟨n,rfl⟩ := Nat.exists_eq_succ_of_ne_zero (Nat.ne_of_gt (Nat.zero_lt_of_lt hb))
    have hrest := ih (Nat.lt_of_succ_lt_succ hb)
    rw [turns, bind_apply, h]
    cases o with
    | none =>
      rw [List.reduceOption_cons_of_none]
      exact hrest
    | some a =>
      rw [List.reduceOption_cons_of_some]
      change ((a :: ·) <$> turns step n) t = _
      rw [map_apply, hrest]

/-! Whatever is read, tokens are only taken off. -/

/-- Reading leaves some of the last tokens, and pays for the others. -/
def Shortens (p : Parser α) : Prop :=
  ∀ s, match p s with
    | .ok _ t | .reject t => (∃ ts, s.rest = ts ++ t.rest) ∧ t.fuel ≤ s.fuel
    | .stop _ => True

lemma Shortens.of_ok {p : Parser α} {a : α} (hp : Shortens p) (h : p s = .ok a t) :
    (∃ ts, s.rest = ts ++ t.rest) ∧ t.fuel ≤ s.fuel := by
  have hs := hp s
  rw [h] at hs
  exact hs

lemma respected_shortens : Respected fun p _ => Shortens p where
  still := by
    intro α p h s
    have hkeeps := h.keeps s
    cases hps : p s with
    | ok a t | reject t =>
      rw [hps] at hkeeps
      exact ⟨⟨[],hkeeps.1.symm⟩,Nat.le_of_eq hkeeps.2⟩
    | stop fault => trivial
  next := by
    intro s
    rw [next]
    cases hr : s.rest with
    | nil => trivial
    | cons t ts =>
      dsimp only
      split_ifs
      · trivial
      · exact ⟨⟨[t],rfl⟩,Nat.sub_le _ _⟩
  bind := by
    intro α β p _ f _ h hf s
    have hp := h s
    rw [bind_apply]
    cases hps : p s with
    | ok a t =>
      rw [hps] at hp
      obtain ⟨⟨ts,hts⟩,hfuel⟩ := hp
      have hrun := hf a t
      dsimp only
      cases hfs : f a t with
      | ok b u | reject u =>
        rw [hfs] at hrun
        obtain ⟨⟨us,hus⟩,hfuel'⟩ := hrun
        exact ⟨⟨ts ++ us,by rw [hts, hus, List.append_assoc]⟩,Nat.le_trans hfuel' hfuel⟩
      | stop fault => trivial
    | reject t =>
      rw [hps] at hp
      exact hp
    | stop fault => trivial
  attempt := by
    intro α p _ h s
    have hp := h s
    rw [attempt]
    cases hps : p s with
    | ok a t | reject t | stop fault =>
      rw [hps] at hp
      exact hp
  onRest h := fun s => h s.rest s

lemma Course.fuel_le {step : Parser (Turn α)} (hstep : Shortens step) {os : List (Option α)}
    (h : Course step s os t) : t.fuel ≤ s.fuel := by
  induction h with
  | done h => exact (hstep.of_ok h).2
  | turn h _ ih => exact Nat.le_trans ih (hstep.of_ok h).2

lemma shortens_blockTurn (depth : Nat) (opened : Span) : Shortens (blockTurn depth opened) :=
  @Respected.blockTurn _ respected_shortens depth 0 (respected_shortens.still (.stop _))
    (respected_shortens.still (.stop _)) opened

lemma shortens_block (depth : Nat) : Shortens (block depth) :=
  @Respected.block _ respected_shortens depth 0 (respected_shortens.still (.stop _))
    (respected_shortens.still (.stop _))

lemma shortens_fileTurn (depth : Nat) : Shortens (fileTurn depth) :=
  @Respected.fileTurn _ respected_shortens depth 0 (respected_shortens.still (.stop _))
    (respected_shortens.still (.stop _))

/-! Skipping. -/

/-- What is skipped of a statement closes no braces but those that were open. -/
lemma openBraces_statement (opened : Nat) (ts : List Token) :
    0 ≤ opened + openBraces (ts.take (statementLength opened ts)) := by
  fun_induction statementLength opened ts with
  | case1 opened => simp
  | case2 opened t ts hk => simp [hk, Kind.braceWeight]
  | case3 t ts opened hk ih =>
    simp only [List.take_succ_cons, openBraces_cons, hk, Kind.braceWeight]
    omega
  | case4 t ts hk => simp
  | case5 t ts opened hk ih =>
    simp only [List.take_succ_cons, openBraces_cons, hk, Kind.braceWeight]
    omega
  | case6 t ts opened _ hopen hclose hclose' ih =>
    have hweight : t.kind.braceWeight = 0 := by
      cases hk : t.kind with
      | braceOpen => exact absurd hk hopen
      | braceClose =>
        cases opened with
        | zero => exact (hclose hk rfl).elim
        | succ n => exact (hclose' n hk rfl).elim
      | _ => rfl
    simp only [List.take_succ_cons, openBraces_cons, hweight]
    omega

lemma next_cases {c : Token} (h : next s = .ok c t) :
    ∃ rest, s.rest = c :: rest ∧ t = s.past [c] rest := by
  rw [next] at h
  cases hr : s.rest with
  | nil =>
    rw [hr] at h
    cases h
  | cons d ds =>
    rw [hr] at h
    dsimp only at h
    split_ifs at h
    cases h
    exact ⟨ds,rfl,rfl⟩

lemma moves_of_next {c : Token} (h : next s = .ok c t) : Moves s [c] t := by
  obtain ⟨rest,hr,rfl⟩ := next_cases h
  exact ⟨hr,rfl,rfl,id⟩

lemma moves_of_advance {n : Nat} (h : advance n s = .ok () t) :
    ∃ ts, Moves s ts t ∧ ts.length = n := by
  induction n generalizing s with
  | zero =>
    cases h
    exact ⟨[],.refl _,rfl⟩
  | succ n ih =>
    obtain ⟨c,u,hnext,h⟩ := exists_of_bind h
    obtain ⟨ts,hm,rfl⟩ := ih h
    exact ⟨c :: ts,(moves_of_next hnext).trans hm,rfl⟩

lemma moves_of_skipStatement (h : skipStatement s = .ok () t) :
    ∃ ts, Moves s ts t ∧ 0 ≤ openBraces ts := by
  obtain ⟨ts,hm,hlength⟩ := moves_of_advance h
  have hopen := openBraces_statement 0 s.rest
  rw [← hlength, hm.rest, List.take_left] at hopen
  exact ⟨ts,hm,by simpa using hopen⟩

/-! What a turn can be. -/

/-- A rule that is read ends with its semicolon, and has as many braces closed as opened. One that
is not read is skipped, and no brace is closed that it did not open. -/
lemma rule_cases {o : Option Rule} (h : rule depth s = .ok o t) :
    (∃ ts c r, o = some r ∧ Moves s (ts ++ [c]) t ∧ Inner ts ∧ openBraces ts = 0 ∧
      c.kind = .semicolon ∧ LooseRule (ts ++ [c]) r) ∨
    (∃ ts, o = none ∧ Moves s ts t ∧ 0 ≤ openBraces ts) := by
  rw [rule, here_bind] at h
  obtain ⟨body,u,hbody,h⟩ := exists_of_bind h
  have htaken := taken_ruleBody depth s
  rw [attempt] at hbody
  cases hrun : ruleBody depth s with
  | ok v w =>
    rw [hrun] at hbody htaken
    cases hbody
    obtain ⟨ts,c,hm,hi,hb,hc,hv⟩ := htaken
    obtain ⟨span,x,hspan,h⟩ := exists_of_bind h
    cases h
    rw [spanFrom, spanOf] at hspan
    split_ifs at hspan
    · cases hspan
      rw [hm.cover_eq (by simp)]
      exact Or.inl ⟨ts,c,_,rfl,hm,hi,hb,hc,.intro hv hc⟩
    · cases hspan
  | reject w =>
    rw [hrun] at hbody htaken
    cases hbody
    obtain ⟨ts,hm,-,hb⟩ := htaken
    obtain ⟨_,x,hskip,h⟩ := exists_of_bind h
    cases h
    obtain ⟨us,hm',hb'⟩ := moves_of_skipStatement hskip
    refine Or.inr ⟨ts ++ us,rfl,hm.trans hm',?_⟩
    rw [openBraces_append]
    omega
  | stop fault =>
    rw [hrun] at hbody
    cases hbody

lemma Still.rest_of_ok {p : Parser α} {a : α} (hp : Still p) (h : p s = .ok a t) :
    t.rest = s.rest := by
  have hkeeps := hp.keeps s
  rw [h] at hkeeps
  exact hkeeps.1

lemma Still.reportHere (kind : Diagnostic.Kind) (detail : Option String) :
    Still (Parser.reportHere kind detail) := by
  constructor
  · intro k s
    rw [Parser.reportHere, here_bind, here_bind, hereSpan_more]
    exact (Still.reportAt _ _).blind k s
  · intro s
    rw [Parser.reportHere, here_bind]
    exact (Still.reportAt _ _).keeps s

lemma rest_of_skipUnexpected (h : skipUnexpected s = .ok () t) : ∃ x, s.rest = x :: t.rest := by
  obtain ⟨text,u,htext,h⟩ := exists_of_bind h
  obtain ⟨_,v,hreport,h⟩ := exists_of_bind h
  obtain ⟨x,w,hnext,h⟩ := exists_of_bind h
  cases h
  refine ⟨x,?_⟩
  rw [← Still.peekText.rest_of_ok htext, ← (Still.reportHere _ _).rest_of_ok hreport]
  exact (moves_of_next hnext).rest

/-- A turn of a block ends it, or reads a rule, or skips a token that begins none. -/
lemma blockTurn_cases {opened : Span} {turn : Turn Rule}
    (h : blockTurn depth opened s = .ok turn t) :
    (turn = .done ∧ s.rest = []) ∨
    (turn = .done ∧ ∃ c, s.rest = c :: t.rest ∧ c.kind = .braceClose) ∨
    (∃ o, turn = .ofOption o ∧ startsItem (headKind s.rest) = true ∧ rule depth s = .ok o t) ∨
    (turn = .skip ∧ ∃ x, s.rest = x :: t.rest ∧ x.kind ≠ .braceClose ∧
      startsItem x.kind = false) := by
  obtain ⟨e,_,hend,h⟩ := exists_of_bind h
  cases hend
  split_ifs at h with hempty
  · obtain ⟨_,u,-,h⟩ := exists_of_bind h
    cases h
    exact Or.inl ⟨rfl,by simpa using hempty⟩
  · obtain ⟨kind,u,hkind,h⟩ := exists_of_bind h
    rw [peek_eq] at hkind
    injection hkind with hkind hstate
    subst hstate
    split at h
    next =>
      obtain ⟨c,u,hnext,h⟩ := exists_of_bind h
      cases h
      have hrest := (moves_of_next hnext).rest
      rw [hrest] at hkind
      exact Or.inr (Or.inl ⟨rfl,c,hrest,hkind⟩)
    next hk =>
      subst hkind
      split_ifs at h with hitem
      · obtain ⟨o,hrule,rfl⟩ := exists_of_map h
        exact Or.inr (Or.inr (Or.inl ⟨o,rfl,hitem,hrule⟩))
      · obtain ⟨_,u,hskip,h⟩ := exists_of_bind h
        cases h
        obtain ⟨x,hrest⟩ := rest_of_skipUnexpected hskip
        rw [hrest] at hk hitem
        exact Or.inr (Or.inr (Or.inr ⟨rfl,x,hrest,hk,Bool.eq_false_iff.mpr hitem⟩))

/-- A turn of a file ends it, or reads a block or a rule, or skips a token that begins neither. -/
lemma fileTurn_cases {turn : Turn Entry} (h : fileTurn depth s = .ok turn t) :
    (turn = .done ∧ s.rest = [] ∧ t = s) ∨
    (∃ o, turn = .ofOption (o.map Entry.block) ∧ headKind s.rest = .kwLanguage ∧
      block depth s = .ok o t) ∨
    (∃ o, turn = .ofOption (o.map Entry.loose) ∧ startsItem (headKind s.rest) = true ∧
      rule depth s = .ok o t) ∨
    (turn = .skip ∧ ∃ x, s.rest = x :: t.rest ∧ x.kind ≠ .kwLanguage ∧
      startsItem x.kind = false) := by
  obtain ⟨e,_,hend,h⟩ := exists_of_bind h
  cases hend
  split_ifs at h with hempty
  · cases h
    exact Or.inl ⟨rfl,by simpa using hempty,rfl⟩
  · obtain ⟨kind,u,hkind,h⟩ := exists_of_bind h
    rw [peek_eq] at hkind
    injection hkind with hkind hstate
    subst hstate
    split at h
    next =>
      obtain ⟨o,u,hblock,h⟩ := exists_of_bind h
      cases h
      exact Or.inr (Or.inl ⟨o,rfl,hkind,hblock⟩)
    next hk =>
      subst hkind
      split_ifs at h with hitem
      · obtain ⟨o,u,hrule,h⟩ := exists_of_bind h
        cases h
        exact Or.inr (Or.inr (Or.inl ⟨o,rfl,hitem,hrule⟩))
      · obtain ⟨_,u,hskip,h⟩ := exists_of_bind h
        cases h
        obtain ⟨x,hrest⟩ := rest_of_skipUnexpected hskip
        rw [hrest] at hk hitem
        exact Or.inr (Or.inr (Or.inr ⟨rfl,x,hrest,hk,Bool.eq_false_iff.mpr hitem⟩))

/-- Reading a file ends where the tokens do. -/
lemma eq_of_fileTurn_done (h : fileTurn depth s = .ok .done t) : s.rest = [] ∧ t = s := by
  obtain ⟨-,hdone⟩ | ⟨o,hturn,-⟩ | ⟨o,hturn,-⟩ | ⟨hturn,-⟩ := fileTurn_cases h
  · exact hdone
  · exact absurd hturn.symm (ofOption_ne_done _)
  · exact absurd hturn.symm (ofOption_ne_done _)
  · cases hturn

lemma eat?_cases {kind : Kind} {o : Option Token} (h : eat? kind s = .ok o t) :
    (∃ c rest, o = some c ∧ c.kind = kind ∧ s.rest = c :: rest ∧ t = s.past [c] rest) ∨
      (o = none ∧ t = s ∧ headKind s.rest ≠ kind) := by
  rw [eat?, peek_bind] at h
  split_ifs at h with hh
  · obtain ⟨c,hnext,rfl⟩ := exists_of_map h
    obtain ⟨rest,hrest,rfl⟩ := next_cases hnext
    rw [hrest] at hh
    exact Or.inl ⟨c,rest,rfl,hh,hrest,rfl⟩
  · cases h
    exact Or.inr ⟨rfl,rfl,hh⟩

lemma blockName_cases {o : Option Token} (h : blockName s = .ok o t) :
    (∃ c rest, o = some c ∧ c.kind = .id ∧ s.rest = c :: rest ∧ t = s.past [c] rest) ∨
      (o = none ∧ headKind s.rest ≠ .id) := by
  obtain ⟨name,u,hname,hrun⟩ := exists_of_bind h
  obtain ⟨c,rest,rfl,hc⟩ | ⟨rfl,rfl,hk⟩ := eat?_cases hname
  · cases hrun
    exact Or.inl ⟨c,rest,rfl,hc⟩
  · obtain ⟨_,v,-,hrun⟩ := exists_of_bind hrun
    cases hrun
    exact Or.inr ⟨rfl,hk⟩

/-- A block that has its name and its brace takes turns of its own; another counts for nothing. -/
lemma block_cases {o : Option Block} (h : block depth s = .ok o t) :
    (∃ kw name opened rest os, s.rest = kw :: name :: opened :: rest ∧ os.length ≤ rest.length ∧
      Course (blockTurn depth opened.span) (s.past [kw,name,opened] rest) os t ∧
      o = some ⟨name.text,some name.span,os.reduceOption⟩) ∨
    (o = none ∧ ∀ kw name opened rest, s.rest = kw :: name :: opened :: rest →
      name.kind = .id → opened.kind ≠ .braceOpen) := by
  obtain ⟨kw,u,hnext,h⟩ := exists_of_bind h
  obtain ⟨name,v,hname,h⟩ := exists_of_bind h
  obtain ⟨opened,w,hopened,h⟩ := exists_of_bind h
  obtain ⟨rest,hrest,rfl⟩ := next_cases hnext
  obtain ⟨c,rest',rfl,-,hv,rfl⟩ | ⟨rfl,hk⟩ := blockName_cases hname
  · obtain ⟨o,rest'',rfl,-,hw,rfl⟩ | ⟨rfl,-,hk⟩ := eat?_cases hopened
    · obtain ⟨rules,x,hloop,h⟩ := exists_of_bind h
      cases h
      obtain ⟨os,hcourse,hlt,rfl⟩ := exists_course hloop
      rw [past_past, past_past] at hcourse
      rw [rest_past] at hv hw
      exact Or.inl ⟨kw,c,o,rest'',os,by rw [hrest, hv, hw],Nat.le_of_lt_succ hlt,hcourse,rfl⟩
    · obtain ⟨_,x,-,h⟩ := exists_of_bind h
      cases h
      refine Or.inr ⟨rfl,fun kw' name' o' later hs _ ho => ?_⟩
      rw [rest_past] at hv hk
      rw [hrest, hv] at hs
      injection hs with _ hs
      injection hs with _ hs
      rw [hs] at hk
      exact hk ho
  · have hnone : o = none := by
      cases opened with
      | none =>
        obtain ⟨_,x,-,h⟩ := exists_of_bind h
        cases h
        rfl
      | some opened =>
        obtain ⟨rules,x,-,h⟩ := exists_of_bind h
        cases h
        rfl
    refine Or.inr ⟨hnone,fun kw' name' o' later hs hn _ => ?_⟩
    rw [rest_past] at hk
    rw [hrest] at hs
    injection hs with _ hs
    rw [hs] at hk
    exact hk hn

/-! Rules amid tokens. -/

/-- Things one behind the other, with other tokens before, between and behind them. -/
inductive Amid (R : List Token → α → Prop) : List Token → List α → Prop
  | nil (ts : List Token) : Amid R ts []
  | cons (before : List Token) {ts us : List Token} {a : α} {as : List α} (ha : R ts a)
      (has : Amid R us as) : Amid R (before ++ (ts ++ us)) (a :: as)

namespace Amid

variable {R : List Token → α → Prop} {ts us : List Token} {as bs : List α}

lemma behind (before : List Token) (h : Amid R ts as) : Amid R (before ++ ts) as := by
  cases h with
  | nil => exact .nil _
  | cons before' ha has =>
    rw [← List.append_assoc]
    exact .cons _ ha has

lemma append (h : Amid R ts as) (h' : Amid R us bs) : Amid R (ts ++ us) (as ++ bs) := by
  induction h with
  | nil ts => exact h'.behind ts
  | cons before ha _ ih =>
    rw [List.append_assoc, List.append_assoc]
    exact .cons before ha ih

lemma before (h : Amid R ts as) (after : List Token) : Amid R (ts ++ after) as := by
  have happend := h.append (.nil after)
  rwa [List.append_nil] at happend

lemma single {a : α} (h : R ts a) : Amid R ts [a] := by
  have hcons : Amid R ([] ++ (ts ++ [])) [a] := .cons [] h (.nil [])
  simpa using hcons

lemma map {S : List Token → β → Prop} {f : α → β} (h : Amid R ts as)
    (hRS : ∀ ts a, R ts a → S ts (f a)) : Amid S ts (as.map f) := by
  induction h with
  | nil ts => exact .nil ts
  | cons before ha _ ih => exact .cons before (hRS _ _ ha) ih

/-- Each of the things has tokens of its own, one next to the other. -/
lemma exists_of_mem (h : Amid R ts as) {a : α} (ha : a ∈ as) : ∃ us, us <:+: ts ∧ R us a := by
  induction h with
  | nil => cases ha
  | @cons before ts us b bs hb _ ih =>
    rcases List.mem_cons.mp ha with rfl | ha
    · exact ⟨ts,⟨before,us,by simp⟩,hb⟩
    · obtain ⟨vs,⟨front,back,rfl⟩,hvs⟩ := ih ha
      exact ⟨vs,⟨before ++ ts ++ front,back,by simp⟩,hvs⟩

end Amid

/-- The rule was read from the tokens, where no more than `fuel` tokens might be read. -/
def WasRead (depth fuel : Nat) (ts : List Token) (r : Rule) : Prop :=
  ∃ s t, rule depth s = .ok (some r) t ∧ Moves s ts t ∧ s.fuel ≤ fuel ∧
    startsItem (headKind s.rest) = true

/-- What stands between two states is determined by them. -/
lemma Moves.unique {ts us : List Token} (h : Moves s ts t) (h' : Moves s us t) : ts = us :=
  List.append_cancel_right (h.rest.symm.trans h'.rest)

/-- A rule that was read is one of the grammar, with modes in one another. No token inside it is a
semicolon or garbage. -/
lemma WasRead.cases {fuel : Nat} {ts : List Token} {r : Rule} (h : WasRead depth fuel ts r) :
    LooseRule ts r ∧ ∃ us c, ts = us ++ [c] ∧ Inner us ∧ c.kind = .semicolon := by
  obtain ⟨s,t,hrun,hm,-⟩ := h
  obtain ⟨us,c,_,hr,hm',hinner,-,hc,hrule⟩ | ⟨_,hr,-⟩ := rule_cases hrun
  · cases hr
    rw [hm.unique hm']
    exact ⟨hrule,us,c,rfl,hinner,hc⟩
  · cases hr

lemma amid_rule {fuel : Nat} {o : Option Rule} (h : rule depth s = .ok o t)
    (hfuel : s.fuel ≤ fuel) (hitem : startsItem (headKind s.rest) = true) :
    ∃ ts, s.rest = ts ++ t.rest ∧ Amid (WasRead depth fuel) ts o.toList := by
  obtain ⟨ts,c,r,rfl,hm,-⟩ | ⟨ts,rfl,hm,-⟩ := rule_cases h
  · exact ⟨_,hm.rest,.single ⟨s,t,h,hm,hfuel,hitem⟩⟩
  · exact ⟨ts,hm.rest,.nil ts⟩

/-- If the rules of each turn stand amid the tokens it takes, so do those of all turns. -/
lemma Course.amid (rules : α → List Rule) {fuel : Nat} {step : Parser (Turn α)}
    {R : List Token → Rule → Prop} (hshort : Shortens step)
    (hstep : ∀ s o t, step s = .ok (.ofOption o) t → s.fuel ≤ fuel →
      ∃ ts, s.rest = ts ++ t.rest ∧ Amid R ts (o.elim [] rules))
    {os : List (Option α)} (h : Course step s os t) (hfuel : s.fuel ≤ fuel) :
    ∃ ts, s.rest = ts ++ t.rest ∧ Amid R ts (os.reduceOption.flatMap rules) := by
  induction h with
  | done h =>
    obtain ⟨ts,hrest⟩ := (hshort.of_ok h).1
    exact ⟨ts,hrest,.nil ts⟩
  | @turn s t u o os h _ ih =>
    obtain ⟨ts,hts,hamid⟩ := hstep s o t h hfuel
    obtain ⟨us,hus,hamid'⟩ := ih (Nat.le_trans (hshort.of_ok h).2 hfuel)
    refine ⟨ts ++ us,by rw [hts, hus, List.append_assoc],?_⟩
    cases o with
    | none =>
      rw [List.reduceOption_cons_of_none]
      exact hamid'.behind ts
    | some a =>
      rw [List.reduceOption_cons_of_some, List.flatMap_cons]
      exact hamid.append hamid'

lemma ofOption_inj {o o' : Option α} (h : Turn.ofOption o = Turn.ofOption o') : o = o' := by
  cases o <;> cases o' <;> cases h <;> rfl

lemma amid_block {fuel : Nat} {opened : Span} {os : List (Option Rule)}
    (h : Course (blockTurn depth opened) s os t) (hfuel : s.fuel ≤ fuel) :
    ∃ ts, s.rest = ts ++ t.rest ∧ Amid (WasRead depth fuel) ts os.reduceOption := by
  have hamid := h.amid (fun r => [r]) (R := WasRead depth fuel) (shortens_blockTurn depth opened) ?_
    hfuel
  · simpa using hamid
  · intro s o t hturn hfuel
    obtain ⟨hdone,-⟩ | ⟨hdone,-⟩ | ⟨o',hturn,hitem,hrule⟩ | ⟨hskip,x,hrest,-⟩ :=
      blockTurn_cases hturn
    · exact absurd hdone (ofOption_ne_done o)
    · exact absurd hdone (ofOption_ne_done o)
    · obtain rfl := ofOption_inj hturn
      have hamid := amid_rule hrule hfuel hitem
      cases o <;> exact hamid
    · obtain rfl : o = none := ofOption_inj hskip
      exact ⟨[x],hrest,.nil _⟩

/-- The rules of what stands at the top of a file. -/
def Entry.rules : Entry → List Rule
  | .loose r => [r]
  | .block b => b.rules

lemma rules_addLoose (language : String) (r : Rule) (blocks : List Block) :
    (addLoose language r blocks).flatMap Block.rules = r :: blocks.flatMap Block.rules := by
  cases blocks with
  | nil => rfl
  | cons b bs =>
    rw [addLoose]
    split_ifs <;> rfl

/-- Grouping keeps the rules and their order. -/
lemma rules_group (language : String) (entries : List Entry) :
    (group language entries).flatMap Block.rules = entries.flatMap Entry.rules := by
  induction entries with
  | nil => rfl
  | cons e entries ih =>
    cases e with
    | loose r =>
      rw [group, rules_addLoose, ih, List.flatMap_cons]
      rfl
    | block b =>
      rw [group, List.flatMap_cons, ih, List.flatMap_cons]
      rfl

lemma amid_fileTurn {fuel : Nat} {o : Option Entry} (h : fileTurn depth s = .ok (.ofOption o) t)
    (hfuel : s.fuel ≤ fuel) :
    ∃ ts, s.rest = ts ++ t.rest ∧ Amid (WasRead depth fuel) ts (o.elim [] Entry.rules) := by
  obtain ⟨hdone,-⟩ | ⟨o',hturn,-,hblock⟩ | ⟨o',hturn,hitem,hrule⟩ | ⟨hskip,x,hrest,-⟩ :=
    fileTurn_cases h
  · exact absurd hdone (ofOption_ne_done o)
  · obtain rfl := ofOption_inj hturn
    obtain ⟨kw,name,opened,rest,os,hrest,-,hcourse,rfl⟩ | ⟨rfl,-⟩ := block_cases hblock
    · obtain ⟨ts,hts,hamid⟩ := amid_block hcourse (Nat.le_trans (Nat.sub_le _ _) hfuel)
      rw [rest_past] at hts
      exact ⟨[kw,name,opened] ++ ts,by rw [hrest, hts]; rfl,hamid.behind _⟩
    · obtain ⟨ts,hts⟩ := ((shortens_block depth).of_ok hblock).1
      exact ⟨ts,hts,.nil ts⟩
  · obtain rfl := ofOption_inj hturn
    have hamid := amid_rule hrule hfuel hitem
    cases o' <;> exact hamid
  · obtain rfl : o = none := ofOption_inj hskip
    exact ⟨[x],hrest,.nil _⟩

/-- Limits apart, every source is parsed. -/
lemma exists_parse {source : String} {config : Config}
    (hfuel : parse source config ≠ .error .fuelExhausted)
    (hdeep : parse source config ≠ .error .tooDeep) : ∃ p, parse source config = .ok p := by
  rcases reading_cases source config with ⟨entries,t,hrun⟩ | hrun | hrun
  · exact ⟨_,parse_of_reading hrun⟩
  · exact absurd (parse_of_stop hrun) hfuel
  · exact absurd (parse_of_stop hrun) hdeep

/-- The rules of a file were read one behind the other from the tokens of its source. -/
theorem amid_of_parse {source : String} {config : Config} {p : Parse}
    (h : parse source config = .ok p) :
    Amid (WasRead config.recursionLimit config.parseFuel) (significant source) p.file.rules := by
  obtain ⟨entries,t,hrun,rfl⟩ := exists_reading h
  obtain ⟨os,hcourse,-,rfl⟩ := exists_course hrun
  obtain ⟨ts,hts,hamid⟩ := hcourse.amid Entry.rules (shortens_fileTurn _)
    (fun s o t hturn hfuel => amid_fileTurn hturn hfuel) (Nat.le_refl _)
  have hrest : significant source = ts ++ t.rest := hts
  rw [RuleFile.rules, rules_group, hrest]
  exact hamid.before _

end TreeRules.Parser
