import TreeRules.Proofs.Parser.Course
import TreeRules.Proofs.Token.Slices

/-! Where things of a file stand. Rules lie one behind the other in the source, the items and the
result of a rule in the rule, and what stands inside an item or a template in its span, whatever was
reported on the way. -/
namespace TreeRules

namespace Span

/-- Spans between two offsets, one behind the other and none of them empty. -/
structure Lined (low : Nat) (spans : List Span) (high : Nat) : Prop where
  inside : ∀ s ∈ spans, low ≤ s.start ∧ s.start < s.stop ∧ s.stop ≤ high
  apart : spans.Pairwise fun a b => a.stop ≤ b.start

namespace Lined

variable {low high low' high' : Nat} {a : Span} {spans spans' : List Span}

lemma cons_iff : Lined low (a :: spans) high ↔
    (low ≤ a.start ∧ a.start < a.stop ∧ a.stop ≤ high) ∧ Lined a.stop spans high := by
  constructor
  · rintro ⟨hin,hapart⟩
    rw [List.forall_mem_cons] at hin
    rw [List.pairwise_cons] at hapart
    exact ⟨hin.1,⟨fun b hb => ⟨hapart.1 b hb,(hin.2 b hb).2⟩,hapart.2⟩⟩
  · rintro ⟨ha,hin,hapart⟩
    refine ⟨List.forall_mem_cons.mpr ⟨ha,fun b hb => ?_⟩,?_⟩
    · have := hin b hb
      omega
    · exact List.pairwise_cons.mpr ⟨fun b hb => (hin b hb).1,hapart⟩

lemma mono (h : Lined low spans high) (hlow : low' ≤ low) (hhigh : high ≤ high') :
    Lined low' spans high' := by
  refine ⟨fun s hs => ?_,h.apart⟩
  have := h.inside s hs
  omega

lemma sublist (h : Lined low spans high) (hsub : spans'.Sublist spans) :
    Lined low spans' high :=
  ⟨fun s hs => h.inside s (hsub.subset hs),h.apart.sublist hsub⟩

end Lined

end Span

/-- Things inside one another: what stands inside a thing is lined up in its span, and so on
inwards. -/
inductive Span.Nested {α : Type} (span : α → Span) (inner : α → List α) : α → Prop
  | intro {a : α} (hrow : Span.Lined (span a).start ((inner a).map span) (span a).stop)
      (hinner : ∀ b ∈ inner a, Span.Nested span inner b) : Span.Nested span inner a

/-- The templates directly inside. -/
def Template.inner : Template → List Template
  | subtree _ _ _ parts => parts
  | hole _ _ | null _ => []

/-- In the span of a rule stand its items and its result, and in theirs what they are made of. -/
structure Rule.Nested (r : Rule) : Prop where
  row : Span.Lined r.span.start (r.pattern.map Item.span ++ [r.result.span]) r.span.stop
  pattern : ∀ i ∈ r.pattern, Span.Nested Item.span Item.inner i
  result : Span.Nested Template.span Template.inner r.result

/-! Tokens. -/

namespace Lexer

open Token (InOrder)

variable {low high : Nat} {t : Token} {ts : List Token}

lemma nonempty_pieces (skip offset : Nat) (chars : List Char) :
    ∀ t ∈ pieces skip offset chars, t.span.start < t.span.stop := by
  refine forall_pieces (fun c cs offset => ?_) skip offset chars
  obtain ⟨n,hn⟩ := Nat.exists_eq_succ_of_ne_zero (Nat.ne_of_gt (scan_length_pos c cs))
  have hpos := c.utf8Size_pos
  simp only [tokenAt, hn, List.take_succ_cons, byteLength_cons]
  omega

lemma nonempty_join (h : InOrder low ts high) (hts : ∀ t ∈ ts, t.span.start < t.span.stop) :
    ∀ t ∈ ts.foldr joinGarbage [], t.span.start < t.span.stop := by
  induction ts generalizing low with
  | nil => simp
  | cons t ts ih =>
    rw [List.forall_mem_cons] at hts
    have hjoined := inOrder_join h.2.2
    have hrest := ih h.2.2 hts.2
    rw [List.foldr_cons]
    generalize ts.foldr joinGarbage [] = us at hjoined hrest
    fun_cases joinGarbage t us with
    | case1 => simpa using hts.1
    | case2 u us hk =>
      rw [List.forall_mem_cons] at hrest ⊢
      refine ⟨?_,hrest.2⟩
      have := hjoined.1
      have := hts.1
      have := hrest.1
      dsimp only
      omega
    | case3 u us hk => exact List.forall_mem_cons.mpr ⟨hts.1,hrest⟩

lemma lined_of_inOrder (h : InOrder low ts high) (hts : ∀ t ∈ ts, t.span.start < t.span.stop) :
    Span.Lined low (ts.map Token.span) high := by
  induction ts generalizing low with
  | nil => exact ⟨by simp,.nil⟩
  | cons t ts ih =>
    rw [List.forall_mem_cons] at hts
    exact Span.Lined.cons_iff.mpr ⟨⟨h.1,hts.1,h.2.2.le⟩,ih h.2.2 hts.2⟩

/-- The tokens of a source are lined up from its start to its end. -/
theorem lined_lex (source : String) :
    Span.Lined 0 ((lex source).map Token.span) (byteLength source.toList) := by
  have hpieces := inOrder_pieces 0 0 source.toList
  simp only [List.take_zero, byteLength_nil, Nat.zero_add, Nat.add_zero] at hpieces
  exact lined_of_inOrder (inOrder_lex source) (nonempty_join hpieces (nonempty_pieces 0 0 _))

end Lexer

namespace Grammar

open TreeRules.Parser (Amid)
open TreeRules.Span (Lined Nested)

variable {α : Type} {low high : Nat} {ts us : List Token}

lemma stop_cover_cons (o : Token) (hne : ts ≠ []) : (cover (o :: ts)).stop = (cover ts).stop := by
  rw [cover, cover, List.getLast?_cons_of_ne_nil hne]

/-- Tokens with others behind them: their cover lies between the bounds, the others behind it. -/
lemma lined_append (hne : ts ≠ []) (h : Lined low ((ts ++ us).map Token.span) high) :
    (low ≤ (cover ts).start ∧ (cover ts).start < (cover ts).stop ∧ (cover ts).stop ≤ high) ∧
      Lined (cover ts).stop (us.map Token.span) high := by
  induction ts generalizing low with
  | nil => exact absurd rfl hne
  | cons o ts ih =>
    obtain ⟨ho,hrest⟩ := Lined.cons_iff.mp h
    by_cases hts : ts = []
    · subst hts
      exact ⟨ho,hrest⟩
    · obtain ⟨hcover,hus⟩ := ih hts hrest
      rw [stop_cover_cons o hts]
      refine ⟨⟨ho.1,?_,hcover.2.2⟩,hus⟩
      change o.span.start < _
      omega

/-- Tokens lie in their cover. -/
lemma lined_cover (h : Lined low (ts.map Token.span) high) :
    Lined (cover ts).start (ts.map Token.span) (cover ts).stop := by
  have hstop : ∀ low, Lined low (ts.map Token.span) high →
      Lined low (ts.map Token.span) (cover ts).stop := by
    clear h
    induction ts with
    | nil => exact fun low _ => ⟨by simp,.nil⟩
    | cons o ts ih =>
      intro low h
      obtain ⟨ho,hrest⟩ := Lined.cons_iff.mp h
      by_cases hts : ts = []
      · subst hts
        exact Lined.cons_iff.mpr ⟨⟨ho.1,ho.2.1,Nat.le_refl _⟩,⟨by simp,.nil⟩⟩
      · have hall : Lined o.span.stop ((ts ++ []).map Token.span) high := by
          rwa [List.append_nil]
        have hcover := (lined_append hts hall).1
        rw [stop_cover_cons o hts]
        exact Lined.cons_iff.mpr ⟨⟨ho.1,ho.2.1,by omega⟩,ih _ hrest⟩
  cases ts with
  | nil => exact ⟨by simp,.nil⟩
  | cons o ts =>
    obtain ⟨ho,hrest⟩ := Lined.cons_iff.mp (hstop low h)
    exact Lined.cons_iff.mpr ⟨⟨Nat.le_refl _,ho.2⟩,hrest⟩

/-- Things amid tokens that are lined up are lined up. -/
lemma lined_of_amid {spans : List Span} (h : Amid Spans ts spans)
    (hts : Lined low (ts.map Token.span) high) : Lined low spans high := by
  induction h generalizing low with
  | nil => exact ⟨by simp,.nil⟩
  | @cons before ts us s spans hs _ ih =>
    obtain ⟨hne,rfl⟩ := hs
    have hlined : Lined low ((ts ++ us).map Token.span) high :=
      hts.sublist ((List.sublist_append_right _ _).map _)
    obtain ⟨hcover,hus⟩ := lined_append hne hlined
    exact Lined.cons_iff.mpr ⟨hcover,ih hus⟩

/-- A thing is nested if what stands inside it stands amid its tokens and is nested. -/
lemma nested_of_amid {span : α → Span} {inner : α → List α} {R : List Token → α → Prop} {a : α}
    (hspan : span a = cover ts) (hamid : Amid R ts (inner a))
    (hR : ∀ us b, R us b → Spans us (span b))
    (hnested : ∀ us b, R us b → Lined low (us.map Token.span) high → Nested span inner b)
    (hts : Lined low (ts.map Token.span) high) : Nested span inner a := by
  refine .intro ?_ fun b hb => ?_
  · rw [hspan]
    exact lined_of_amid (hamid.map hR) (lined_cover hts)
  · obtain ⟨us,hus,hb⟩ := hamid.exists_of_mem hb
    exact hnested us b hb (hts.sublist (hus.sublist.map _))

/-! What stands inside a thing stands amid its tokens. -/

section Amid

variable {R : List Token → α → Prop} {as : List α}

lemma amid_of_separatedOf (h : SeparatedOf R ts as) : Amid R ts as := by
  obtain ⟨ha,has⟩ := h
  refine (Amid.single ha).append ?_
  induction has with
  | nil => exact .nil []
  | cons hb _ ih =>
    obtain ⟨-,hb⟩ := hb
    exact ((Amid.single hb).behind [_]).append ih

lemma amid_of_listOf (h : ListOf R ts as) : Amid R ts as := by
  cases h with
  | empty => exact .nil _
  | some _ has _ => exact ((amid_of_separatedOf has).before [_]).behind [_]

lemma amid_of_childrenOf (h : ChildrenOf R ts as) : Amid R ts as := by
  cases h with
  | none => exact .nil []
  | some has => exact amid_of_listOf has

end Amid

lemma amid_of_formOf {R : List Token → Item → Prop} {make : Item.Tag → Item}
    (h : FormOf R ts make) (tag : Item.Tag) : Amid R ts (make tag).inner := by
  cases h with
  | fixed _ _ hi => exact ((amid_of_childrenOf hi).behind _).behind [_]
  | anyOf _ hi | allOf _ hi => exact (amid_of_listOf hi).behind [_]
  | typedHole | untypedHole | symbolRange | rest => exact .nil _

lemma amid_of_templateForm {R : List Token → Template → Prop} {make : Span → Template}
    (h : TemplateForm R ts make) (span : Span) : Amid R ts (make span).inner := by
  cases h with
  | subtree _ _ hp => exact ((amid_of_childrenOf hp).behind _).behind [_]
  | null | hole => exact .nil _

/-! Items, templates and rules. -/

lemma nested_of_looseItem {i : Item} (h : LooseItem ts i) :
    Lined low (ts.map Token.span) high → Nested Item.span Item.inner i := by
  have hspans := spans_of_looseItem h
  induction h with
  | @intro R hR ts i hi ih =>
    intro hts
    have hRspans : ∀ us j, R us j → Spans us j.span :=
      fun us j hj => spans_of_looseItem (hR us j hj)
    cases hi with
    | bare hi =>
      refine nested_of_amid hspans.2 ?_ hRspans (fun us j hj => ih us j hj (hRspans us j hj)) hts
      cases hi with
      | plain hm => exact amid_of_formOf hm _
      | negated _ hm => exact (amid_of_formOf hm _).behind [_]
    | @moded o c us i mode _ hi =>
      -- the brackets widen the span of the item in them
      have hi' := hRspans us i hi
      have hwide : Lined (cover (o :: (us ++ [c]))).start ((us ++ [c]).map Token.span)
          (cover (o :: (us ++ [c]))).stop := (lined_cover hts).sublist (by simp)
      have hcover := (lined_append hi'.1 hwide).1
      obtain ⟨hrow,hinner⟩ := ih us i hi hi' (hts.sublist (by simp))
      rw [hi'.2] at hrow
      refine .intro ?_ (by simpa using hinner)
      simpa [Item.span] using hrow.mono hcover.1 hcover.2.2

lemma nested_of_templateOf {t : Template} (h : TemplateOf ts t) :
    Lined low (ts.map Token.span) high → Nested Template.span Template.inner t := by
  have hspans := spans_of_templateOf h
  induction h with
  | @intro R hR ts t ht ih =>
    intro hts
    have hRspans : ∀ us j, R us j → Spans us j.span :=
      fun us j hj => spans_of_templateOf (hR us j hj)
    obtain ⟨hm⟩ := ht
    exact nested_of_amid hspans.2 (amid_of_templateForm hm _) hRspans
      (fun us j hj => ih us j hj (hRspans us j hj)) hts

lemma nested_of_looseRule {r : Rule} (h : LooseRule ts r)
    (hts : Lined low (ts.map Token.span) high) : r.Nested := by
  obtain @⟨_,c,_,_,@⟨us,vs,arrow,_,_,hp,_,hr⟩,_⟩ := h
  have hpattern := amid_of_separatedOf hp
  have hresult := spans_of_templateOf hr
  have hfront : (us ++ arrow :: vs).Sublist (us ++ arrow :: vs ++ [c]) :=
    List.sublist_append_left _ _
  refine ⟨?_,fun i hi => ?_,?_⟩
  · refine lined_of_amid ?_ (lined_cover hts)
    refine Amid.before (Amid.append (hpattern.map fun _ _ => spans_of_looseItem) ?_) _
    exact (Amid.single hresult).behind [_]
  · obtain ⟨ws,hws,hi⟩ := hpattern.exists_of_mem hi
    have hsub := (hws.sublist.trans (List.sublist_append_left us _)).trans hfront
    exact nested_of_looseItem hi (hts.sublist (hsub.map _))
  · have hsub := (List.sublist_cons_self arrow vs).trans (List.sublist_append_right us _)
    exact nested_of_templateOf hr (hts.sublist ((hsub.trans hfront).map _))

end Grammar

namespace Parser

open Grammar

/-- Limits apart, the rules of a parsed source lie one behind the other in it, none of them empty;
in each lie its items and then its result, and inwards from there everything in what it is part of,
again one behind the other and not empty. -/
theorem nested_of_parse (source : String) (config : Config)
    (hfuel : parse source config ≠ .error .fuelExhausted)
    (hdeep : parse source config ≠ .error .tooDeep) :
    ∃ p, parse source config = .ok p ∧
      Span.Lined 0 (p.file.rules.map Rule.span) (byteLength source.toList) ∧
      ∀ r ∈ p.file.rules, r.Nested := by
  obtain ⟨p,hp⟩ := exists_parse hfuel hdeep
  have hamid := amid_of_parse hp
  have htokens : Span.Lined 0 ((significant source).map Token.span) (byteLength source.toList) :=
    (Lexer.lined_lex source).sublist (List.filter_sublist.map _)
  refine ⟨p,hp,?_,fun r hr => ?_⟩
  · exact lined_of_amid (hamid.map fun _ _ h => spans_of_looseRule h.cases.1) htokens
  · obtain ⟨ts,hts,hread⟩ := hamid.exists_of_mem hr
    exact nested_of_looseRule hread.cases.1 (htokens.sublist (hts.sublist.map _))

/-- Two rules that cannot be read, then one with brackets in one another, which is reported: it
stands from 14 to 38, and everything in it where it should. -/
theorem nested_behind_failures :
    ∃ p, parse "A -> ; B, ->; \x7b [!A(#1,B)] \x7d -> C(#1);" ⟨50,5,4,"M"⟩ = .ok p ∧
      p.diagnostics.length = 3 ∧ p.file.rules.map Rule.span = [⟨14,38⟩] ∧
      ∀ r ∈ p.file.rules, r.Nested := by
  have hread : (parse "A -> ; B, ->; \x7b [!A(#1,B)] \x7d -> C(#1);" ⟨50,5,4,"M"⟩).toOption.map
      (fun p => (p.diagnostics.length,p.file.rules.map Rule.span)) = some (3,[⟨14,38⟩]) := by
    decide +kernel
  obtain ⟨p,hp,-,hnested⟩ := nested_of_parse _ _ (ne_error_of_map_toOption hread _)
    (ne_error_of_map_toOption hread _)
  rw [hp] at hread
  simp only [Except.toOption, Option.map_some, Option.some.injEq, Prod.mk.injEq] at hread
  exact ⟨p,hp,hread.1,hread.2,hnested⟩

end Parser

end TreeRules
