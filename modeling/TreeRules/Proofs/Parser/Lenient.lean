import TreeRules.Proofs.Parser.Taken
import TreeRules.Proofs.Parser.Template
import TreeRules.Parser.File

/-! What is read to a value, be it with diagnostics or without. Besides what the grammar allows, an
item in the brackets of a mode may have brackets of its own, which are reported; the outer mode then
counts. Nothing else that is read to a value is ever reported. -/
namespace TreeRules.Grammar

/-- The productions of `item`, with modes in one another. -/
inductive LooseWith (R : List Token → Item → Prop) : List Token → Item → Prop
  | bare {ts : List Token} {i : Item} (hi : BareOf R ts i) : LooseWith R ts i
  | moded {o c : Token} {ts : List Token} {i : Item} {mode : Mode}
      (hb : BracketsOf o.kind c.kind mode) (hi : R ts i) :
      LooseWith R (o :: (ts ++ [c]))
        (i.withTag { i.tag with mode := mode, span := cover (o :: (ts ++ [c])) })

/-- Items, with modes in one another. -/
inductive LooseItem : List Token → Item → Prop
  | intro {R : List Token → Item → Prop} (hR : ∀ ts i, R ts i → LooseItem ts i) {ts : List Token}
      {i : Item} (hi : LooseWith R ts i) : LooseItem ts i

/-- Rules up to the semicolon. -/
inductive LooseBody : List Token → List Item × Template → Prop
  | intro {ts us : List Token} {arrow : Token} {pattern : List Item} {result : Template}
      (hp : SeparatedOf LooseItem ts pattern) (ha : arrow.kind = .arrow)
      (hr : TemplateOf us result) : LooseBody (ts ++ arrow :: us) (pattern,result)

/-- Rules, with modes in one another. -/
inductive LooseRule : List Token → Rule → Prop
  | intro {ts : List Token} {semicolon : Token} {pattern : List Item} {result : Template}
      (hb : LooseBody ts (pattern,result)) (hs : semicolon.kind = .semicolon) :
      LooseRule (ts ++ [semicolon]) ⟨pattern,result,cover (ts ++ [semicolon])⟩

/-! Where things stand. -/

open TreeRules.Parser (tagged_of_formOf formOf_ne_nil templateForm_ne_nil)

/-- The span reaches from the first token to the last. -/
def Spans (ts : List Token) (s : Span) : Prop := ts ≠ [] ∧ s = cover ts

variable {ts : List Token}

lemma spans_of_looseItem {i : Item} (h : LooseItem ts i) : Spans ts i.span := by
  obtain ⟨-,hi⟩ := h
  cases hi with
  | bare hi =>
    cases hi with
    | plain hm => exact ⟨formOf_ne_nil hm,by rw [Item.span, (tagged_of_formOf hm).tag]⟩
    | negated _ hm => exact ⟨by simp,by rw [Item.span, (tagged_of_formOf hm).tag]⟩
  | moded => exact ⟨by simp,by simp [Item.span]⟩

lemma spans_of_templateOf {t : Template} (h : TemplateOf ts t) : Spans ts t.span := by
  obtain ⟨-,⟨hm⟩⟩ := h
  refine ⟨templateForm_ne_nil hm,?_⟩
  cases hm <;> rfl

lemma spans_of_looseRule {r : Rule} (h : LooseRule ts r) : Spans ts r.span := by
  obtain ⟨-,-⟩ := h
  exact ⟨by simp,rfl⟩

end TreeRules.Grammar

namespace TreeRules.Parser

open Grammar
open Token (Kind Inner openBraces)

variable {α β : Type} {s t : State}

/-! Leaves. -/

namespace Takes

lemma hole (hh : headKind s.rest = .hole) : Takes 0 Parser.hole s HoleOf := by
  refine .next_plain hh (by decide) fun t u hk _ _ => ?_
  cases hdigits : Hole.ofDigits? (t.text.toList.drop 1) with
  | some h => exact .pure ⟨hk,hdigits⟩
  | none => exact report_reject (.reportAt _ _)

lemma literal {kind : Kind} (hh : headKind s.rest = kind)
    (hk : kind ∉ [.endOfInput,.semicolon,.garbage,.braceOpen,.braceClose]) :
    Takes 0 Parser.literal s fun ts p =>
      ts = [p.1] ∧ p.1.kind = kind ∧ unescapeChars (literalBody p.1) = .ok p.2 := by
  refine .next_plain hh hk fun t u ht _ _ => ?_
  rw [show (t.text.toList.drop 1).dropLast = literalBody t from rfl]
  cases hbody : unescapeChars (literalBody t) with
  | ok chars => exact .pure ⟨rfl,ht,hbody⟩
  | error escape => exact report_reject (.reportAt _ _)

lemma char : Takes 0 Parser.char s CharOf := by
  refine .peek ?_
  split_ifs with hh
  · refine (Takes.literal hh (by decide)).bind ?_
    rintro ts ⟨t,chars⟩ u - ⟨rfl,hk,hc⟩
    match chars, hc with
    | [c], hc => exact .pure ⟨hk,hc⟩
    | [], _ => exact report_reject (.reportAt _ _)
    | _ :: _ :: _, _ => exact report_reject (.reportAt _ _)
  · exact report_reject (.reportHere _ _)

lemma dots : Takes 0 Parser.dots s DotsOf := by
  refine (Takes.eat? (by decide)).bind ?_
  rintro ts (_ | t) u - ht
  · exact .pure (by simpa [ht.1] using DotsOf.none)
  · exact .pure (by simpa [ht.1] using DotsOf.some ht.2)

lemma dataBlock (hh : headKind s.rest = .angleOpen) :
    Takes 0 Parser.dataBlock s fun ts d => DataOf ts (some d) := by
  refine .next_plain hh (by decide) fun o u ho _ _ => .peek ?_
  have hclose : ∀ ts d v, DatumOf ts d →
      Takes 0 (do Parser.close .angleClose .unclosedAngle o.span; Pure.pure d) v
        fun us d => DataOf (o :: (ts ++ us)) (some d) := by
    intro ts d v hd
    refine (Takes.close (by decide) _ _).bind ?_
    rintro us - w - ⟨c,rfl,hc⟩
    exact .pure (by simpa using DataOf.some ho hd hc)
  dsimp only
  split
  next hk =>
    have hhole : Takes 0 (Datum.hole <$> Parser.hole) u DatumOf :=
      .map ((Takes.hole hk).mono fun _ _ hh => .hole hh)
    exact hhole.bind fun ts d v _ hd => hclose ts d v hd
  next hk =>
    refine (Takes.literal hk (by decide)).bind ?_
    rintro ts ⟨l,chars⟩ v - ⟨rfl,hl,hc⟩
    exact hclose [l] _ v (.literal hl hc)
  next => exact report_reject (.reportHere _ _)

lemma dataBlock? : Takes 0 Parser.dataBlock? s DataOf := by
  refine .peek ?_
  split_ifs with hh
  · exact .map (.dataBlock hh)
  · exact .pure .none

end Takes

/-! Lists. -/

section Lists

variable {R : List Token → α → Prop} {p : Parser α}

lemma Takes.turns {step : Parser (Turn α)}
    (hstep : ∀ s, Takes 0 step s fun ts turn => match turn with
      | .done => ts = []
      | .skip => False
      | .item a => R ts a) (budget : Nat) (s : State) :
    Takes 0 (Parser.turns step budget) s (Many R) := by
  induction budget generalizing s with
  | zero => trivial
  | succ budget ih =>
    refine (hstep s).bind ?_
    rintro ts (_ | _ | a) t - hturn
    · exact .pure (by simpa [show ts = [] from hturn] using Many.nil)
    · exact hturn.elim
    · exact .map ((ih t).mono fun us as has => .cons hturn has)

variable (hp : ∀ s, Takes 0 p s R)
include hp

lemma Takes.separated (s : State) : Takes 0 (Parser.separated p) s (SeparatedOf R) := by
  refine (hp s).bind fun ts a t _ ha => ?_
  refine Takes.bind (Takes.turns (R := AfterComma R) (fun u => ?_) _ t) ?_
  · refine (Takes.eat? (by decide)).bind ?_
    rintro us (_ | c) v - hc
    · exact .pure (by simpa using hc.1)
    · obtain ⟨rfl,hc⟩ := hc
      exact .map ((hp v).mono fun _ _ hb => .intro hc hb)
  · exact fun us as u _ has => .pure (by simpa using SeparatedOf.intro ha has)

lemma Takes.parenthesized (hh : headKind s.rest = .parenOpen) :
    Takes 0 (Parser.parenthesized p) s (ListOf R) := by
  refine .next_plain hh (by decide) fun o t ho _ _ => ?_
  refine (Takes.eat? (by decide)).bind ?_
  rintro ts (_ | c) u - hc
  · obtain ⟨rfl,-⟩ := hc
    refine (Takes.separated hp u).bind fun us as v _ has => ?_
    refine (Takes.close (by decide) _ _).bind ?_
    rintro vs - w - ⟨c,rfl,hc⟩
    exact .pure (by simpa using ListOf.some ho has hc)
  · obtain ⟨rfl,hc⟩ := hc
    exact .pure (.empty ho hc)

lemma Takes.children (s : State) : Takes 0 (Parser.children p) s (ChildrenOf R) := by
  refine .peek ?_
  split_ifs with hh
  · exact (Takes.parenthesized hp hh).mono fun _ _ h => .some h
  · exact .pure .none

end Lists

/-! Where things stand. -/

/-- From where reading began to where it came. -/
lemma Moves.cover_eq {ts : List Token} (hm : Moves s ts t) (hne : ts ≠ []) :
    (⟨(Parser.hereSpan s).start,t.lastStop⟩ : Span) = cover ts := by
  obtain ⟨o,us,rfl⟩ := List.exists_cons_of_ne_nil hne
  rw [hm.hereSpan, hm.lastStop, endOf_cons, cover_cons]

lemma Takes.spanned {p : Parser α} {f : α → Span → β} {post : List Token → β → Prop}
    (hp : Takes 0 p s fun ts v => ts ≠ [] ∧ post ts (f v (cover ts))) :
    Takes 0 (do
      let start := (← Parser.here).start
      let v ← p
      let span ← Parser.spanFrom start
      return f v span) s post := by
  refine .here (hp.bind fun ts v t hm hv => .spanFrom ?_)
  rw [hm.cover_eq hv.1]
  exact .pure (by simpa using hv.2)

/-! Items. -/

section Items

variable {R : List Token → Item → Prop} {p : Parser Item} (hp : ∀ s, Takes 0 p s R)

lemma Takes.holeForm (hh : headKind s.rest = .hole) : Takes 0 Parser.holeForm s (FormOf R) := by
  refine (Takes.hole hh).bind fun ts h u _ hts => ?_
  refine Takes.dots.bind fun us b v _ hus => ?_
  exact .pure (by simpa using FormOf.untypedHole hts hus)

lemma Takes.rangeForm (s : State) : Takes 0 Parser.rangeForm s (FormOf R) := by
  refine Takes.char.bind fun ts first t _ hts => ?_
  refine (Takes.expect (by decide) _).bind ?_
  rintro _ - u - ⟨d,rfl,hd⟩
  refine Takes.char.bind fun us last v _ hus => ?_
  refine (Takes.eat? (by decide)).bind ?_
  rintro _ (_ | o) w - ho
  · obtain ⟨rfl,-⟩ := ho
    exact .pure (by simpa using FormOf.symbolRange hts hd hus .none)
  · obtain ⟨rfl,ho⟩ := ho
    refine .peek ?_
    split_ifs with hk
    · refine (Takes.hole hk).bind fun hs h x _ hh => ?_
      refine (Takes.close (by decide) _ _).bind ?_
      rintro _ - y - ⟨c,rfl,hc⟩
      exact .pure (by simpa using FormOf.symbolRange hts hd hus (.some ho hh hc))
    · exact report_reject (.reportHere _ _)

include hp

lemma Takes.namedForm (hh : headKind s.rest = .id) : Takes 0 (Parser.namedForm p) s (FormOf R) := by
  refine .next_plain hh (by decide) fun name t hn _ _ => .peek ?_
  split_ifs with hk
  · refine (Takes.hole hk).bind fun ts h u _ hts => ?_
    refine Takes.dots.bind fun us b v _ hus => ?_
    exact .pure (by simpa using FormOf.typedHole hn hts hus)
  · refine Takes.dataBlock?.bind fun ts data u _ hts => ?_
    refine (Takes.children hp u).bind fun us items v _ hus => ?_
    exact .pure (by simpa using FormOf.fixed hn hts hus)

lemma Takes.combined {kind : Kind} (hh : headKind s.rest = kind)
    (hk : kind ∉ [.endOfInput,.semicolon,.garbage,.braceOpen,.braceClose]) :
    Takes 0 (Parser.combined p) s fun ts items =>
      ∃ sign us, ts = sign :: us ∧ sign.kind = kind ∧ ListOf R us items := by
  refine .next_plain hh hk fun sign t hsign _ _ => .peek ?_
  split_ifs with hopen
  · exact (Takes.parenthesized hp hopen).mono fun us _ h => ⟨sign,us,rfl,hsign,h⟩
  · exact report_reject (.reportHere _ _)

lemma Takes.form (s : State) : Takes 0 (Parser.form p) s (FormOf R) := by
  refine .peek ?_
  split
  next hk => exact Takes.namedForm hp hk
  next hk => exact Takes.holeForm hk
  next => exact Takes.rangeForm s
  next hk =>
    refine (Takes.combined hp hk (by decide)).bind ?_
    rintro _ items t - ⟨sign,us,rfl,hsign,hus⟩
    exact .pure (by simpa using FormOf.anyOf hsign hus)
  next hk =>
    refine (Takes.combined hp hk (by decide)).bind ?_
    rintro _ items t - ⟨sign,us,rfl,hsign,hus⟩
    exact .pure (by simpa using FormOf.allOf hsign hus)
  next hk => exact .next_plain hk (by decide) fun dots t hdots _ _ => .pure (.rest hdots)
  next => exact report_reject (.reportHere _ _)

/-- An atom, with the form that it was made by. -/
lemma Takes.atom (s : State) : Takes 0 (Parser.atom p) s fun ts i =>
    ∃ make, FormOf R ts make ∧ i = make ⟨.normal,false,cover ts⟩ := by
  have hform := (Takes.form hp s).mono fun ts make h => And.intro (formOf_ne_nil h)
    (show ∃ make', FormOf R ts make' ∧ make (.plain (cover ts)) = make' _ from ⟨make,h,rfl⟩)
  exact .spanned hform

lemma Takes.negated (hh : headKind s.rest = .negation) :
    Takes 0 (Parser.negated p) s (BareOf R) := by
  refine .next_plain hh (by decide) fun sign t hsign _ _ => (Takes.atom hp t).bind ?_
  rintro us _ u - ⟨make,hmake,rfl⟩
  obtain ⟨o,us,rfl⟩ := List.exists_cons_of_ne_nil (formOf_ne_nil hmake)
  rw [Item.span, (tagged_of_formOf hmake).tag, cover_cons]
  refine .spanOf (.pure ?_)
  rw [tagged_of_formOf hmake]
  simpa [cover_cons] using BareOf.negated hsign hmake

lemma Takes.moded {opening closing : Kind} {mode : Mode} (hb : BracketsOf opening closing mode)
    (hh : headKind s.rest = opening) (unclosed : Diagnostic.Kind) :
    Takes 0 (Parser.moded p mode closing unclosed) s (LooseWith R) := by
  obtain ⟨o,rest,hr,ho⟩ := exists_cons_of_headKind hh (by cases hb <;> decide)
  -- what stands between the brackets, and the bracket that closes
  have hinside : ∀ opened t, Moves s [o] t → (∀ u, Takes opened
      (Parser.close closing unclosed o.span) u fun ts _ => ∃ c, ts = [c] ∧ c.kind = closing) →
      Takes opened (do
        let inner ← p
        reportNestedMode inner
        Parser.close closing unclosed o.span
        let span ← Parser.spanFrom o.span.start
        return inner.withTag { inner.tag with mode, span }) t
        fun us i => LooseWith R (o :: us) i := by
    intro opened t hm hclose
    refine (hp t).bind fun us i u hmu hi => ?_
    have hreport : Takes 0 (reportNestedMode i) u fun ts _ => ts = [] := by
      rw [reportNestedMode]
      split_ifs
      · exact .pure rfl
      · exact .reportAt _ _
    refine hreport.bind ?_
    rintro _ - v hmv rfl
    refine Takes.bind_add 0 (hclose v) ?_
    rintro _ - w hmw ⟨c,rfl,hc⟩
    have hspan := (((hm.trans hmu).trans hmv).trans hmw).cover_eq (by simp)
    rw [((hm.trans hmu).trans hmv |>.trans hmw).hereSpan] at hspan
    refine .spanFrom ?_
    rw [hspan]
    exact .pure (by simpa using LooseWith.moded (ho ▸ hc ▸ hb) hi)
  cases hb with
  | optional =>
    refine Takes.next_bind 0 hr (by rw [ho]; rfl) (by rw [ho]; rfl) fun t hm _ => ?_
    exact hinside 0 t hm fun u => .close (by decide) _ _
  | repeated =>
    refine Takes.next_bind 1 hr (by rw [ho]; rfl) (by rw [ho]; rfl) fun t hm _ => ?_
    exact hinside 1 t hm fun u => .close_brace _ _

lemma Takes.itemWith (s : State) : Takes 0 (Parser.itemWith p) s (LooseWith R) := by
  refine .peek ?_
  split
  next hk => exact Takes.moded hp .optional hk _
  next hk => exact Takes.moded hp .repeated hk _
  next hk => exact (Takes.negated hp hk).mono fun _ _ h => .bare h
  next =>
    refine (Takes.atom hp s).mono ?_
    rintro ts _ ⟨make,hmake,rfl⟩
    exact .bare (.plain hmake)

end Items

theorem takes_item (depth : Nat) (s : State) : Takes 0 (item depth) s LooseItem := by
  induction depth generalizing s with
  | zero => trivial
  | succ depth ih => exact (Takes.itemWith ih s).mono fun _ _ h => .intro (fun _ _ hi => hi) h

/-! Templates. -/

lemma Takes.templateForm {R : List Token → Template → Prop} {p : Parser Template}
    (hp : ∀ s, Takes 0 p s R) (s : State) : Takes 0 (Parser.templateForm p) s (TemplateForm R) := by
  refine .peek ?_
  split
  next hk => exact .next_plain hk (by decide) fun word t hword _ _ => .pure (.null hword)
  next hk =>
    refine (Takes.hole hk).bind fun ts h t _ hh => ?_
    exact .pure (by simpa using TemplateForm.hole hh)
  next hk =>
    refine .next_plain hk (by decide) fun name t hn _ _ => ?_
    refine Takes.dataBlock?.bind fun ts data u _ hts => ?_
    refine (Takes.children hp u).bind fun us parts v _ hus => ?_
    exact .pure (by simpa using TemplateForm.subtree hn hts hus)
  next => exact report_reject (.reportHere _ _)

theorem takes_template (depth : Nat) (s : State) : Takes 0 (template depth) s TemplateOf := by
  induction depth generalizing s with
  | zero => trivial
  | succ depth ih =>
    have hform := (Takes.templateForm ih s).mono fun ts make h =>
      And.intro (templateForm_ne_nil h)
        (show TemplateOf ts (make (cover ts)) from templateOf_iff.mpr (.intro h))
    exact .spanned hform

/-! Rules. -/

/-- Reads a rule up to its semicolon. -/
def ruleFront (depth : Nat) : Parser (List Item × Template) := do
  let pattern ← separated (item depth)
  expect .arrow .expectedArrow
  let result ← template depth
  return (pattern,result)

lemma bind_bind {γ : Type} (p : Parser α) (f : α → Parser β) (g : β → Parser γ) :
    p >>= f >>= g = p >>= fun a => f a >>= g := by
  funext s
  simp only [bind_apply]
  cases p s <;> rfl

lemma ruleBody_eq (depth : Nat) : ruleBody depth = do
    let body ← ruleFront depth
    expect .semicolon .expectedSemicolon
    return body := by
  rw [ruleFront]
  simp only [bind_bind]
  rfl

lemma takes_ruleFront (depth : Nat) (s : State) : Takes 0 (ruleFront depth) s LooseBody := by
  refine (Takes.separated (takes_item depth) s).bind fun ts pattern t _ hp => ?_
  refine (Takes.expect (by decide) _).bind ?_
  rintro _ - u - ⟨arrow,rfl,ha⟩
  refine (takes_template depth u).bind fun us result v _ hr => ?_
  exact .pure (by simpa using LooseBody.intro hp ha hr)

/-- The semicolon is the last thing that is read of a rule, and the first that is missed. -/
lemma taken_semicolon (s : State) :
    match expect .semicolon .expectedSemicolon s with
      | .ok _ t => ∃ c, Moves s [c] t ∧ c.kind = .semicolon
      | .reject t => Moves s [] t
      | .stop _ => True := by
  rw [expect_eq]
  split_ifs with hh
  · obtain ⟨c,rest,hr,hc⟩ := exists_cons_of_headKind hh (by decide)
    rw [bind_apply, next, hr]
    dsimp only
    split_ifs
    · trivial
    · exact ⟨c,⟨hr,rfl,rfl,id⟩,hc⟩
  · rw [bind_apply, reportHere, here_bind, reportSpan, reportAt]
    split_ifs
    · exact .refl s
    · exact ⟨rfl,rfl,rfl,by simp⟩

/-- What is taken of a rule, whether it is read or not. -/
lemma taken_ruleBody (depth : Nat) (s : State) :
    match ruleBody depth s with
      | .ok body t => ∃ ts c, Moves s (ts ++ [c]) t ∧ Inner ts ∧ openBraces ts = 0 ∧
          c.kind = .semicolon ∧ LooseBody ts body
      | .reject t => ∃ ts, Moves s ts t ∧ Inner ts ∧ 0 ≤ openBraces ts
      | .stop _ => True := by
  have hfront := takes_ruleFront depth s
  rw [Takes] at hfront
  rw [ruleBody_eq, bind_apply]
  cases hrun : ruleFront depth s with
  | ok body t =>
    rw [hrun] at hfront
    obtain ⟨ts,hm,hi,hb,hbody⟩ := hfront
    have hend := taken_semicolon t
    dsimp only
    rw [bind_apply]
    cases hexpect : expect .semicolon .expectedSemicolon t with
    | ok _ u =>
      rw [hexpect] at hend
      obtain ⟨c,hm',hc⟩ := hend
      exact ⟨ts,c,hm.trans hm',hi,by simpa using hb,hc,hbody⟩
    | reject u =>
      rw [hexpect] at hend
      refine ⟨ts,?_,hi,by omega⟩
      simpa using hm.trans hend
    | stop fault => trivial
  | reject t =>
    rw [hrun] at hfront
    obtain ⟨ts,hm,hi,hb⟩ := hfront
    exact ⟨ts,hm,hi,by simpa using hb⟩
  | stop fault => trivial

end TreeRules.Parser
