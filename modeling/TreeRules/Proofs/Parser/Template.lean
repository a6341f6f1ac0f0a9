import TreeRules.Proofs.Parser.Item
import TreeRules.Parser.Template

/-! Templates: what is read is a template of the grammar, and every one of them is read. -/
namespace TreeRules.Parser

open Grammar
open Token (Kind)

variable {R : List Token → Template → Prop} {p : Parser Template}

lemma Reads.templateForm (hp : Reads R p) {s : State} (hs : Good s) :
    Wp (Parser.templateForm p) s fun ts make t =>
      ts ≠ [] ∧ (t.diagnostics = [] → TemplateForm R ts make) := by
  refine .peek ?_
  split
  next hk =>
    obtain ⟨word,rest,hr,hword⟩ := exists_cons_of_headKind hk (by decide)
    refine Wp.next_bind hs hr fun t ht _ _ => ?_
    exact .pure ht ⟨by simp,fun _ => .null hword⟩
  next hk =>
    refine (Wp.hole hs hk).bind ?_
    rintro _ h t ht - hh
    refine .pure ht ⟨?_,fun _ => by simpa using TemplateForm.hole hh⟩
    obtain ⟨_,_⟩ := hh
    simp
  next hk =>
    obtain ⟨name,rest,hr,hn⟩ := exists_cons_of_headKind hk (by decide)
    refine Wp.next_bind hs hr fun t ht _ _ => ?_
    refine (Wp.dataBlock? ht).bind fun ts data u hu _ hts => ?_
    refine (hp.children hu).bind fun us parts v hv _ hus => ?_
    exact .pure hv ⟨by simp,fun hd => by simpa using TemplateForm.subtree hn hts (hus hd)⟩
  next => exact Wp.report_reject (Wp.reportHere hs _ _)

lemma Reads.templateWith (hp : Reads TemplateOf p) : Reads TemplateOf (Parser.templateWith p) := by
  intro s hs
  have hform := (hp.templateForm hs).mono fun ts make t _ _ h => And.intro h.1
    (show ts ≠ [] ∧ (t.diagnostics = [] → TemplateOf ts (make (cover ts))) from
      ⟨h.1,fun hd => templateOf_iff.mpr (.intro (h.2 hd))⟩)
  exact .spanned hs hform

lemma reads_template (depth : Nat) : Reads TemplateOf (template depth) := by
  induction depth with
  | zero => exact fun _ _ => Or.inr rfl
  | succ depth ih => exact ih.templateWith

/-! Completeness. -/

/-- What a template begins with. -/
lemma headKind_templateForm {ts : List Token} {make : Span → Template}
    (h : TemplateForm R ts make) (rest : List Token) :
    headKind (ts ++ rest) ∈ [.kwNull,.hole,.id] := by
  cases h with
  | null ht => simp [headKind, ht]
  | hole hh =>
    rw [headKind_holeOf hh]
    decide
  | subtree hn => simp [headKind, hn]

lemma templateForm_ne_nil {ts : List Token} {make : Span → Template}
    (h : TemplateForm R ts make) : ts ≠ [] := by
  rintro rfl
  exact absurd (headKind_templateForm h []) (by decide)

lemma begins_templateOf : Begins TemplateOf := by
  rintro ts _ rest ⟨-,⟨hm⟩⟩ hk
  have hmem := headKind_templateForm hm rest
  rw [hk] at hmem
  exact absurd hmem (by decide)

lemma Covers.templateForm (hb : Begins R) (hp : Covers R p) {ts : List Token}
    {make : Span → Template} (h : TemplateForm R ts make) {s : State} {rest : List Token}
    (hs : Good s) (hr : s.rest = ts ++ rest) (hstop : Stops rest) :
    Yields (Parser.templateForm p) s make (s.past ts rest) := by
  refine .peek ?_
  cases h with
  | @null t ht =>
    rw [show headKind s.rest = .kwNull by rw [hr]; exact ht]
    exact .bind (.next hr) (.pure _ _)
  | hole hh =>
    rw [show headKind s.rest = .hole by rw [hr]; exact headKind_holeOf hh rest]
    exact .bind (.hole hh hr) (.pure _ _)
  | @subtree name us vs data parts hn hd hp' =>
    have hr' : s.rest = name :: (us ++ (vs ++ rest)) := by simpa using hr
    rw [show headKind s.rest = .id by rw [hr']; exact hn]
    have hangle := headKind_childrenOf_ne hp' (by decide) hstop.angle
    refine .bind (.next hr') (.bind (.dataBlock? hd rfl hangle) ?_)
    rw [past_past]
    refine .bind (hp.children hb hp' (good_past hs (by simpa using hr)) rfl hstop) ?_
    exact .finish _ (by simp)

/-- Every template is read, limits apart. -/
lemma covers_template (depth : Nat) : Covers TemplateOf (template depth) := by
  intro ts t h
  induction h generalizing depth with
  | @intro R hR ts t ht ih =>
    intro s rest hs hr hstop
    obtain ⟨hm⟩ := ht
    have hb : Begins R := fun ts t rest h => begins_templateOf ts t rest (hR ts t h)
    cases depth with
    | zero => exact Or.inr (Or.inr rfl)
    | succ depth =>
      have hcovers : Covers R (template depth) := fun ts t h => ih ts t h depth
      exact .spanned hs hr (templateForm_ne_nil hm) (hcovers.templateForm hb hm hs hr hstop)

end TreeRules.Parser
