import TreeRules.Proofs.Parser.Grammar
import Mathlib.Tactic.Common

/-! Tokens that stand in no rule file: what the lexer could not read, and literals with an escape
that stands for nothing. -/
namespace TreeRules

open Grammar
open Token (Kind)

/-- A token that no derivation holds. -/
def Token.Faulty (t : Token) : Prop :=
  t.kind = .garbage ∨
    t.kind ∈ [Kind.stringLiteral,.charLiteral] ∧ ∀ chars, unescapeChars (literalBody t) ≠ .ok chars

/-- Tokens none of which is faulty. -/
def Sane (ts : List Token) : Prop := ∀ t ∈ ts, ¬ t.Faulty

namespace Sane

variable {t : Token} {ts us : List Token}

lemma nil : Sane [] := fun _ h => (List.not_mem_nil h).elim

lemma append (h : Sane ts) (h' : Sane us) : Sane (ts ++ us) :=
  fun t ht => (List.mem_append.mp ht).elim (h t) (h' t)

lemma cons (ht : ¬ t.Faulty) (h : Sane ts) : Sane (t :: ts) :=
  List.forall_mem_cons.mpr ⟨ht,h⟩

lemma singleton (ht : ¬ t.Faulty) : Sane [t] := .cons ht .nil

end Sane

namespace Grammar

variable {α : Type} {R : List Token → α → Prop} {t : Token} {ts : List Token}

/-- Most kinds say enough. -/
lemma not_faulty {kind : Kind} (hk : t.kind = kind)
    (h : [Kind.garbage,.stringLiteral,.charLiteral].contains kind = false) : ¬ t.Faulty := by
  have hmem : t.kind ∉ [Kind.garbage,.stringLiteral,.charLiteral] := by
    rwa [hk, ← List.contains_iff_mem, Bool.not_eq_true]
  rintro (hg | ⟨hl,-⟩)
  · exact hmem (by simp [hg])
  · exact hmem (List.mem_cons_of_mem _ hl)

lemma not_faulty_literal {chars : List Char} (hk : t.kind ≠ .garbage)
    (hc : unescapeChars (literalBody t) = .ok chars) : ¬ t.Faulty := by
  rintro (hg | ⟨-,hl⟩)
  · exact hk hg
  · exact hl chars hc

lemma HoleOf.sane {h : Hole} (hh : HoleOf ts h) : Sane ts := by
  obtain ⟨hk,-⟩ := hh
  exact .singleton (not_faulty hk rfl)

lemma DotsOf.sane {b : Bool} (h : DotsOf ts b) : Sane ts := by
  cases h with
  | none => exact .nil
  | some hk => exact .singleton (not_faulty hk rfl)

lemma CharOf.sane {c : Char} (h : CharOf ts c) : Sane ts := by
  obtain ⟨hk,hc⟩ := h
  exact .singleton (not_faulty_literal (by simp [hk]) hc)

lemma DataOf.sane {d : Option Datum} (h : DataOf ts d) : Sane ts := by
  cases h with
  | none => exact .nil
  | some ho hd hc =>
    refine .cons (not_faulty ho rfl) (.append ?_ (.singleton (not_faulty hc rfl)))
    cases hd with
    | hole hh => exact hh.sane
    | literal hk hc => exact .singleton (not_faulty_literal (by simp [hk]) hc)

lemma RangeHoleOf.sane {h : Option Hole} (hh : RangeHoleOf ts h) : Sane ts := by
  cases hh with
  | none => exact .nil
  | some ho hh hc =>
    exact .cons (not_faulty ho rfl) (.append hh.sane (.singleton (not_faulty hc rfl)))

lemma Many.sane (hR : ∀ ts a, R ts a → Sane ts) {as : List α} (h : Many R ts as) : Sane ts := by
  induction h with
  | nil => exact .nil
  | cons ha _ ih => exact (hR _ _ ha).append ih

lemma SeparatedOf.sane (hR : ∀ ts a, R ts a → Sane ts) {as : List α} (h : SeparatedOf R ts as) :
    Sane ts := by
  obtain ⟨ha,has⟩ := h
  refine (hR _ _ ha).append (has.sane ?_)
  rintro _ b ⟨hc,hb⟩
  exact .cons (not_faulty hc rfl) (hR _ _ hb)

lemma ListOf.sane (hR : ∀ ts a, R ts a → Sane ts) {as : List α} (h : ListOf R ts as) :
    Sane ts := by
  cases h with
  | empty ho hc => exact .cons (not_faulty ho rfl) (.singleton (not_faulty hc rfl))
  | some ho has hc =>
    exact .cons (not_faulty ho rfl) (.append (has.sane hR) (.singleton (not_faulty hc rfl)))

lemma ChildrenOf.sane (hR : ∀ ts a, R ts a → Sane ts) {as : List α} (h : ChildrenOf R ts as) :
    Sane ts := by
  cases h with
  | none => exact .nil
  | some has => exact has.sane hR

lemma FormOf.sane {R : List Token → Item → Prop} (hR : ∀ ts i, R ts i → Sane ts)
    {make : Item.Tag → Item} (h : FormOf R ts make) : Sane ts := by
  cases h with
  | typedHole hn hh hd => exact .cons (not_faulty hn rfl) (.append hh.sane hd.sane)
  | fixed hn hd hi => exact .cons (not_faulty hn rfl) (.append hd.sane (hi.sane hR))
  | untypedHole hh hd => exact hh.sane.append hd.sane
  | symbolRange hf hd hl hh =>
    exact hf.sane.append (.cons (not_faulty hd rfl) (hl.sane.append hh.sane))
  | anyOf hs hi | allOf hs hi => exact .cons (not_faulty hs rfl) (hi.sane hR)
  | rest ht => exact .singleton (not_faulty ht rfl)

lemma BareOf.sane {R : List Token → Item → Prop} (hR : ∀ ts i, R ts i → Sane ts) {i : Item}
    (h : BareOf R ts i) : Sane ts := by
  cases h with
  | plain hm => exact hm.sane hR
  | negated hs hm => exact .cons (not_faulty hs rfl) (hm.sane hR)

lemma BracketsOf.not_faulty {o c : Token} {mode : Mode} (h : BracketsOf o.kind c.kind mode) :
    ¬ o.Faulty ∧ ¬ c.Faulty := by
  generalize ho : o.kind = opening at h
  generalize hc : c.kind = closing at h
  cases h <;> exact ⟨Grammar.not_faulty ho rfl,Grammar.not_faulty hc rfl⟩

lemma ItemOf.sane {i : Item} (h : ItemOf ts i) : Sane ts := by
  induction h with
  | intro _ hi ih =>
    cases hi with
    | bare hb => exact hb.sane ih
    | moded hb hi =>
      exact .cons hb.not_faulty.1 (.append (hi.sane ih) (.singleton hb.not_faulty.2))

lemma TemplateOf.sane {r : Template} (h : TemplateOf ts r) : Sane ts := by
  induction h with
  | intro _ ht ih =>
    obtain ⟨hm⟩ := ht
    cases hm with
    | null ht => exact .singleton (not_faulty ht rfl)
    | hole hh => exact hh.sane
    | subtree hn hd hp => exact .cons (not_faulty hn rfl) (.append hd.sane (hp.sane ih))

lemma RuleOf.sane {r : Rule} (h : RuleOf ts r) : Sane ts := by
  obtain ⟨hp,ha,hr,hs⟩ := h
  exact (hp.sane fun _ _ => ItemOf.sane).append
    (.cons (not_faulty ha rfl) (.append hr.sane (.singleton (not_faulty hs rfl))))

/-- A file holds no faulty token. -/
theorem FileOf.sane {entries : List Parser.Entry} (h : FileOf ts entries) : Sane ts := by
  refine Many.sane (fun us e he => ?_) h
  cases he with
  | loose hr => exact hr.sane
  | block hk hn ho hr hc =>
    exact .cons (not_faulty hk rfl) (.cons (not_faulty hn rfl) (.cons (not_faulty ho rfl)
      (.append (hr.sane fun _ _ => RuleOf.sane) (.singleton (not_faulty hc rfl)))))

end Grammar
end TreeRules
