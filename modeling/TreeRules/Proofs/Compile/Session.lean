import TreeRules.Compile.File
import TreeRules.Proofs.Compile.TypeTest
import TreeRules.Proofs.Matcher.Stores
import Mathlib.Logic.Relation

/-! Compiling only adds: symbols behind the symbols that are there, matchers before the matchers
that are there, each numbered by its place. -/
namespace TreeRules.Compilation

open Matcher (Id Numbered Parts)

/-- What is there stays as it is. -/
structure GrowsTo (s t : Compilation) : Prop where
  hierarchy : t.hierarchy = s.hierarchy
  matchers : s.matchers <:+ t.matchers
  symbols : s.symbols.names <+: t.symbols.names
  numbered : Numbered s.matchers → Numbered t.matchers

namespace GrowsTo

lemma refl (s : Compilation) : s.GrowsTo s :=
  ⟨rfl,List.suffix_refl _,List.prefix_refl _,id⟩

lemma trans {s t u : Compilation} (h : s.GrowsTo t) (h' : t.GrowsTo u) : s.GrowsTo u :=
  ⟨h'.hierarchy.trans h.hierarchy,h.matchers.trans h'.matchers,h.symbols.trans h'.symbols,
    h'.numbered ∘ h.numbered⟩

/-- Steps that add no matcher. -/
lemma of_symbols {s t : Compilation} (hh : t.hierarchy = s.hierarchy)
    (hm : t.matchers = s.matchers) (hs : s.symbols.names <+: t.symbols.names) : s.GrowsTo t :=
  ⟨hh,hm ▸ List.suffix_refl _,hs,fun h => hm ▸ h⟩

end GrowsTo

lemma growsTo_intern (s : Compilation) (name : String) : s.GrowsTo (s.intern name).2 :=
  .of_symbols rfl rfl (s.symbols.names_isPrefix_intern name)

lemma growsTo_typeTest (s : Compilation) (name : String) : s.GrowsTo (s.typeTest name).2 := by
  refine .of_symbols ?_ ?_ (s.symbols_typeTest_isPrefix name)
  · rw [typeTest_eq]
  · rw [typeTest_eq]

lemma growsTo_insertMatcher (s : Compilation) (key base : String) (negated : Bool)
    (parts : Parts) : s.GrowsTo (s.insertMatcher key base negated parts).2 :=
  ⟨rfl,List.suffix_cons _ _,List.prefix_refl _,fun h => ⟨rfl,h⟩⟩

lemma growsTo_insertItem (s : Compilation) (i : Item) (parts : Parts) :
    s.GrowsTo (s.insertItem i parts).2 := s.growsTo_insertMatcher _ _ _ _

lemma growsTo_share {s : Compilation} {compile : Compilation → Parts × Compilation}
    (hc : s.GrowsTo (compile s).2) (i : Item) : s.GrowsTo (s.share i compile).2 := by
  rw [share]
  split
  · exact .refl s
  · exact hc.trans (growsTo_insertItem _ _ _)

/-- What one child adds to its parent's matcher. -/
def compileChild (index : Nat) (i : Item) (s : Compilation) : ChildParts × Compilation :=
  match i.childRole with
  | .any h => (⟨[],[.child h index]⟩,s)
  | .remaining h => (⟨[],[.remaining h index]⟩,s)
  | .remainingOf type h =>
    (⟨[.remaining index (s.typeTest type).1],[.remaining h index]⟩,(s.typeTest type).2)
  | .captured h => (⟨[.child index (compileItem i s).1],[.child h index]⟩,(compileItem i s).2)
  | .free => (⟨[],[]⟩,s)
  | .nested =>
    (⟨[.child index (compileItem i s).1],
      if (compileItem i s).2.extracts (compileItem i s).1 then [.nested index (compileItem i s).1]
      else []⟩,(compileItem i s).2)

lemma compileChildren_nil (index : Nat) (s : Compilation) :
    compileChildren index [] s = (⟨[],[]⟩,s) := rfl

lemma compileChildren_cons (index : Nat) (i : Item) (items : List Item) (s : Compilation) :
    compileChildren index (i :: items) s =
      (⟨(compileChild index i s).1.conditions ++
          (compileChildren (index + 1) items (compileChild index i s).2).1.conditions,
        (compileChild index i s).1.extractions ++
          (compileChildren (index + 1) items (compileChild index i s).2).1.extractions⟩,
        (compileChildren (index + 1) items (compileChild index i s).2).2) := by
  rw [compileChildren]
  rfl

lemma growsTo_compileChild {i : Item}
    (ih : ∀ s : Compilation, s.GrowsTo (compileItem i s).2) (index : Nat)
    (s : Compilation) : s.GrowsTo (compileChild index i s).2 := by
  rw [compileChild]
  cases i.childRole with
  | any h | remaining h | free => exact .refl s
  | remainingOf type h => exact s.growsTo_typeTest type
  | captured h | nested => exact ih s

lemma growsTo_compileChildren {items : List Item}
    (ih : ∀ i ∈ items, ∀ s : Compilation, s.GrowsTo (compileItem i s).2) (index : Nat)
    (s : Compilation) :
    s.GrowsTo (compileChildren index items s).2 := by
  induction items generalizing index s with
  | nil => exact .refl s
  | cons i items ihi =>
    rw [compileChildren_cons]
    exact (growsTo_compileChild (ih i List.mem_cons_self) index s).trans
      (ihi (fun j hj => ih j (List.mem_cons_of_mem _ hj)) _ _)

lemma growsTo_compileItems {items : List Item}
    (ih : ∀ i ∈ items, ∀ s : Compilation, s.GrowsTo (compileItem i s).2) (s : Compilation) :
    s.GrowsTo (compileItems items s).2 := by
  induction items generalizing s with
  | nil => exact .refl s
  | cons i items ihi =>
    rw [compileItems]
    exact (ih i List.mem_cons_self s).trans (ihi (fun j hj => ih j (List.mem_cons_of_mem _ hj)) _)

theorem growsTo_compileItem (i : Item) : ∀ s : Compilation, s.GrowsTo (compileItem i s).2 := by
  induction i using Item.ind with
  | fixed t type data children ih =>
    intro s
    rw [compileItem]
    exact growsTo_share ((s.growsTo_typeTest type).trans (growsTo_compileChildren ih 0 _)) _
  | typedHole t type hole ellipsis =>
    intro s
    rw [compileItem]
    exact growsTo_share (s.growsTo_typeTest type) _
  | anyOf t items ih =>
    intro s
    rw [compileItem]
    exact growsTo_share (growsTo_compileItems ih s) _
  | allOf t items ih =>
    intro s
    rw [compileItem]
    exact growsTo_share (growsTo_compileItems ih s) _
  | untypedHole | symbolRange | rest =>
    intro s
    rw [compileItem]
    exact growsTo_share (.refl s) _

/-! Right sides and whole rules. -/

mutual

/-- Right sides add no matcher. -/
lemma compileTemplate_adds : ∀ (r : Template) (s : Compilation),
    s.GrowsTo (compileTemplate r s).2 ∧ (compileTemplate r s).2.matchers = s.matchers
  | .null _, s => ⟨.refl s,rfl⟩
  | .hole _ _, s => ⟨.refl s,rfl⟩
  | .subtree _ type _ children, s => by
    rw [compileTemplate]
    obtain ⟨hg,hm⟩ := compileTemplates_adds children s
    exact ⟨(hg.trans (growsTo_intern _ type)).trans (.of_symbols rfl rfl (List.prefix_refl _)),hm⟩

lemma compileTemplates_adds : ∀ (rs : List Template) (s : Compilation),
    s.GrowsTo (compileTemplates rs s).2 ∧ (compileTemplates rs s).2.matchers = s.matchers
  | [], s => ⟨.refl s,rfl⟩
  | r :: rs, s => by
    rw [compileTemplates]
    obtain ⟨hg,hm⟩ := compileTemplate_adds r s
    obtain ⟨hg',hm'⟩ := compileTemplates_adds rs (compileTemplate r s).2
    exact ⟨hg.trans hg',hm'.trans hm⟩

end

lemma compileResult_adds (r : Template) (s : Compilation) :
    s.GrowsTo (s.compileResult r).2 ∧ (s.compileResult r).2.matchers = s.matchers :=
  compileTemplate_adds r s

lemma growsTo_insertRule (s : Compilation) (c : CompiledRule) : s.GrowsTo (s.insertRule c) :=
  .of_symbols rfl rfl (List.prefix_refl _)

lemma growsTo_compileCheckers (items : List Item) (names : List String) (s : Compilation) :
    s.GrowsTo (compileCheckers items names s).2 := by
  induction items generalizing names s with
  | nil => exact .refl s
  | cons i items ih =>
    cases names with
    | nil => exact .refl s
    | cons name names =>
      rw [compileCheckers]
      exact (growsTo_compileItem i s).trans (ih names _)

/-- What compiling a left side can come to. -/
lemma compileStrategy_cases {r : Rule} {s t : Compilation} {strategy : Strategy}
    (h : s.compileStrategy r = .ok (strategy,t)) :
    r.pattern.length ≤ Strategy.ordinals.length ∧
      strategy = .select (compileCheckers r.pattern Strategy.ordinals s).1 ∧
      t = (compileCheckers r.pattern Strategy.ordinals s).2 := by
  rw [compileStrategy] at h
  split_ifs at h with hl
  cases h
  exact ⟨Nat.le_of_not_lt hl,rfl,rfl⟩

/-- What compiling a rule can come to. -/
lemma compileRule_cases {r : Rule} {s t : Compilation} (h : s.compileRule r = .ok t) :
    ∃ strategy s', s.compileStrategy r = .ok (strategy,s') ∧
      ∃ c, t = (s'.compileResult r.result).2.insertRule c := by
  rw [compileRule] at h
  split at h
  · cases h
  · next strategy s' hs =>
    cases h
    exact ⟨strategy,s',hs,_,rfl⟩

/-- One thing that is compiled; the items of left sides are such as `P` tells. -/
inductive Step (P : Item → Prop) : Compilation → Compilation → Prop
  | item {i : Item} (hi : P i) (s : Compilation) : Step P s (compileItem i s).2
  | result (t : Template) (s : Compilation) : Step P s (s.compileResult t).2
  | strategy {r : Rule} (hr : ∀ i ∈ r.pattern, P i) {s t : Compilation} {strategy : Strategy}
      (h : s.compileStrategy r = .ok (strategy,t)) : Step P s t
  | rule {r : Rule} (hr : ∀ i ∈ r.pattern, P i) {s t : Compilation}
      (h : s.compileRule r = .ok t) : Step P s t

/-- Any number of things are compiled. -/
def Reaches (P : Item → Prop) : Compilation → Compilation → Prop :=
  Relation.ReflTransGen (Step P)

lemma growsTo_compileStrategy {r : Rule} {s t : Compilation} {strategy : Strategy}
    (h : s.compileStrategy r = .ok (strategy,t)) : s.GrowsTo t := by
  obtain ⟨-,-,rfl⟩ := compileStrategy_cases h
  exact growsTo_compileCheckers _ _ s

lemma Step.growsTo {P : Item → Prop} {s t : Compilation} (h : Step P s t) : s.GrowsTo t := by
  cases h with
  | @item i hi => exact growsTo_compileItem i s
  | result r => exact (compileResult_adds r s).1
  | strategy hr h => exact growsTo_compileStrategy h
  | rule hr h =>
    obtain ⟨strategy,s',hs,c,rfl⟩ := compileRule_cases h
    exact ((growsTo_compileStrategy hs).trans (compileResult_adds _ s').1).trans
      (growsTo_insertRule _ c)

theorem Reaches.growsTo {P : Item → Prop} {s t : Compilation} (h : s.Reaches P t) :
    s.GrowsTo t := by
  induction h with
  | refl => exact .refl s
  | tail h hs ih => exact ih.trans hs.growsTo

end TreeRules.Compilation
