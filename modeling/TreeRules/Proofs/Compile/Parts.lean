import TreeRules.Proofs.Compile.Children

/-! The parts of each kind of matcher do what the item means, given that the matchers they refer to
do. -/
namespace TreeRules
namespace Compilation

open Matcher (Id ChildCondition Condition Extraction)

variable {h : Option Hierarchy} {asked : List Item} {s : Compilation}

lemma all_dataConditions (data : Option Datum) (u : SymbolTable) (refers : Id → Tree → Bool)
    (proc : List ChildCondition) (n : Tree) :
    (dataConditions data).all (·.holds u refers proc n) = Datum.sat data n.data := by
  rcases data with _ | (hole | text) <;> simp [dataConditions, Condition.holds, Datum.sat]

lemma flatMap_dataExtractions (data : Option Datum) (refers : Id → Tree → Bool)
    (stored : Id → Tree → List (Hole × Capture)) (n : Tree) :
    (dataExtractions data).flatMap (Extraction.stores refers stored n) =
      Item.dataActive data n := by
  rcases data with _ | (hole | text) <;>
    simp [dataExtractions, Extraction.stores, Item.dataActive]

/-- Conditions on children count the same whether or not they make a procedure. -/
lemma all_fixedParts (limit : Nat) (test : Matcher.TypeTest) (data : Option Datum)
    (children : List Item) (below : ChildParts) (u : SymbolTable) (refers : Id → Tree → Bool)
    (n : Tree) :
    (fixedParts limit test data children below).conditions.all
        (·.holds u refers (fixedParts limit test data children below).procedure n) =
      (test.admits u n && Datum.sat data n.data &&
        (fits children n.children.length && below.conditions.all (·.holds u refers n))) := by
  have hown : ∀ proc, ([.type test,countCondition children] ++ dataConditions data).all
      (·.holds u refers proc n) =
        (test.admits u n && (fits children n.children.length && Datum.sat data n.data)) := by
    intro proc
    rw [List.all_append, all_dataConditions, List.all_cons, List.all_cons, List.all_nil,
      holds_countCondition, Bool.and_true, Bool.and_assoc]
    rfl
  have hbelow : (below.conditions.map Condition.children).all (·.holds u refers [] n) =
      below.conditions.all (·.holds u refers n) := by
    rw [List.all_map]
    rfl
  rw [fixedParts]
  split_ifs
  · rw [List.all_append, hown, List.all_cons, List.all_nil, Bool.and_true]
    simp [Condition.holds, Bool.and_assoc, Bool.and_left_comm]
  · rw [List.all_append, hown, hbelow]
    simp [Bool.and_assoc, Bool.and_left_comm]

lemma extractions_fixedParts (limit : Nat) (test : Matcher.TypeTest) (data : Option Datum)
    (children : List Item) (below : ChildParts) :
    (fixedParts limit test data children below).extractions =
      dataExtractions data ++ below.extractions := by
  rw [fixedParts]
  split_ifs <;> rfl

lemma partsMean_fixed {t : Item.Tag} {type : String} {data : Option Datum}
    {children : List Item} (ih : ∀ c ∈ children, c.isTested = true → Compiles h asked c)
    (ht : ∀ c ∈ children, c.isTested = true → c.TestedIn asked) (hs : s.Sound h asked) :
    (compileChildren 0 children (s.typeTest type).2).2.PartsMean h (.fixed t type data children)
      (fixedParts s.inlineLimit (s.typeTest type).1 data children
        (compileChildren 0 children (s.typeTest type).2).1) := by
  have hg := growsTo_compileChildren (fun j (_ : j ∈ children) => growsTo_compileItem j) 0
    (s.typeTest type).2
  have hc : ∀ {i : Item}, i.Orderly → ∀ c ∈ i.inner, c.Orderly := fun ho c hc => ho.inner hc
  refine ⟨fun ho table u hv n => ?_,fun ho table u hv n => ?_⟩
  · have hch := all_compileChildren ho.tidy.1 (hc ho) ih ht (hs.typeTest type) hv ho.tidy.2 n
    rw [List.drop_zero] at hch
    rw [all_fixedParts, hch, hs.admits (hg.seenBy hv).symbols]
    rfl
  · have hch := flatMap_compileChildren ho.tidy.1 (hc ho) ih ht (hs.typeTest type) hv n
    rw [List.drop_zero] at hch
    rw [extractions_fixedParts, List.flatMap_append, flatMap_dataExtractions, hch]
    cases hneg : t.negated <;>
      simp [Item.negated, Item.tag, hneg, Item.isTypedHole, Item.plainDots, Item.active]

lemma partsMean_typedHole {t : Item.Tag} {type : String} {hole : Hole} {ellipsis : Bool}
    (hs : s.Sound h asked) :
    (s.typeTest type).2.PartsMean h (.typedHole t type hole ellipsis)
      ⟨[.type (s.typeTest type).1],[],[.node hole]⟩ := by
  refine ⟨fun ho table u hv n => ?_,fun ho table u hv n => ?_⟩
  · simp [Condition.holds, hs.admits hv.symbols, Item.plainDots, Item.sat, Item.negated, Item.tag]
  · simp [Item.isTypedHole, Extraction.stores, Item.plainDots, Item.active]

lemma partsMean_untypedHole (s : Compilation) {t : Item.Tag} {hole : Hole} {ellipsis : Bool} :
    s.PartsMean h (.untypedHole t hole ellipsis) ⟨[],[],[.node hole]⟩ := by
  refine ⟨fun ho table u hv n => ?_,fun ho table u hv n => ?_⟩
  · cases hneg : t.negated <;> simp [Item.plainDots, Item.sat, Item.negated, Item.tag, hneg]
  · cases hneg : t.negated <;> simp [Item.isTypedHole, Extraction.stores, Item.plainDots,
      Item.active, Item.negated, Item.tag, hneg]

lemma holds_charRange (first last : Char) (u : SymbolTable) (refers : Id → Tree → Bool)
    (proc : List ChildCondition) (n : Tree) :
    (Condition.charRange first last).holds u refers proc n = Item.isSymbol first last n := by
  rw [Condition.holds, Item.isSymbol]
  cases n.data with
  | none => rfl
  | some text =>
    simp only [Matcher.inCharRange, Option.any_some, ← String.length_toList]
    rcases text.toList with _ | ⟨c,_ | ⟨d,cs⟩⟩ <;> simp

lemma partsMean_symbolRange (s : Compilation) {t : Item.Tag} {first last : Char}
    {hole : Option Hole} :
    s.PartsMean h (.symbolRange t first last hole)
      ⟨[.charRange first last],[],hole.toList.map .data⟩ := by
  refine ⟨fun ho table u hv n => ?_,fun ho table u hv n => ?_⟩
  · simp [holds_charRange, Item.plainDots, Item.sat, Item.negated, Item.tag]
  · cases hneg : t.negated <;> cases hole <;> simp [Item.isTypedHole, Extraction.stores,
      Item.plainDots, Item.active, Item.negated, Item.tag, hneg, Item.dataActive]

lemma partsMean_rest (s : Compilation) {t : Item.Tag} :
    s.PartsMean h (.rest t) ⟨[],[],[]⟩ := by
  refine ⟨fun ho table u hv n => ?_,fun ho table u hv n => ?_⟩
  · cases hneg : t.negated <;> simp [Item.plainDots, Item.sat, Item.negated, Item.tag, hneg]
  · simp [Item.plainDots, Item.active]

/-! Alternatives and joint conditions. -/

lemma compileItems_compiles {items : List Item} (ih : ∀ i ∈ items, Compiles h asked i)
    (hs : s.Sound h asked) : (compileItems items s).2.Sound h asked ∧
      ((∀ i ∈ items, i.TestedIn asked) →
        List.Forall₂ ((compileItems items s).2.Means h) (compileItems items s).1 items) := by
  induction items generalizing s with
  | nil => exact ⟨hs,fun _ => .nil⟩
  | cons i items ihi =>
    have hi := ih i List.mem_cons_self s hs
    have hr := ihi (fun j hj => ih j (List.mem_cons_of_mem _ hj)) hi.1
    rw [compileItems]
    refine ⟨hr.1,fun ht => ?_⟩
    obtain ⟨hfirst,hrest⟩ := List.forall_mem_cons.mp ht
    exact .cons ((hi.2 hfirst).mono (growsTo_compileItems (fun j _ => growsTo_compileItem j) _))
      (hr.2 hrest)

section Items

variable {ids : List Id} {items : List Item} (hm : List.Forall₂ (s.Means h) ids items)
  (ho : ∀ i ∈ items, i.Orderly) {table : List Matcher} {u : SymbolTable} (hv : s.SeenBy table u)
  (n : Tree)
include hm ho hv

lemma any_accepts :
    ids.any (Matcher.accepts u table · n) = Item.satAny h (items.map Item.plainDots) n := by
  induction hm with
  | nil => rfl
  | cons hi hm ih =>
    rw [List.any_cons, List.map_cons, Item.satAny, hi.accepts (ho _ List.mem_cons_self) hv,
      ih fun j hj => ho j (List.mem_cons_of_mem _ hj)]

lemma all_accepts :
    ids.all (Matcher.accepts u table · n) = Item.satAll h (items.map Item.plainDots) n := by
  induction hm with
  | nil => rfl
  | cons hi hm ih =>
    rw [List.all_cons, List.map_cons, Item.satAll, hi.accepts (ho _ List.mem_cons_self) hv,
      ih fun j hj => ho j (List.mem_cons_of_mem _ hj)]

lemma find?_stores :
    (ids.find? (Matcher.accepts u table · n)).toList.flatMap (Matcher.stores u table · n) =
      Item.activeFirst h (items.map Item.plainDots) n := by
  induction hm with
  | nil => rfl
  | cons hi hm ih =>
    have hi' := ho _ List.mem_cons_self
    rw [List.find?_cons, List.map_cons, Item.activeFirst, ← hi.accepts hi' hv]
    split_ifs with ha
    · simp [ha, hi.stores hi' hv]
    · simpa [ha] using ih fun j hj => ho j (List.mem_cons_of_mem _ hj)

lemma flatMap_stores :
    ids.flatMap (Matcher.stores u table · n) = Item.activeAll h (items.map Item.plainDots) n := by
  induction hm with
  | nil => rfl
  | cons hi hm ih =>
    rw [List.flatMap_cons, List.map_cons, Item.activeAll, hi.stores (ho _ List.mem_cons_self) hv,
      ih fun j hj => ho j (List.mem_cons_of_mem _ hj)]

omit ho in
/-- Matchers that capture nothing may be left out. -/
lemma flatMap_extracting :
    (s.extracting ids).flatMap (Matcher.stores u table · n) =
      ids.flatMap (Matcher.stores u table · n) := by
  induction hm with
  | nil => rfl
  | @cons id i ids items hi hm ih =>
    rw [List.flatMap_cons, ← ih, extracting, List.filter_cons]
    split_ifs with he
    · rfl
    · have hnil : Matcher.stores u table id n = [] := by
        rw [Matcher.stores_of_suffix hv.numbered hv.matchers hi.lt]
        exact Matcher.stores_eq_nil (by simpa [extracts] using he) u n
      rw [hnil, List.nil_append, extracting]

end Items

/-- Nothing is stored where no matcher captures anything. -/
lemma stores_eq_nil_of_extracting {ids : List Id} {items : List Item}
    (hm : List.Forall₂ (s.Means h) ids items) {table : List Matcher} {u : SymbolTable}
    (hv : s.SeenBy table u) (he : s.extracting ids = []) (n : Tree) :
    ∀ id ∈ ids, Matcher.stores u table id n = [] := by
  have hall := flatMap_extracting hm hv n
  rw [he, List.flatMap_nil] at hall
  exact List.flatMap_eq_nil_iff.mp hall.symm

lemma partsMean_anyOf {tag : Item.Tag} {ids : List Id} {items : List Item}
    (hm : List.Forall₂ (s.Means h) ids items) :
    s.PartsMean h (.anyOf tag items) (s.anyOfParts ids) := by
  refine ⟨fun ho table u hv n => ?_,fun ho table u hv n => ?_⟩
  · have hall := any_accepts hm (fun c hc => ho.inner hc) hv n
    simp [anyOfParts, Condition.holds, hall, Item.plainDots, Item.listPlainDots_eq_map ho.tidy,
      Item.sat, Item.negated, Item.tag]
  · have hall := find?_stores hm (fun c hc => ho.inner hc) hv n
    have hextr : (s.anyOfParts ids).extractions.flatMap
        (Extraction.stores (Matcher.accepts u table) (Matcher.stores u table) n) =
          Item.activeFirst h (items.map Item.plainDots) n := by
      rw [anyOfParts, ← hall]
      split_ifs with he
      · have hnil := stores_eq_nil_of_extracting hm hv (List.isEmpty_iff.mp he) n
        cases hf : ids.find? (Matcher.accepts u table · n) with
        | none => rfl
        | some id => simp [hnil id (List.mem_of_find?_eq_some hf)]
      · simp [Extraction.stores]
    rw [hextr]
    cases hneg : tag.negated <;> simp [Item.isTypedHole, Item.plainDots,
      Item.listPlainDots_eq_map ho.tidy, Item.active, Item.negated, Item.tag, hneg]

lemma partsMean_allOf {tag : Item.Tag} {ids : List Id} {items : List Item}
    (hm : List.Forall₂ (s.Means h) ids items) :
    s.PartsMean h (.allOf tag items) (s.allOfParts ids) := by
  refine ⟨fun ho table u hv n => ?_,fun ho table u hv n => ?_⟩
  · have hall := all_accepts hm (fun c hc => ho.inner hc) hv n
    simp [allOfParts, Condition.holds, hall, Item.plainDots, Item.listPlainDots_eq_map ho.tidy,
      Item.sat, Item.negated, Item.tag]
  · have hall := flatMap_stores hm (fun c hc => ho.inner hc) hv n
    have hextr : (s.allOfParts ids).extractions.flatMap
        (Extraction.stores (Matcher.accepts u table) (Matcher.stores u table) n) =
          Item.activeAll h (items.map Item.plainDots) n := by
      rw [allOfParts, ← hall, ← flatMap_extracting hm hv n]
      split_ifs with he
      · simp [List.isEmpty_iff.mp he]
      · simp [Extraction.stores]
    rw [hextr]
    cases hneg : tag.negated <;> simp [Item.isTypedHole, Item.plainDots,
      Item.listPlainDots_eq_map ho.tidy, Item.active, Item.negated, Item.tag, hneg]

end Compilation
end TreeRules
