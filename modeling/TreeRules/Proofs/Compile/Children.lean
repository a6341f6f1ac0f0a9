import TreeRules.Proofs.Compile.Sound

/-! The children of a node. Their number and the conditions on them say together what their items
describe, and they store what their items capture. -/
namespace TreeRules
namespace Compilation

open Matcher (Id ChildCondition Condition Extraction)

variable {h : Option Hierarchy} {asked : List Item} {s t : Compilation} {id : Id} {i : Item}

/-- Whether so many children can be told apart by the items. -/
def fits (items : List Item) (count : Nat) : Bool :=
  match items.findIdx? Item.isEllipsis with
  | some start => start ≤ count
  | none => count == items.length

lemma holds_countCondition (items : List Item) (u : SymbolTable) (refers : Id → Tree → Bool)
    (proc : List ChildCondition) (n : Tree) :
    (countCondition items).holds u refers proc n = fits items n.children.length := by
  rw [countCondition, fits]
  cases items.findIdx? Item.isEllipsis <;> rfl

lemma fits_cons_zero {items : List Item} (hi : i.isEllipsis = false) :
    fits (i :: items) 0 = false := by
  rw [fits, List.findIdx?_cons, hi]
  cases items.findIdx? Item.isEllipsis <;> simp

lemma fits_cons_succ {items : List Item} (hi : i.isEllipsis = false) (count : Nat) :
    fits (i :: items) (count + 1) = fits items count := by
  rw [fits, fits, List.findIdx?_cons, hi]
  cases items.findIdx? Item.isEllipsis <;> simp

section Children

variable {table : List Matcher} {u : SymbolTable} {index : Nat}

/-- A child that is no ellipsis asks of its node what its item describes. -/
lemma all_compileChild (hi : i.Orderly) (he : i.isEllipsis = false)
    (hn : i.isSingleHole = true → i.negated = false)
    (hm : i.isTested = true → (compileItem i s).2.Means h (compileItem i s).1 i)
    (hv : (compileChild index i s).2.SeenBy table u) {n m : Tree}
    (hc : n.children[index]? = some m) :
    (compileChild index i s).1.conditions.all (·.holds u (Matcher.accepts u table) n) =
      i.plainDots.sat h m := by
  cases i with
  | untypedHole t hole ellipsis =>
    obtain rfl : ellipsis = false := he
    have ht : t.negated = false := hn rfl
    simp [compileChild, Item.childRole, Item.plainDots, Item.sat, ht]
  | typedHole t type hole ellipsis =>
    obtain rfl : ellipsis = false := he
    simp only [compileChild, Item.childRole] at hv ⊢
    simp [ChildCondition.holds, hc, (hm rfl).accepts hi hv]
  | rest t => cases he
  | fixed | symbolRange | anyOf | allOf =>
    simp only [compileChild, Item.childRole] at hv ⊢
    simp [ChildCondition.holds, hc, (hm rfl).accepts hi hv]

lemma flatMap_nested (hi : i.Orderly) (hm : t.Means h id i) (hv : t.SeenBy table u) (n : Tree) :
    (if t.extracts id then [Extraction.nested index id] else []).flatMap
        (Extraction.stores (Matcher.accepts u table) (Matcher.stores u table) n) =
      n.children[index]?.toList.flatMap fun m => i.plainDots.active h m := by
  have hst : Matcher.stores u table id = i.plainDots.active h := funext (hm.stores hi hv)
  by_cases he : t.extracts id = true
  · simp [he, Extraction.stores, hst]
  · -- A matcher that captures nothing may be left out.
    have hnil : ∀ m, i.plainDots.active h m = [] := by
      intro m
      rw [← hm.stores hi hv, Matcher.stores_of_suffix hv.numbered hv.matchers hm.lt]
      exact Matcher.stores_eq_nil (by simpa [extracts] using he) u m
    simp [he, hnil]

/-- A child that is no ellipsis stores what its item captures. -/
lemma flatMap_compileChild (hi : i.Orderly) (he : i.isEllipsis = false)
    (hm : i.isTested = true → (compileItem i s).2.Means h (compileItem i s).1 i)
    (hv : (compileChild index i s).2.SeenBy table u) (n : Tree) :
    (compileChild index i s).1.extractions.flatMap
        (Extraction.stores (Matcher.accepts u table) (Matcher.stores u table) n) =
      i.plainDots.childActive (i.plainDots.active h) (n.children.drop index) := by
  cases i with
  | untypedHole t hole ellipsis | typedHole t type hole ellipsis =>
    obtain rfl : ellipsis = false := he
    simp [compileChild, Item.childRole, Item.plainDots, Item.childActive, Item.asHole?,
      Item.isEllipsis, Extraction.stores]
  | rest t => cases he
  | fixed | symbolRange | anyOf | allOf =>
    simp only [compileChild, Item.childRole] at hv ⊢
    rw [flatMap_nested hi (hm rfl) hv n, ← List.head?_drop]
    rfl

/-- An ellipsis asks of all remaining children what it says, negated or not. -/
lemma all_compileChild_ellipsis (hs : s.Sound h asked) (he : i.isEllipsis = true)
    (hv : (compileChild index i s).2.SeenBy table u) (n : Tree) :
    (compileChild index i s).1.conditions.all (·.holds u (Matcher.accepts u table) n) =
      i.plainEllipsis.satRemaining h (n.children.drop index) := by
  cases i with
  | typedHole t type hole ellipsis =>
    obtain rfl : ellipsis = true := he
    simp only [compileChild, Item.childRole] at hv ⊢
    have ha := funext (hs.admits hv.symbols)
    simp [ChildCondition.holds, ha, Item.plainEllipsis, Item.withTag, Item.satRemaining,
      Item.negated, Item.tag]
  | untypedHole t hole ellipsis =>
    obtain rfl : ellipsis = true := he
    rfl
  | rest t => rfl
  | fixed | symbolRange | anyOf | allOf => cases he

lemma flatMap_compileChild_ellipsis (he : i.isEllipsis = true) (n : Tree) :
    (compileChild index i s).1.extractions.flatMap
        (Extraction.stores (Matcher.accepts u table) (Matcher.stores u table) n) =
      Item.activeChildren h [i.plainEllipsis] (n.children.drop index) := by
  cases i with
  | untypedHole t hole ellipsis | typedHole t type hole ellipsis =>
    obtain rfl : ellipsis = true := he
    rfl
  | rest t => simp [compileChild, Item.childRole, Item.plainEllipsis, Item.withTag,
      Item.activeChildren, Item.childActive, Item.asHole?, Item.active]
  | fixed | symbolRange | anyOf | allOf => cases he

end Children

lemma Sound.compileChild (hs : s.Sound h asked) (hi : i.isTested = true → Compiles h asked i)
    (index : Nat) : (compileChild index i s).2.Sound h asked := by
  rw [Compilation.compileChild]
  cases hrole : i.childRole with
  | any hole | remaining hole | free => exact hs
  | remainingOf type hole => exact hs.typeTest type
  | captured hole | nested => exact (hi (by rw [Item.isTested, hrole]) s hs).1

lemma Sound.compileChildren (hs : s.Sound h asked) {items : List Item}
    (ih : ∀ i ∈ items, i.isTested = true → Compiles h asked i) (index : Nat) :
    (compileChildren index items s).2.Sound h asked := by
  induction items generalizing index s with
  | nil => exact hs
  | cons i items ihi =>
    rw [compileChildren_cons]
    exact ihi (hs.compileChild (ih i List.mem_cons_self) index)
      (fun j hj => ih j (List.mem_cons_of_mem _ hj)) _

/-- An ellipsis in last place is the only one. -/
lemma eq_nil_of_isEllipsis {items : List Item}
    (hd : ∀ c ∈ (i :: items).dropLast, c.isEllipsis = false) (he : i.isEllipsis = true) :
    items = [] := by
  cases items with
  | nil => rfl
  | cons j items =>
    rw [hd i (by simp [List.dropLast])] at he
    cases he

lemma forall_mem_dropLast_tail {P : Item → Prop} {items : List Item}
    (hd : ∀ c ∈ (i :: items).dropLast, P c) : ∀ c ∈ items.dropLast, P c := by
  cases items with
  | nil => simp
  | cons j items => exact fun c hc => hd c (List.mem_cons_of_mem _ hc)

section Children

variable {items : List Item} {table : List Matcher} {u : SymbolTable} {index : Nat}

lemma seenBy_compileChild (hv : (compileChildren index (i :: items) s).2.SeenBy table u) :
    (compileChild index i s).2.SeenBy table u ∧
      (compileChildren (index + 1) items (compileChild index i s).2).2.SeenBy table u := by
  rw [compileChildren_cons] at hv
  exact ⟨(growsTo_compileChildren (fun j _ => growsTo_compileItem j) _ _).seenBy hv,hv⟩

variable (hd : ∀ c ∈ items.dropLast, c.isEllipsis = false) (ho : ∀ c ∈ items, c.Orderly)
  (ih : ∀ c ∈ items, c.isTested = true → Compiles h asked c)
  (ht : ∀ c ∈ items, c.isTested = true → c.TestedIn asked) (hs : s.Sound h asked)
  (hv : (compileChildren index items s).2.SeenBy table u)
include hd ho ih ht hs hv

/-- The number of children and the conditions on them together say what the items describe. -/
lemma all_compileChildren (hn : ∀ c ∈ items, c.isSingleHole = true → c.negated = false)
    (n : Tree) :
    (fits items (n.children.drop index).length &&
        (compileChildren index items s).1.conditions.all
          (·.holds u (Matcher.accepts u table) n)) =
      Item.satChildren h (Item.listPlainDots items) (n.children.drop index) := by
  induction items generalizing index s with
  | nil =>
    cases hc : n.children.drop index <;>
      simp [fits, compileChildren, Item.listPlainDots, Item.satChildren]
  | cons i items ihi =>
    obtain ⟨hv1,hv2⟩ := seenBy_compileChild hv
    by_cases he : i.isEllipsis = true
    · obtain rfl := eq_nil_of_isEllipsis hd he
      simp [compileChildren_cons, compileChildren_nil, all_compileChild_ellipsis hs he hv1, fits,
        he, Item.listPlainDots, Item.satChildren, Item.isEllipsis_plainEllipsis]
    · have he : i.isEllipsis = false := by simpa using he
      have hi := ih i List.mem_cons_self
      have hmeans := fun h => (hi h s hs).2 (ht i List.mem_cons_self h)
      have hrest := ihi (forall_mem_dropLast_tail hd) (fun c hc => ho c (List.mem_cons_of_mem _ hc))
        (fun c hc => ih c (List.mem_cons_of_mem _ hc))
        (fun c hc => ht c (List.mem_cons_of_mem _ hc))
        (hs.compileChild hi index) hv2 (fun c hc => hn c (List.mem_cons_of_mem _ hc))
      rw [List.drop_add_one_eq_tail_drop] at hrest
      cases hc : n.children.drop index with
      | nil => simp [fits_cons_zero he, Item.listPlainDots, he, Item.satChildren,
          Item.isEllipsis_plainDots]
      | cons m ns =>
        have hm : n.children[index]? = some m := by rw [← List.head?_drop, hc, List.head?_cons]
        have hfirst := all_compileChild (ho i List.mem_cons_self) he (hn i List.mem_cons_self)
          hmeans hv1 hm
        rw [hc, List.tail_cons] at hrest
        simp only [compileChildren_cons, List.all_append, hfirst, List.length_cons,
          fits_cons_succ he, Item.listPlainDots, he, Item.satChildren]
        rw [← hrest]
        simp [Item.isEllipsis_plainDots, he, Bool.and_left_comm]

/-- The children store what their items capture. -/
lemma flatMap_compileChildren (n : Tree) :
    (compileChildren index items s).1.extractions.flatMap
        (Extraction.stores (Matcher.accepts u table) (Matcher.stores u table) n) =
      Item.activeChildren h (Item.listPlainDots items) (n.children.drop index) := by
  induction items generalizing index s with
  | nil => rfl
  | cons i items ihi =>
    obtain ⟨hv1,hv2⟩ := seenBy_compileChild hv
    by_cases he : i.isEllipsis = true
    · obtain rfl := eq_nil_of_isEllipsis hd he
      have hfirst := @flatMap_compileChild_ellipsis h s i table u index he n
      simp [compileChildren_cons, compileChildren_nil, hfirst, he, Item.listPlainDots]
    · have he : i.isEllipsis = false := by simpa using he
      have hi := ih i List.mem_cons_self
      have hmeans := fun h => (hi h s hs).2 (ht i List.mem_cons_self h)
      have hrest := ihi (forall_mem_dropLast_tail hd) (fun c hc => ho c (List.mem_cons_of_mem _ hc))
        (fun c hc => ih c (List.mem_cons_of_mem _ hc))
        (fun c hc => ht c (List.mem_cons_of_mem _ hc))
        (hs.compileChild hi index) hv2
      have hfirst := flatMap_compileChild (ho i List.mem_cons_self) he hmeans hv1 n
      rw [compileChildren_cons, List.flatMap_append, hfirst, hrest]
      simp [Item.listPlainDots, he, Item.activeChildren]

end Children

end Compilation
end TreeRules
