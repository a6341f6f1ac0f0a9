import TreeRules.Proofs.Pattern.Meaning

/-! Orderly items: ellipses stand in last place among the children of nodes, and no untyped hole is
negated. This is all that compiling asks of an item, and like its meaning it has nothing to do with
places or the item's own mode. -/
namespace TreeRules.Item

/-- An untyped hole for one child. -/
def isSingleHole : Item → Bool
  | untypedHole _ _ ellipsis => !ellipsis
  | _ => false

/-- The items directly inside stand where they may. -/
def Tidy : Item → Prop
  | fixed _ _ _ children =>
    (∀ c ∈ children.dropLast, c.isEllipsis = false) ∧
      ∀ c ∈ children, c.isSingleHole = true → c.negated = false
  | anyOf _ items | allOf _ items => ∀ c ∈ items, c.isEllipsis = false
  | _ => True

/-- All items inside stand where they may. -/
def Orderly (i : Item) : Prop := ∀ j ∈ i.parts, j.Tidy

lemma Orderly.tidy {i : Item} (h : i.Orderly) : i.Tidy := h i i.self_mem_parts

lemma Orderly.inner {i k : Item} (h : i.Orderly) (hk : k ∈ i.inner) : k.Orderly :=
  fun j hj => h j (mem_parts_of_mem_inner hk hj)

lemma orderly_iff {i : Item} : i.Orderly ↔ i.Tidy ∧ ∀ k ∈ i.inner, k.Orderly := by
  refine ⟨fun h => ⟨h.tidy,fun k hk => h.inner hk⟩,?_⟩
  rintro ⟨ht,hin⟩ j hj
  rcases mem_parts.mp hj with rfl | ⟨k,hk,hj⟩
  · exact ht
  · exact hin k hk j hj

@[simp] lemma isSingleHole_placeless (i : Item) : i.placeless.isSingleHole = i.isSingleHole := by
  cases i <;> rfl

@[simp] lemma inner_placeless (i : Item) : i.placeless.inner = i.inner.map placeless := by
  cases i <;> simp [placeless, inner]

lemma tidy_placeless (i : Item) : i.placeless.Tidy ↔ i.Tidy := by
  cases i <;> simp [placeless, Tidy, List.dropLast_eq_take, ← List.map_take]

lemma tidy_withTag (t : Tag) (i : Item) : (i.withTag t).Tidy ↔ i.Tidy := by
  cases i <;> exact Iff.rfl

lemma orderly_placeless_of_inner {i : Item}
    (ih : ∀ k ∈ i.inner, (k.placeless.Orderly ↔ k.Orderly)) :
    i.placeless.Orderly ↔ i.Orderly := by
  rw [orderly_iff, orderly_iff, tidy_placeless, inner_placeless, List.forall_mem_map]
  exact and_congr_right fun _ => forall₂_congr ih

lemma orderly_placeless (i : Item) : i.placeless.Orderly ↔ i.Orderly := by
  induction i using Item.ind with
  | fixed t type data children ih => exact orderly_placeless_of_inner ih
  | anyOf t items ih => exact orderly_placeless_of_inner ih
  | allOf t items ih => exact orderly_placeless_of_inner ih
  | typedHole | untypedHole | symbolRange | rest =>
    exact orderly_placeless_of_inner (by simp [inner])

lemma orderly_core (i : Item) : i.core.Orderly ↔ i.Orderly := by
  rw [core, orderly_iff, tidy_withTag, inner_withTag, ← orderly_iff, orderly_placeless]

/-! Items with one core mean the same. -/

lemma plainDots_withTag (t : Tag) (i : Item) : (i.withTag t).plainDots = i.plainDots.withTag t := by
  cases i <;> rfl

@[simp] lemma tag_plainDots (i : Item) : i.plainDots.tag = i.tag := by cases i <;> rfl

lemma plainEllipsis_placeless (i : Item) :
    i.placeless.plainEllipsis = i.plainEllipsis.placeless := by
  cases i <;> simp [plainEllipsis, placeless, withTag, tag]

lemma listPlainDots_placeless {items : List Item}
    (ih : ∀ i ∈ items, i.placeless.plainDots = i.plainDots.placeless) :
    listPlainDots (items.map placeless) = (listPlainDots items).map placeless := by
  induction items with
  | nil => rfl
  | cons i items ihi =>
    have hr := ihi fun j hj => ih j (by simp [hj])
    by_cases hi : i.isEllipsis
    · simp [listPlainDots, hi, hr, plainEllipsis_placeless]
    · simp [listPlainDots, hi, hr, ih i (by simp)]

lemma plainDots_placeless (i : Item) : i.placeless.plainDots = i.plainDots.placeless := by
  induction i using Item.ind with
  | fixed t type data children ih => simp [placeless, plainDots, listPlainDots_placeless ih]
  | anyOf t items ih => simp [placeless, plainDots, listPlainDots_placeless ih]
  | allOf t items ih => simp [placeless, plainDots, listPlainDots_placeless ih]
  | typedHole | untypedHole | symbolRange | rest => rfl

lemma plainDots_core (i : Item) : i.core.plainDots = i.plainDots.core := by
  simp [core, plainDots_withTag, plainDots_placeless, negated]

lemma sat_core (h : Option Hierarchy) (i : Item) (n : Tree) : i.core.sat h n = i.sat h n := by
  rw [core, sat_withTag h (by simp), sat_placeless]

lemma active_core (h : Option Hierarchy) (i : Item) (n : Tree) :
    i.core.active h n = i.active h n := by
  rw [core, active_withTag h (by simp), active_placeless]

section SameCore

variable {i j : Item} (hc : i.core = j.core)
include hc

lemma orderly_iff_of_core_eq : i.Orderly ↔ j.Orderly := by
  rw [← orderly_core i, hc, orderly_core]

lemma sat_plainDots_eq_of_core_eq (h : Option Hierarchy) (n : Tree) :
    i.plainDots.sat h n = j.plainDots.sat h n := by
  rw [← sat_core h i.plainDots, ← plainDots_core, hc, plainDots_core, sat_core]

lemma active_plainDots_eq_of_core_eq (h : Option Hierarchy) (n : Tree) :
    i.plainDots.active h n = j.plainDots.active h n := by
  rw [← active_core h i.plainDots, ← plainDots_core, hc, plainDots_core, active_core]

end SameCore

end TreeRules.Item
