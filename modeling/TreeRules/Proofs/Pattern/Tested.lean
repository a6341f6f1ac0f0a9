import TreeRules.Compile.Matcher
import TreeRules.Proofs.Pattern.Orderly

/-! The parts of an item that are tested by a matcher of their own. Not every item inside an item
is: a hole that takes any child asks nothing of it, and an ellipsis is tested by its parent. Items
that are the same up to places and mode have the same tested parts. -/
namespace TreeRules
namespace Item

/-- Whether a matcher tests the item where it stands among the children of a node. -/
def isTested (i : Item) : Bool :=
  match i.childRole with
  | .captured _ | .nested => true
  | .any _ | .remaining _ | .remainingOf _ _ | .free => false

/-- The items directly inside that are tested. -/
def testedInner : Item → List Item
  | fixed _ _ _ children => children.filter isTested
  | i => i.inner

mutual

/-- The item and all items inside it that are tested. -/
def testedParts : Item → List Item
  | fixed t type data children => fixed t type data children :: childTestedParts children
  | anyOf t items => anyOf t items :: listTestedParts items
  | allOf t items => allOf t items :: listTestedParts items
  | i => [i]

def listTestedParts : List Item → List Item
  | [] => []
  | i :: items => i.testedParts ++ listTestedParts items

def childTestedParts : List Item → List Item
  | [] => []
  | i :: items => (if i.isTested then i.testedParts else []) ++ childTestedParts items

end

lemma mem_listTestedParts {j : Item} {items : List Item} :
    j ∈ listTestedParts items ↔ ∃ i ∈ items, j ∈ i.testedParts := by
  induction items with
  | nil => simp [listTestedParts]
  | cons i items ih => simp [listTestedParts, ih]

lemma mem_childTestedParts {j : Item} {items : List Item} :
    j ∈ childTestedParts items ↔ ∃ i ∈ items.filter isTested, j ∈ i.testedParts := by
  induction items with
  | nil => simp [childTestedParts]
  | cons i items ih =>
    rw [childTestedParts, List.mem_append, ih]
    cases hi : i.isTested <;> simp [hi]

lemma mem_testedParts {i j : Item} :
    j ∈ i.testedParts ↔ j = i ∨ ∃ k ∈ i.testedInner, j ∈ k.testedParts := by
  cases i <;> simp [testedParts, testedInner, inner, mem_listTestedParts, mem_childTestedParts]

lemma self_mem_testedParts (i : Item) : i ∈ i.testedParts := mem_testedParts.mpr (Or.inl rfl)

lemma mem_inner_of_mem_testedInner {i k : Item} (h : k ∈ i.testedInner) : k ∈ i.inner := by
  cases i with
  | fixed t type data children => exact (List.mem_filter.mp h).1
  | typedHole | untypedHole | symbolRange | anyOf | allOf | rest => exact h

/-- Induction on an item that says nothing about its form. -/
lemma ind_inner {P : Item → Prop} (h : ∀ i : Item, (∀ k ∈ i.inner, P k) → P i) (i : Item) :
    P i := by
  induction i using Item.ind with
  | fixed t type data children ih => exact h _ ih
  | anyOf t items ih => exact h _ ih
  | allOf t items ih => exact h _ ih
  | typedHole | untypedHole | symbolRange | rest =>
    exact h _ fun _ hk => (List.not_mem_nil hk).elim

lemma HasIdentifiers.testedPart {i : Item} (h : i.HasIdentifiers) {j : Item}
    (hj : j ∈ i.testedParts) : j.HasIdentifiers := by
  induction i using ind_inner with
  | h i ih =>
    rcases mem_testedParts.mp hj with rfl | ⟨k,hk,hj⟩
    · exact h
    · have hin := mem_inner_of_mem_testedInner hk
      exact ih k hin (h.inner hin) hj

/-! Places and modes. -/

lemma core_eq_of_placeless_eq {i j : Item} (h : i.placeless = j.placeless) : i.core = j.core := by
  rw [core, core, ← negated_placeless i, ← negated_placeless j, h]

lemma isTested_placeless (i : Item) : i.placeless.isTested = i.isTested := by
  cases i with
  | typedHole t type hole ellipsis => cases ellipsis <;> rfl
  | untypedHole t hole ellipsis => cases ellipsis <;> rfl
  | fixed | symbolRange | anyOf | allOf | rest => rfl

lemma testedInner_core (i : Item) : i.core.testedInner = i.testedInner.map placeless := by
  have hp : isTested ∘ placeless = isTested := funext isTested_placeless
  cases i <;> simp [core, placeless, withTag, testedInner, inner, List.filter_map, hp]

/-- Items that are the same up to places and mode have, up to places and modes, the same tested
parts. -/
lemma mem_testedParts_of_core_eq {i j k : Item} (h : i.core = j.core) (hk : k ∈ i.testedParts) :
    ∃ l ∈ j.testedParts, l.core = k.core := by
  induction i using ind_inner generalizing j with
  | h i ih =>
    rcases mem_testedParts.mp hk with rfl | ⟨i',hi',hk⟩
    · exact ⟨j,j.self_mem_testedParts,h.symm⟩
    · have hmem : i'.placeless ∈ j.testedInner.map placeless := by
        rw [← testedInner_core, ← h, testedInner_core]
        exact List.mem_map_of_mem hi'
      obtain ⟨j',hj',hplaceless⟩ := List.mem_map.mp hmem
      obtain ⟨l,hl,hcore⟩ := ih i' (mem_inner_of_mem_testedInner hi')
        (core_eq_of_placeless_eq hplaceless.symm) hk
      exact ⟨l,mem_testedParts.mpr (Or.inr ⟨j',hj',hl⟩),hcore⟩

/-- The item is tested in one of `asked`, up to places and mode. -/
def TestedIn (asked : List Item) (i : Item) : Prop :=
  ∃ j ∈ asked.flatMap testedParts, j.core = i.core

lemma testedIn_of_mem {asked : List Item} {i : Item} (h : i ∈ asked) : TestedIn asked i :=
  ⟨i,List.mem_flatMap.mpr ⟨i,h,i.self_mem_testedParts⟩,rfl⟩

lemma TestedIn.of_core_eq {asked : List Item} {i j : Item} (h : TestedIn asked i)
    (hcore : i.core = j.core) : TestedIn asked j := by
  obtain ⟨k,hk,hki⟩ := h
  exact ⟨k,hk,hki.trans hcore⟩

lemma testedParts_trans {i j k : Item} (hj : j ∈ i.testedParts) (hk : k ∈ j.testedParts) :
    k ∈ i.testedParts := by
  induction i using ind_inner with
  | h i ih =>
    rcases mem_testedParts.mp hj with rfl | ⟨i',hi',hj⟩
    · exact hk
    · exact mem_testedParts.mpr (Or.inr ⟨i',hi',ih i' (mem_inner_of_mem_testedInner hi') hj⟩)

/-- What is tested in an item is tested where the item is. -/
lemma TestedIn.inner {asked : List Item} {i k : Item} (h : TestedIn asked i)
    (hk : k ∈ i.testedInner) : TestedIn asked k := by
  obtain ⟨j,hj,hcore⟩ := h
  obtain ⟨top,htop,hj⟩ := List.mem_flatMap.mp hj
  have hmem : k ∈ i.testedParts := mem_testedParts.mpr (Or.inr ⟨k,hk,k.self_mem_testedParts⟩)
  obtain ⟨l,hl,hlk⟩ := mem_testedParts_of_core_eq hcore.symm hmem
  exact ⟨l,List.mem_flatMap.mpr ⟨top,htop,testedParts_trans hj hl⟩,hlk⟩

/-! Canonical texts. -/

lemma mode_placeless (i : Item) : i.placeless.mode = i.mode := by cases i <;> rfl

lemma listText_placeless {items : List Item} (ih : ∀ i ∈ items, i.placeless.body = i.body) :
    listText (items.map placeless) = listText items := by
  induction items with
  | nil => rfl
  | cons i items ihi =>
    obtain ⟨hi,hrest⟩ := List.forall_mem_cons.mp ih
    cases items with
    | nil => simp [listText, mode_placeless, hi]
    | cons j items =>
      have hlist := ihi hrest
      simp only [List.map_cons] at hlist ⊢
      rw [listText, listText, mode_placeless, hi, hlist]

lemma body_placeless (i : Item) : i.placeless.body = i.body := by
  induction i using Item.ind with
  | fixed t type data children ih =>
    rw [placeless, listPlaceless_eq_map, body, body, listText_placeless ih]
    cases children <;> rfl
  | anyOf t items ih => simp [placeless, body, Tag.bang, listText_placeless ih]
  | allOf t items ih => simp [placeless, body, Tag.bang, listText_placeless ih]
  | typedHole | untypedHole | symbolRange | rest => rfl

/-- A canonical text tells nothing of places and of the item's own mode. -/
lemma body_core (i : Item) : i.core.body = i.body := by
  rw [← body_placeless i]
  cases i <;> rfl

/-- Among the items, those of one canonical text are the same up to places and mode. -/
def TextsTell (items : List Item) : Prop :=
  ∀ i ∈ items, ∀ j ∈ items, i.body = j.body → i.core = j.core

/-- No part that is tested in the item has the text of a different part of `asked`. -/
def ApartFrom (asked : List Item) (k : Item) : Prop :=
  ∀ j ∈ k.testedParts, ∀ i ∈ asked.flatMap testedParts, i.body = j.body → i.core = j.core

namespace ApartFrom

variable {asked : List Item} {k : Item}

lemma of_body_ne (h : ∀ j ∈ k.testedParts, ∀ i ∈ asked.flatMap testedParts, i.body ≠ j.body) :
    k.ApartFrom asked :=
  fun j hj i hi hbody => (h j hj i hi hbody).elim

lemma inner (h : k.ApartFrom asked) {j : Item} (hj : j ∈ k.testedInner) : j.ApartFrom asked :=
  fun l hl => h l (mem_testedParts.mpr (Or.inr ⟨j,hj,hl⟩))

/-- What is asked for by the text of the item is the item. -/
lemma core_eq (h : k.ApartFrom asked) {i : Item} (hi : TestedIn asked i)
    (hbody : i.body = k.body) : i.core = k.core := by
  obtain ⟨j,hj,hcore⟩ := hi
  rw [← hcore]
  refine h k k.self_mem_testedParts j hj ?_
  rw [← body_core, hcore, body_core, hbody]

end ApartFrom

end Item
end TreeRules
