import TreeRules.Capture
import TreeRules.Hierarchy.Basic
import TreeRules.Proofs.Pattern.Parts
import Mathlib.Tactic.Common

/-! What an item means, read off the item itself: which nodes it describes, and which captures its
holes make of such a node. Places and an item's own mode have no part in either. -/
namespace TreeRules

/-- Whether a type counts as another: by the hierarchy, or by name if there is none. -/
def countsAs : Option Hierarchy → (sub sup : String) → Bool
  | none, sub, sup => sub == sup
  | some h, sub, sup => h.isA sub sup

/-- Whether the data of a node is what a data position asks for. -/
def Datum.sat : Option Datum → Option String → Bool
  | none, _ => true
  | some (.literal text), data => data == some text
  | some (.hole _), data => data.isSome

namespace Item

/-- Whether a node is a leaf whose data is one character from `first` to `last`. -/
def isSymbol (first last : Char) (n : Tree) : Bool :=
  n.children.isEmpty && n.data.any fun text =>
    text.length == 1 && text.toList.all fun c => first ≤ c && c ≤ last

/-- Whether all remaining children are what an ellipsis asks for. -/
def satRemaining (h : Option Hierarchy) (i : Item) (ns : List Tree) : Bool :=
  (match i with
    | typedHole _ type _ _ => ns.all (countsAs h ·.type type)
    | _ => true) != i.negated

mutual

/-- Whether a node is what the item describes. -/
def sat (h : Option Hierarchy) : Item → Tree → Bool
  | fixed t type data children, n =>
    (countsAs h n.type type && Datum.sat data n.data && satChildren h children n.children) !=
      t.negated
  | typedHole t type _ _, n => countsAs h n.type type != t.negated
  | untypedHole t _ _, _ => !t.negated
  | symbolRange t first last _, n => isSymbol first last n != t.negated
  | anyOf t items, n => satAny h items n != t.negated
  | allOf t items, n => satAll h items n != t.negated
  | rest t, _ => !t.negated

/-- Whether the items describe the nodes one by one; an ellipsis in last place describes all nodes
that remain. -/
def satChildren (h : Option Hierarchy) : List Item → List Tree → Bool
  | [], ns => ns.isEmpty
  | i :: items, ns =>
    if items.isEmpty && i.isEllipsis then i.satRemaining h ns
    else match ns with
      | [] => false
      | n :: ns => i.sat h n && satChildren h items ns

/-- Whether some item describes the node. -/
def satAny (h : Option Hierarchy) : List Item → Tree → Bool
  | [], _ => false
  | i :: items, n => i.sat h n || satAny h items n

/-- Whether every item describes the node. -/
def satAll (h : Option Hierarchy) : List Item → Tree → Bool
  | [], _ => true
  | i :: items, n => i.sat h n && satAll h items n

end

/-- The hole that an item is, if it is one. -/
def asHole? : Item → Option Hole
  | typedHole _ _ hole _ | untypedHole _ hole _ => some hole
  | _ => none

/-- What a data position captures of a node. -/
def dataActive (data : Option Datum) (n : Tree) : List (Hole × Capture) :=
  match data with
  | some (.hole hole) => n.data.toList.map fun text => (hole,.data text)
  | _ => []

/-- What an item that stands for a child captures of the children from its place on: a hole its
child, an ellipsis all of them, and another item what it captures of its child. -/
def childActive (i : Item) (captures : Tree → List (Hole × Capture)) (ns : List Tree) :
    List (Hole × Capture) :=
  match i.asHole? with
  | some hole =>
    if i.isEllipsis then [(hole,.nodes ns)] else ns.head?.toList.map fun n => (hole,.nodes [n])
  | none => ns.head?.toList.flatMap captures

mutual

/-- The captures that the item's holes make of a node, in the order of their writing. Of
alternatives the first that describes the node counts. Under a negation nothing is captured, but a
negated typed hole captures its node. -/
def active (h : Option Hierarchy) : Item → Tree → List (Hole × Capture)
  | fixed t _ data children, n =>
    if t.negated then [] else dataActive data n ++ activeChildren h children n.children
  | typedHole _ _ hole _, n => [(hole,.node n)]
  | untypedHole t hole _, n => if t.negated then [] else [(hole,.node n)]
  | symbolRange t _ _ hole, n => if t.negated then [] else dataActive (hole.map .hole) n
  | anyOf t items, n => if t.negated then [] else activeFirst h items n
  | allOf t items, n => if t.negated then [] else activeAll h items n
  | rest _, _ => []

/-- The captures of items that stand for the given children, one by one. -/
def activeChildren (h : Option Hierarchy) : List Item → List Tree → List (Hole × Capture)
  | [], _ => []
  | i :: items, ns => childActive i (fun n => i.active h n) ns ++ activeChildren h items ns.tail

/-- The captures of the first item that describes the node. -/
def activeFirst (h : Option Hierarchy) : List Item → Tree → List (Hole × Capture)
  | [], _ => []
  | i :: items, n => if i.sat h n then i.active h n else activeFirst h items n

/-- The captures of all items. -/
def activeAll (h : Option Hierarchy) : List Item → Tree → List (Hole × Capture)
  | [], _ => []
  | i :: items, n => i.active h n ++ activeAll h items n

end

lemma activeFirst_eq_find? (h : Option Hierarchy) (items : List Item) (n : Tree) :
    activeFirst h items n = ((items.find? (·.sat h n)).toList.flatMap (·.active h n)) := by
  induction items with
  | nil => rfl
  | cons i items ih =>
    by_cases hi : i.sat h n
    · simp [activeFirst, hi]
    · simp [activeFirst, hi, ih]

lemma activeAll_eq_flatMap (h : Option Hierarchy) (items : List Item) (n : Tree) :
    activeAll h items n = items.flatMap (·.active h n) := by
  induction items with
  | nil => rfl
  | cons i items ih => simp [activeAll, ih]

/-! Meaning and places. -/

@[simp] lemma negated_placeless (i : Item) : i.placeless.negated = i.negated := by
  cases i <;> rfl

@[simp] lemma isEllipsis_placeless (i : Item) : i.placeless.isEllipsis = i.isEllipsis := by
  cases i <;> rfl

@[simp] lemma asHole?_placeless (i : Item) : i.placeless.asHole? = i.asHole? := by
  cases i <;> rfl

@[simp] lemma isEllipsis_withTag (t : Tag) (i : Item) :
    (i.withTag t).isEllipsis = i.isEllipsis := by
  cases i <;> rfl

lemma satRemaining_placeless (h : Option Hierarchy) (i : Item) (ns : List Tree) :
    i.placeless.satRemaining h ns = i.satRemaining h ns := by
  cases i <;> rfl

section Lists

variable {h : Option Hierarchy} {items : List Item}

lemma satChildren_placeless (ih : ∀ i ∈ items, ∀ n, i.placeless.sat h n = i.sat h n)
    (ns : List Tree) : satChildren h (items.map placeless) ns = satChildren h items ns := by
  induction items generalizing ns with
  | nil => rfl
  | cons i items ihi =>
    have hr := ihi fun j hj => ih j (by simp [hj])
    cases ns with
    | nil => simp [satChildren, satRemaining_placeless]
    | cons n ns => simp [satChildren, satRemaining_placeless, ih i (by simp) n, hr ns]

lemma satAny_placeless (ih : ∀ i ∈ items, ∀ n, i.placeless.sat h n = i.sat h n) (n : Tree) :
    satAny h (items.map placeless) n = satAny h items n := by
  induction items with
  | nil => rfl
  | cons i items ihi =>
    simp [satAny, ih i (by simp) n, ihi fun j hj => ih j (by simp [hj])]

lemma satAll_placeless (ih : ∀ i ∈ items, ∀ n, i.placeless.sat h n = i.sat h n) (n : Tree) :
    satAll h (items.map placeless) n = satAll h items n := by
  induction items with
  | nil => rfl
  | cons i items ihi =>
    simp [satAll, ih i (by simp) n, ihi fun j hj => ih j (by simp [hj])]

end Lists

lemma sat_placeless (h : Option Hierarchy) (i : Item) :
    ∀ n, i.placeless.sat h n = i.sat h n := by
  induction i using Item.ind with
  | fixed t type data children ih =>
    intro n
    simp [placeless, sat, satChildren_placeless ih]
  | anyOf t items ih =>
    intro n
    simp [placeless, sat, satAny_placeless ih]
  | allOf t items ih =>
    intro n
    simp [placeless, sat, satAll_placeless ih]
  | typedHole | untypedHole | symbolRange | rest => exact fun n => rfl

section Lists

variable {h : Option Hierarchy} {items : List Item}

lemma activeChildren_placeless (ih : ∀ i ∈ items, ∀ n, i.placeless.active h n = i.active h n)
    (ns : List Tree) : activeChildren h (items.map placeless) ns = activeChildren h items ns := by
  induction items generalizing ns with
  | nil => rfl
  | cons i items ihi =>
    have hr := ihi (fun j hj => ih j (by simp [hj])) ns.tail
    simp [activeChildren, childActive, ih i (by simp), hr]

lemma activeFirst_placeless (ih : ∀ i ∈ items, ∀ n, i.placeless.active h n = i.active h n)
    (n : Tree) : activeFirst h (items.map placeless) n = activeFirst h items n := by
  induction items with
  | nil => rfl
  | cons i items ihi =>
    simp [activeFirst, sat_placeless, ih i (by simp) n, ihi fun j hj => ih j (by simp [hj])]

lemma activeAll_placeless (ih : ∀ i ∈ items, ∀ n, i.placeless.active h n = i.active h n)
    (n : Tree) : activeAll h (items.map placeless) n = activeAll h items n := by
  induction items with
  | nil => rfl
  | cons i items ihi =>
    simp [activeAll, ih i (by simp) n, ihi fun j hj => ih j (by simp [hj])]

end Lists

lemma active_placeless (h : Option Hierarchy) (i : Item) :
    ∀ n, i.placeless.active h n = i.active h n := by
  induction i using Item.ind with
  | fixed t type data children ih =>
    intro n
    simp [placeless, active, activeChildren_placeless ih]
  | anyOf t items ih =>
    intro n
    simp [placeless, active, activeFirst_placeless ih]
  | allOf t items ih =>
    intro n
    simp [placeless, active, activeAll_placeless ih]
  | typedHole | untypedHole | symbolRange | rest => exact fun n => rfl

/-- Only the negation of an item's tag has a part in what the item describes. -/
lemma sat_withTag (h : Option Hierarchy) {t : Tag} {i : Item} (ht : t.negated = i.negated)
    (n : Tree) : (i.withTag t).sat h n = i.sat h n := by
  simp only [negated] at ht
  cases i <;> simp only [tag] at ht <;> simp [withTag, sat, ht]

lemma active_withTag (h : Option Hierarchy) {t : Tag} {i : Item} (ht : t.negated = i.negated)
    (n : Tree) : (i.withTag t).active h n = i.active h n := by
  simp only [negated] at ht
  cases i <;> simp only [tag] at ht <;> simp [withTag, active, ht]

/-! Negations that are not heeded. -/

/-- An ellipsis that is not negated. -/
def plainEllipsis (i : Item) : Item := i.withTag { i.tag with negated := false }

mutual

/-- The item with the negations of the ellipses inside it taken off. -/
def plainDots : Item → Item
  | fixed t type data children => fixed t type data (listPlainDots children)
  | anyOf t items => anyOf t (listPlainDots items)
  | allOf t items => allOf t (listPlainDots items)
  | i => i

def listPlainDots : List Item → List Item
  | [] => []
  | i :: items =>
    (if i.isEllipsis then i.plainEllipsis else i.plainDots) :: listPlainDots items

end

lemma isEllipsis_plainDots (i : Item) : i.plainDots.isEllipsis = i.isEllipsis := by
  cases i <;> rfl

lemma isEllipsis_plainEllipsis (i : Item) : i.plainEllipsis.isEllipsis = i.isEllipsis := by
  rw [plainEllipsis, isEllipsis_withTag]

lemma listPlainDots_eq_map {items : List Item} (he : ∀ i ∈ items, i.isEllipsis = false) :
    listPlainDots items = items.map plainDots := by
  induction items with
  | nil => rfl
  | cons i items ih =>
    simp [listPlainDots, he i List.mem_cons_self, ih fun j hj => he j (List.mem_cons_of_mem _ hj)]

/-- No ellipsis inside the item is negated. -/
def DotsNotNegated (i : Item) : Prop :=
  ∀ j ∈ i.parts, ∀ k ∈ j.inner, k.isEllipsis = true → k.negated = false

lemma DotsNotNegated.inner {i k : Item} (h : i.DotsNotNegated) (hk : k ∈ i.inner) :
    k.DotsNotNegated := fun j hj => h j (mem_parts_of_mem_inner hk hj)

lemma plainEllipsis_eq_self {i : Item} (h : i.negated = false) : i.plainEllipsis = i := by
  rw [plainEllipsis]
  have ht : ({ i.tag with negated := false } : Tag) = i.tag := by
    simp only [negated] at h
    cases ht : i.tag
    simp_all
  rw [ht, withTag_tag]

lemma listPlainDots_eq_self {items : List Item}
    (hd : ∀ i ∈ items, i.isEllipsis = true → i.negated = false)
    (ih : ∀ i ∈ items, i.plainDots = i) : listPlainDots items = items := by
  induction items with
  | nil => rfl
  | cons i items ihi =>
    have hr := ihi (fun j hj => hd j (by simp [hj])) fun j hj => ih j (by simp [hj])
    by_cases hi : i.isEllipsis
    · simp [listPlainDots, hi, hr, plainEllipsis_eq_self (hd i (by simp) hi)]
    · simp [listPlainDots, hi, hr, ih i (by simp)]

/-- Without a negated ellipsis inside there is nothing to take off. -/
lemma plainDots_eq_self {i : Item} (h : i.DotsNotNegated) : i.plainDots = i := by
  induction i using Item.ind with
  | fixed t type data children ih =>
    simp only [plainDots, fixed.injEq, true_and]
    exact listPlainDots_eq_self (h _ (self_mem_parts _)) fun i hi => ih i hi (h.inner hi)
  | anyOf t items ih =>
    simp only [plainDots, anyOf.injEq, true_and]
    exact listPlainDots_eq_self (h _ (self_mem_parts _)) fun i hi => ih i hi (h.inner hi)
  | allOf t items ih =>
    simp only [plainDots, allOf.injEq, true_and]
    exact listPlainDots_eq_self (h _ (self_mem_parts _)) fun i hi => ih i hi (h.inner hi)
  | typedHole | untypedHole | symbolRange | rest => rfl

end Item
end TreeRules
