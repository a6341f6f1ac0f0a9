import TreeRules.Proofs.Compile.Meaning

/-! Negated children. A node whose child is negated and the same node with the child as it is exclude
each other, unless the child is an ellipsis: its negation passes the check, and has no effect. -/
namespace TreeRules

namespace Item

variable {h : Option Hierarchy} {i : Item} {place : Nat}

/-- The item with no negation of its own. -/
def affirmed (i : Item) : Item := i.withTag { i.tag with negated := false }

/-- The node with no negation of the child at `place`. -/
def affirmedAt (place : Nat) : Item → Item
  | fixed t type data children => fixed t type data (children.modify place affirmed)
  | i => i

@[simp] lemma negated_affirmed (i : Item) : i.affirmed.negated = false := by
  rw [negated, affirmed, tag_withTag]

@[simp] lemma isEllipsis_affirmed (i : Item) : i.affirmed.isEllipsis = i.isEllipsis :=
  isEllipsis_withTag _ i

lemma plainDots_affirmed (i : Item) : i.affirmed.plainDots = i.plainDots.affirmed := by
  rw [affirmed, plainDots_withTag, affirmed, tag_plainDots]

lemma plainEllipsis_affirmed (i : Item) : i.affirmed.plainEllipsis = i.plainEllipsis := by
  cases i <;> rfl

/-- A negation turns the meaning around. -/
lemma sat_affirmed_of_negated (hn : i.negated = true) (n : Tree) :
    i.affirmed.sat h n = !i.sat h n := by
  simp only [negated] at hn
  cases i <;> simp only [tag] at hn <;> simp [affirmed, withTag, tag, sat, hn]

/-! What is known of all parts of an item is known without the negation of a child. -/

lemma forall_mem_modify {P : Item → Prop} (hP : ∀ i, P i → P i.affirmed) {items : List Item}
    (hall : ∀ i ∈ items, P i) : ∀ i ∈ items.modify place affirmed, P i := by
  intro i hi
  obtain ⟨k,hk⟩ := List.mem_iff_getElem?.mp hi
  rw [List.getElem?_modify] at hk
  obtain ⟨j,hj,rfl⟩ := Option.map_eq_some_iff.mp hk
  have hmem := hall j (List.mem_of_getElem? hj)
  split_ifs
  · exact hP j hmem
  · exact hmem

/-- What affirming does not change of the item at the place, is unchanged of all. -/
lemma map_modify_affirmed {α : Type} {f : Item → α} {items : List Item}
    (hf : ∀ i ∈ items[place]?, f i.affirmed = f i) :
    (items.modify place affirmed).map f = items.map f := by
  refine List.ext_getElem? fun k => ?_
  rw [List.getElem?_map, List.getElem?_map, List.getElem?_modify]
  by_cases hk : place = k
  · subst hk
    cases hi : items[place]? with
    | none => rfl
    | some i => simp [hf i hi]
  · simp [hk]

lemma forall_parts_affirmed {P : Item → Prop} (hP : ∀ i, P i → P i.affirmed)
    (hi : ∀ j ∈ i.parts, P j) : ∀ j ∈ i.affirmed.parts, P j := by
  intro j hj
  rcases mem_parts.mp hj with rfl | ⟨k,hk,hj⟩
  · exact hP i (hi i i.self_mem_parts)
  · rw [affirmed, inner_withTag] at hk
    exact hi j (mem_parts_of_mem_inner hk hj)

lemma forall_parts_affirmedAt {P : Item → Prop} (hP : ∀ i, P i → P i.affirmed)
    (hself : P (i.affirmedAt place)) (hi : ∀ j ∈ i.parts, P j) :
    ∀ j ∈ (i.affirmedAt place).parts, P j := by
  cases i with
  | fixed t type data children =>
    intro j hj
    rcases mem_parts.mp hj with rfl | ⟨k,hk,hj⟩
    · exact hself
    · exact forall_mem_modify (P := fun k => ∀ j ∈ k.parts, P j)
        (fun k hk => forall_parts_affirmed hP hk)
        (fun k hk j hj => hi j (mem_parts_of_mem_inner hk hj)) k hk j hj
  | typedHole | untypedHole | symbolRange | anyOf | allOf | rest => exact hi

lemma HasIdentifiers.affirmedAt (hi : i.HasIdentifiers) : (i.affirmedAt place).HasIdentifiers := by
  have htype : ∀ k : Item, k.affirmed.type? = k.type? := fun k => by cases k <;> rfl
  have hself : (i.affirmedAt place).type? = i.type? := by cases i <;> rfl
  refine forall_parts_affirmedAt (fun k hk => ?_) ?_ hi
  · rwa [htype]
  · rw [hself]
    exact hi i i.self_mem_parts

lemma Tidy.affirmedAt (hi : i.Tidy) : (i.affirmedAt place).Tidy := by
  cases i with
  | fixed t type data children =>
    obtain ⟨hdots,hsingle⟩ := hi
    refine ⟨?_,forall_mem_modify (fun k _ _ => k.negated_affirmed) hsingle⟩
    rw [← List.forall_mem_map (P := (· = false)), List.map_dropLast] at hdots ⊢
    rwa [map_modify_affirmed fun k _ => k.isEllipsis_affirmed]
  | typedHole | untypedHole | symbolRange | anyOf | allOf | rest => exact hi

lemma Orderly.affirmedAt (hi : i.Orderly) : (i.affirmedAt place).Orderly :=
  forall_parts_affirmedAt (fun k hk => (tidy_withTag _ k).mpr hk) hi.tidy.affirmedAt hi

/-! The meaning of a node's children. -/

/-- What stands for a child when items are compiled. -/
def asChild (i : Item) : Item := if i.isEllipsis then i.plainEllipsis else i.plainDots

lemma listPlainDots_eq_map_asChild (items : List Item) : listPlainDots items = items.map asChild := by
  induction items with
  | nil => rfl
  | cons i items ih => rw [listPlainDots, ih, List.map_cons, asChild]

/-- Where an ellipsis stands, its negation makes no difference. -/
lemma plainDots_affirmedAt_of_isEllipsis {t : Tag} {type : String} {data : Option Datum}
    {children : List Item} {c : Item} (hc : children[place]? = some c) (he : c.isEllipsis = true) :
    ((fixed t type data children).affirmedAt place).plainDots =
      (fixed t type data children).plainDots := by
  have hsame : ∀ i ∈ children[place]?, i.affirmed.asChild = i.asChild := by
    rintro i hi
    obtain rfl : c = i := Option.some_inj.mp (hc.symm.trans hi)
    rw [asChild, asChild, isEllipsis_affirmed, if_pos he, if_pos he, plainEllipsis_affirmed]
  rw [affirmedAt, plainDots, plainDots, listPlainDots_eq_map_asChild, listPlainDots_eq_map_asChild,
    map_modify_affirmed hsame]

/-- An item for one child describes the child at its place. -/
lemma exists_sat_of_satChildren {items : List Item} {ns : List Tree}
    (hs : satChildren h items ns = true) (hi : items[place]? = some i)
    (he : i.isEllipsis = false) : ∃ n, ns[place]? = some n ∧ i.sat h n = true := by
  induction items generalizing ns place with
  | nil => cases hi
  | cons j items ih =>
    unfold satChildren at hs
    cases place with
    | zero =>
      cases hi
      rw [he, Bool.and_false, if_neg Bool.false_ne_true] at hs
      cases ns with
      | nil => cases hs
      | cons n ns => exact ⟨n,rfl,(Bool.and_eq_true_iff.mp hs).1⟩
    | succ place =>
      have hne : items.isEmpty = false := by
        cases items with
        | nil => cases hi
        | cons => rfl
      rw [hne, Bool.false_and, if_neg Bool.false_ne_true] at hs
      cases ns with
      | nil => cases hs
      | cons n ns =>
        obtain ⟨m,hm,hsat⟩ := ih (Bool.and_eq_true_iff.mp hs).2 hi
        exact ⟨m,hm,hsat⟩

/-- A node does not have children as they are described, and as they are described but for the
negation of one. -/
lemma not_sat_affirmedAt {t : Tag} {type : String} {data : Option Datum} {children : List Item}
    (ht : t.negated = false) {c : Item} (hc : children[place]? = some c) (hn : c.negated = true)
    (he : c.isEllipsis = false) {n : Tree}
    (hs : (fixed t type data children).plainDots.sat h n = true) :
    ((fixed t type data children).affirmedAt place).plainDots.sat h n = false := by
  by_contra hs'
  rw [Bool.not_eq_false] at hs'
  simp only [affirmedAt, plainDots, listPlainDots_eq_map_asChild, sat, ht, Bool.bne_false,
    Bool.and_eq_true] at hs hs'
  have hat : (children.map asChild)[place]? = some c.plainDots := by
    rw [List.getElem?_map, hc, Option.map_some, asChild, if_neg (by simp [he])]
  have hat' : ((children.modify place affirmed).map asChild)[place]? =
      some c.plainDots.affirmed := by
    have hchild : c.affirmed.asChild = c.plainDots.affirmed := by
      rw [asChild, isEllipsis_affirmed, if_neg (by simp [he]), plainDots_affirmed]
    simp [hc, hchild]
  have hone : c.plainDots.isEllipsis = false := by rw [isEllipsis_plainDots, he]
  obtain ⟨m,hm,hsat⟩ := exists_sat_of_satChildren hs.2 hat hone
  obtain ⟨m',hm',hsat'⟩ := exists_sat_of_satChildren hs'.2 hat' (by rw [isEllipsis_affirmed, hone])
  rw [hm] at hm'
  cases hm'
  rw [sat_affirmed_of_negated (by rw [negated, tag_plainDots]; exact hn), hsat] at hsat'
  cases hsat'

end Item

namespace Compilation

variable {h : Option Hierarchy} {s s' later later' : Compilation} {u u' : SymbolTable} {r : Rule}

/-- The negation of a child is heeded exactly where the child is no ellipsis. The node that is not
negated itself is compiled as it stands in a checked rule, and with the negation of one child taken
off, in sessions of their own. If the child is no ellipsis, no node is accepted by both matchers; if
it is one, the matchers accept the same nodes. -/
theorem accepts_affirmedAt (hh : ∀ k ∈ h, k.Reachable) {language language' : String}
    {config config' : Config} {symbols symbols' : SymbolTable}
    (hs : (start language h config symbols).Reaches Item.HasIdentifiers s)
    (hs' : (start language' h config' symbols').Reaches Item.HasIdentifiers s')
    (hr : r.shapeDiagnostics = []) {t : Item.Tag} {type : String} {data : Option Datum}
    {children : List Item} (hp : .fixed t type data children ∈ Item.listParts r.pattern)
    (ht : t.negated = false) (hid : (Item.fixed t type data children).HasIdentifiers)
    {place : Nat} {c : Item} (hc : children[place]? = some c) (hn : c.negated = true)
    (hl : (compileItem (.fixed t type data children) s).2.Reaches (fun _ => True) later)
    (hl' : (compileItem ((Item.fixed t type data children).affirmedAt place) s').2.Reaches
      (fun _ => True) later')
    (hu : later.symbols.names <+: u.names) (hu' : later'.symbols.names <+: u'.names)
    (node : Tree) :
    let accepted := Engine.accepts ⟨u,later.finish⟩
      (compileItem (.fixed t type data children) s).1 node
    let accepted' := Engine.accepts ⟨u',later'.finish⟩
      (compileItem ((Item.fixed t type data children).affirmedAt place) s').1 node
    (c.isEllipsis = false → ¬ (accepted = true ∧ accepted' = true)) ∧
      (c.isEllipsis = true → accepted = accepted') := by
  intro accepted accepted'
  have ho := Rule.orderly_of_shapeDiagnostics hr hp
  have ha : accepted = _ := accepts_of_orderly hh hs ho hid hl hu node
  have ha' : accepted' = _ :=
    accepts_of_orderly hh hs' ho.affirmedAt hid.affirmedAt hl' hu' node
  constructor
  · rintro he ⟨hboth,hboth'⟩
    rw [ha] at hboth
    rw [ha', Item.not_sat_affirmedAt ht hc hn he hboth] at hboth'
    cases hboth'
  · intro he
    rw [ha, ha', Item.plainDots_affirmedAt_of_isEllipsis hc he]

namespace Dots

def dots : Item := .typedHole ⟨.normal,true,.none⟩ "B" ⟨1⟩ true

/-- The item `A(!B#1...)`. -/
def item : Item := .fixed (.plain .none) "A" none [dots]

def rule : Rule := ⟨[item],.null .none,.none⟩

/-- The node `A(B)`. -/
def node : Tree := .node "A" none [.node "B" none [] none] none

def fresh : Compilation := .start "default" none .default .empty

/-- The item as it is, then without its negation, in one session. -/
def first : Compilation := (compileItem item fresh).2

def second : Compilation := (compileItem (item.affirmedAt 0) first).2

lemma hasIdentifiers_item : item.HasIdentifiers := by
  simp [Item.HasIdentifiers, item, dots, Item.parts, Item.listParts, Item.type?,
    Item.IsIdentifier, Lexer.isIdStart]

end Dots

open Dots in
/-- `A(!B#1...)` passes the check, and accepts `A(B)` because `A(B#1...)` does. -/
theorem accepts_negated_dots :
    rule.shapeDiagnostics = [] ∧
      Engine.accepts ⟨second.symbols,second.finish⟩ (compileItem (item.affirmedAt 0) first).1 node =
        true ∧
      Engine.accepts ⟨second.symbols,second.finish⟩ (compileItem item fresh).1 node = true := by
  have hplain : Engine.accepts ⟨second.symbols,second.finish⟩
      (compileItem (item.affirmedAt 0) first).1 node = true := by decide
  have hid := hasIdentifiers_item
  have hreach : fresh.Reaches Item.HasIdentifiers first := .single (.item hid fresh)
  have hpart : item ∈ Item.listParts rule.pattern := by
    simp [rule, Item.listParts, Item.self_mem_parts]
  have hdots : [dots][0]? = some dots := rfl
  have hlater : first.Reaches (fun _ => True) second := .single (.item trivial first)
  have hu := List.prefix_refl second.symbols.names
  have hsame := (accepts_affirmedAt (h := none) (by simp) (s := fresh) .refl hreach (r := rule) rfl
    hpart rfl hid hdots rfl hlater .refl hu hu node).2 rfl
  exact ⟨rfl,hplain,hsame.trans hplain⟩

end Compilation

end TreeRules
