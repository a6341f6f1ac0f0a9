import TreeRules.Proofs.Check.Declared
import TreeRules.Proofs.Check.Shape
import TreeRules.Proofs.Pattern.Meaning

/-! Holes outside alternatives. Of alternatives only one captures, but everywhere else in an item
that passed the check of shape, a node that the item describes has something for the hole: a node
stands where a node is captured, and data where data is asked for. -/
namespace TreeRules

namespace Item

def isAnyOf : Item → Bool
  | anyOf _ _ => true
  | _ => false

/-- The second item stands in the first, and not inside alternatives. -/
inductive Firm : Item → Item → Prop
  | self (i : Item) : Firm i i
  | inside {i k j : Item} (hi : i.isAnyOf = false) (hk : k ∈ i.inner) (hj : Firm k j) : Firm i j

namespace Firm

lemma mem_parts {i j : Item} (h : Firm i j) : j ∈ i.parts := by
  induction h with
  | self i => exact i.self_mem_parts
  | inside _ hk _ ih => exact mem_parts_of_mem_inner hk ih

lemma eq_of_inner_nil {i j : Item} (h : Firm i j) (hi : i.inner = []) : j = i := by
  cases h with
  | self => rfl
  | inside _ hk _ =>
    rw [hi] at hk
    cases hk

/-- Without alternatives every part stands firm. -/
lemma of_mem_parts {i j : Item} (hi : ∀ k ∈ i.parts, k.isAnyOf = false) (hj : j ∈ i.parts) :
    Firm i j := by
  induction i using Item.ind with
  | fixed t type data items ih | anyOf t items ih | allOf t items ih =>
    rcases Item.mem_parts.mp hj with rfl | ⟨k,hk,hj⟩
    · exact .self _
    · exact .inside (hi _ (self_mem_parts _)) hk
        (ih k hk (fun l hl => hi l (mem_parts_of_mem_inner hk hl)) hj)
  | typedHole | untypedHole | symbolRange | rest =>
    obtain rfl := List.mem_singleton.mp hj
    exact .self _

end Firm

end Item

namespace Shape

variable {note : Diagnostic.Note} {c : Context} {i j : Item} {hole : Hole}

lemma present_of_blocked {present repeated : Bool}
    (h : dataHoleFaults present true repeated = []) : present = false := by
  cases present with
  | false => rfl
  | true => cases h

/-- Under a negation there is no hole. -/
lemma ownHole?_of_check (h : check note c i = []) (hc : c.negated = true) :
    i.ownHole? = none := by
  have hf := ownFaults_of_check h
  cases i with
  | fixed t type data children =>
    simp only [ownFaults, List.append_eq_nil_iff, hc, Bool.true_or] at hf
    have hp := present_of_blocked hf.2
    rcases data with _ | (hole | text)
    · rfl
    · cases hp
    · rfl
  | symbolRange t first last hole =>
    simp only [ownFaults, List.append_eq_nil_iff, hc] at hf
    simpa [Item.ownHole?, Item.asHole?, Item.dataHole?] using present_of_blocked hf.2.2
  | typedHole | untypedHole => simp [ownFaults, faultIf, hc] at hf
  | anyOf | allOf | rest => rfl

/-- An item with a hole inside does not stand under a negation. -/
lemma negated_of_ownHole? (h : check note c i = []) (hj : j ∈ i.parts)
    (hole? : j.ownHole? = some hole) : c.negated = false := by
  obtain ⟨c',hj',-,hn⟩ := exists_of_mem_parts h j hj
  by_contra hc
  rw [ownHole?_of_check hj' (hn (by simpa using hc))] at hole?
  cases hole?

/-- An item with a hole in its data position is not negated. -/
lemma negated_of_dataHole? (h : check note c i = []) (hd : i.dataHole? = some hole) :
    i.negated = false := by
  have hf := ownFaults_of_check h
  cases i with
  | fixed t type data children =>
    obtain rfl : data = some (.hole hole) := by
      rcases data with _ | (hole' | text)
      · cases hd
      · cases hd
        rfl
      · cases hd
    by_contra hn
    have ht : t.negated = true := by simpa [Item.negated, Item.tag] using hn
    simp only [ownFaults, List.append_eq_nil_iff, ht, Bool.or_true] at hf
    cases present_of_blocked hf.2
  | symbolRange t first last hole' =>
    simpa [badNegation, canBeNegated] using (ownFaults_cases hf).2.1
  | typedHole | untypedHole | anyOf | allOf | rest => cases hd

end Shape

namespace Item

variable {h : Option Hierarchy} {i j : Item} {hole : Hole}

lemma exists_dataActive {n : Tree} (hn : n.data.isSome = true) :
    ∃ k, (hole,k) ∈ dataActive (some (.hole hole)) n := by
  obtain ⟨text,ht⟩ := Option.isSome_iff_exists.mp hn
  exact ⟨.data text,by simp [dataActive, ht]⟩

/-- An item captures something for its own hole. -/
lemma exists_active_of_ownHole? {note : Diagnostic.Note} {c : Shape.Context}
    (hc : Shape.check note c i = []) (hi : i.ownHole? = some hole) {n : Tree}
    (hs : i.plainDots.sat h n = true) : ∃ k, (hole,k) ∈ i.plainDots.active h n := by
  cases i with
  | fixed t type data children =>
    have hd : (Item.fixed t type data children).dataHole? = some hole := hi
    have hn : t.negated = false := Shape.negated_of_dataHole? hc hd
    obtain rfl : data = some (.hole hole) := by
      rcases data with _ | (hole' | text)
      · cases hd
      · cases hd
        rfl
      · cases hd
    simp only [plainDots, sat, Datum.sat, hn, Bool.bne_false, Bool.and_eq_true] at hs
    obtain ⟨k,hk⟩ := @exists_dataActive hole n hs.1.2
    refine ⟨k,?_⟩
    rw [plainDots, active, if_neg (by simp [hn])]
    exact List.mem_append_left _ hk
  | typedHole t type hole' ellipsis =>
    cases hi
    exact ⟨.node n,List.mem_singleton.mpr rfl⟩
  | untypedHole t hole' ellipsis =>
    cases hi
    have hn : t.negated = false := by simpa [plainDots, sat] using hs
    refine ⟨.node n,?_⟩
    simp [plainDots, active, hn]
  | symbolRange t first last hole' =>
    obtain rfl : hole' = some hole := hi
    have hn : t.negated = false := Shape.negated_of_dataHole? hc rfl
    simp only [plainDots, sat, hn, Bool.bne_false, isSymbol, Bool.and_eq_true] at hs
    obtain ⟨k,hk⟩ := @exists_dataActive hole n (Option.isSome_of_any hs.2)
    refine ⟨k,?_⟩
    simpa [plainDots, active, hn] using hk
  | anyOf | allOf | rest => cases hi

/-! Children. -/

lemma exists_of_satChildren {items : List Item} {ns : List Tree}
    (hi : items = [] → i.isEllipsis = false) (hs : satChildren h (i :: items) ns = true) :
    ∃ n rest, ns = n :: rest ∧ i.sat h n = true ∧ satChildren h items rest = true := by
  have hlast : ¬ (items.isEmpty && i.isEllipsis) = true := by
    cases items with
    | nil => simp [hi rfl]
    | cons => simp
  rw [satChildren.eq_def] at hs
  dsimp only at hs
  rw [if_neg hlast] at hs
  cases ns with
  | nil => cases hs
  | cons n rest => exact ⟨n,rest,rfl,by simpa using hs⟩

/-- Among the children of a node that is described a hole captures something, and another item
captures what it captures of a child that it describes. -/
lemma exists_activeChildren {items : List Item} {k : Item} (hk : k ∈ items) {ns : List Tree}
    (hs : satChildren h (listPlainDots items) ns = true) :
    (∀ hole, k.asHole? = some hole →
      ∃ c, (hole,c) ∈ activeChildren h (listPlainDots items) ns) ∧
    (k.asHole? = none → k.isEllipsis = false → ∃ n, k.plainDots.sat h n = true ∧
      ∀ p ∈ k.plainDots.active h n, p ∈ activeChildren h (listPlainDots items) ns) := by
  induction items generalizing ns with
  | nil => cases hk
  | cons i items ih =>
    rw [listPlainDots] at hs
    rw [listPlainDots, activeChildren]
    rcases List.mem_cons.mp hk with rfl | hk
    · by_cases he : k.isEllipsis = true
      · rw [if_pos he]
        refine ⟨fun hole hh => ⟨.nodes ns,List.mem_append_left _ ?_⟩,fun _ hn => ?_⟩
        · rw [childActive, asHole?_plainEllipsis, hh, isEllipsis_plainEllipsis, he]
          exact List.mem_singleton.mpr rfl
        · rw [he] at hn
          cases hn
      · have hplain : k.plainDots.isEllipsis = false := by
          rw [isEllipsis_plainDots]
          simpa using he
        rw [if_neg he] at hs ⊢
        obtain ⟨n,rest,rfl,hsat,-⟩ := exists_of_satChildren (fun _ => hplain) hs
        refine ⟨fun hole hh => ⟨.nodes [n],List.mem_append_left _ ?_⟩,fun hh _ => ⟨n,hsat,?_⟩⟩
        · rw [childActive, asHole?_plainDots, hh, hplain]
          exact List.mem_singleton.mpr rfl
        · intro p hp
          refine List.mem_append_left _ ?_
          rw [childActive, asHole?_plainDots, hh]
          simpa using hp
    · have hmore : listPlainDots items ≠ [] := by
        cases items with
        | nil => cases hk
        | cons => simp [listPlainDots]
      obtain ⟨n,rest,rfl,-,hrest⟩ := exists_of_satChildren (fun hnil => absurd hnil hmore) hs
      obtain ⟨hhole,hother⟩ := ih hk hrest
      refine ⟨fun hole hh => ?_,fun hh he => ?_⟩
      · obtain ⟨c,hc⟩ := hhole hole hh
        exact ⟨c,List.mem_append_right _ hc⟩
      · obtain ⟨m,hsat,hm⟩ := hother hh he
        exact ⟨m,hsat,fun p hp => List.mem_append_right _ (hm p hp)⟩

lemma satAll_iff {items : List Item} {n : Tree} :
    satAll h items n = true ↔ ∀ i ∈ items, i.sat h n = true := by
  induction items with
  | nil => simp [satAll]
  | cons i items ih => simp [satAll, ih]

/-- An item without alternatives around them captures something for all holes inside. -/
theorem exists_active_of_firm {note : Diagnostic.Note} (hfirm : Firm i j)
    (hj : j.ownHole? = some hole) {c : Shape.Context} (hc : Shape.check note c i = []) {n : Tree}
    (hs : i.plainDots.sat h n = true) : ∃ k, (hole,k) ∈ i.plainDots.active h n := by
  induction hfirm generalizing c n with
  | self i => exact exists_active_of_ownHole? hc hj hs
  | @inside i k j hi hk hkj ih =>
    obtain ⟨c',hck,-,hneg⟩ := Shape.exists_of_check hc k hk
    have hplain : i.negated = false := by
      have hn := Shape.negated_of_ownHole? hck hkj.mem_parts hj
      rw [hneg, Bool.or_eq_false_iff] at hn
      exact hn.2
    cases i with
    | fixed t type data children =>
      have ht : t.negated = false := hplain
      simp only [plainDots, sat, ht, Bool.bne_false, Bool.and_eq_true] at hs
      simp only [plainDots, active, ht, Bool.false_eq_true, if_false, List.mem_append]
      obtain ⟨hhole,hother⟩ := exists_activeChildren hk hs.2
      cases hkh : k.asHole? with
      | some hole' =>
        -- a hole has nothing inside, so it is the hole in question
        obtain rfl : j = k := hkj.eq_of_inner_nil (by cases k <;> first | rfl | cases hkh)
        obtain rfl : hole' = hole := by simpa [ownHole?, hkh] using hj
        obtain ⟨cap,hcap⟩ := hhole _ hkh
        exact ⟨cap,Or.inr hcap⟩
      | none =>
        have he : k.isEllipsis = false := by
          cases k with
          | rest t =>
            obtain rfl : j = .rest t := hkj.eq_of_inner_nil rfl
            cases hj
          | typedHole | untypedHole => cases hkh
          | fixed | symbolRange | anyOf | allOf => rfl
        obtain ⟨m,hsat,hm⟩ := hother hkh he
        obtain ⟨cap,hcap⟩ := ih hj hck hsat
        exact ⟨cap,Or.inr (hm _ hcap)⟩
    | allOf t items =>
      have ht : t.negated = false := hplain
      have hdots : ∀ i ∈ items, i.isEllipsis = false := Shape.tidy_of_check hc
      simp only [plainDots, sat, ht, Bool.bne_false, listPlainDots_eq_map hdots, satAll_iff,
        List.forall_mem_map] at hs
      obtain ⟨cap,hcap⟩ := ih hj hck (hs k hk)
      refine ⟨cap,?_⟩
      simp only [plainDots, active, ht, Bool.false_eq_true, if_false, listPlainDots_eq_map hdots,
        activeAll_eq_flatMap, List.flatMap_map, List.mem_flatMap]
      exact ⟨k,hk,hcap⟩
    | anyOf t items => cases hi
    | typedHole | untypedHole | symbolRange | rest => cases hk

end Item

end TreeRules
