import TreeRules.Hierarchy.Load
import Mathlib.Tactic.Common

/-! Hierarchies that can be had: loaded from declarations, or built step by step. In these every
parent is declared, so a name that is not declared is no ancestor of another. -/
namespace TreeRules.Hierarchy

/-- Hierarchies that loading and adding types give. -/
inductive Reachable : Hierarchy → Prop
  | empty : Reachable .empty
  | load {ds h} (hd : ofDeclarations ds = .ok h) : Reachable h
  | add {h h' d} (hr : Reachable h) (hd : h.add d = .ok h') : Reachable h'

/-- Every parent that a declaration names is declared. -/
def ParentsDeclared (h : Hierarchy) : Prop :=
  ∀ d ∈ h.declarations, ∀ p, d.parent = some p → h.contains p = true

lemma contains_iff {h : Hierarchy} {name : String} :
    h.contains name = true ↔ ∃ d ∈ h.declarations, d.name = name := by
  simp [contains, find?]

lemma mem_names_iff {h : Hierarchy} {name : String} : name ∈ h.names ↔ h.contains name = true := by
  simp [names, contains_iff]

lemma orphan?_eq_none_iff {h : Hierarchy} {ds : List Declaration} :
    orphan? h ds = none ↔ ∀ d ∈ ds, ∀ p, d.parent = some p → h.contains p = true := by
  induction ds with
  | nil => simp [orphan?]
  | cons d ds ih =>
    rw [orphan?, List.forall_mem_cons]
    cases hp : d.parent with
    | none => simpa using ih
    | some p =>
      by_cases hc : h.contains p = true
      · simpa [hc] using ih
      · simp [hc]

lemma parentsDeclared_of_load {ds : List Declaration} {h : Hierarchy}
    (hd : ofDeclarations ds = .ok h) : h.ParentsDeclared := by
  rw [ofDeclarations] at hd
  cases hdup : duplicate? [] ds with
  | some name => simp [hdup] at hd
  | none =>
    cases ho : orphan? ⟨ds⟩ ds with
    | some o => simp [hdup,ho] at hd
    | none =>
      simp only [hdup,ho] at hd
      split at hd
      · cases hd
      · cases hd
        exact orphan?_eq_none_iff.mp ho

/-- What adding a type can come to. -/
lemma add_cases {h h' : Hierarchy} {d : Declaration} (hd : h.add d = .ok h') :
    h' = ⟨h.declarations ++ [d]⟩ ∧ h.contains d.name = false ∧
      ∀ p, d.parent = some p → h.contains p = true := by
  rw [add] at hd
  split_ifs at hd with hc
  cases hp : d.parent with
  | none =>
    simp only [hp, Except.ok.injEq] at hd
    exact ⟨hd.symm,by simpa using hc,by simp⟩
  | some p =>
    simp only [hp] at hd
    split_ifs at hd with hq
    · cases hd
      refine ⟨rfl,by simpa using hc,?_⟩
      rintro q ⟨rfl⟩
      exact hq

lemma contains_append {h : Hierarchy} {ds : List Declaration} {name : String}
    (hc : h.contains name = true) : contains ⟨h.declarations ++ ds⟩ name = true := by
  obtain ⟨d,hd,hn⟩ := contains_iff.mp hc
  exact contains_iff.mpr ⟨d,List.mem_append_left _ hd,hn⟩

theorem Reachable.parentsDeclared {h : Hierarchy} (hr : h.Reachable) : h.ParentsDeclared := by
  induction hr with
  | empty => exact fun d hd => by cases hd
  | load hd => exact parentsDeclared_of_load hd
  | add hr hd ih =>
    obtain ⟨rfl,-,hp⟩ := add_cases hd
    intro e he p hep
    rcases List.mem_append.mp he with he | he
    · exact contains_append (ih e he p hep)
    · obtain rfl := List.mem_singleton.mp he
      exact contains_append (hp p hep)

lemma contains_of_parent? {h : Hierarchy} (hp : h.ParentsDeclared) {name p : String}
    (hn : h.parent? name = some p) : h.contains p = true := by
  obtain ⟨d,hd,hdp⟩ := Option.bind_eq_some_iff.mp hn
  exact hp d (List.mem_of_find?_eq_some hd) p hdp

/-- Everything on the way up from a name, except the name itself, is declared. -/
lemma contains_of_mem_chain {h : Hierarchy} (hp : h.ParentsDeclared) {steps : Nat}
    {name a : String} (ha : a ∈ h.chain name steps) : a = name ∨ h.contains a = true := by
  induction steps generalizing name with
  | zero => exact Or.inl (by simpa [chain] using ha)
  | succ steps ih =>
    cases hq : h.parent? name with
    | none => exact Or.inl (by simpa [chain,hq] using ha)
    | some p =>
      simp only [chain, hq, List.mem_cons] at ha
      rcases ha with rfl | ha
      · exact Or.inl rfl
      · rcases ih ha with rfl | hc
        · exact Or.inr (contains_of_parent? hp hq)
        · exact Or.inr hc

/-- A name that is not declared has no other name below it. -/
theorem isA_of_not_contains_sup {h : Hierarchy} (hp : h.ParentsDeclared) {sub sup : String}
    (hc : h.contains sup = false) : h.isA sub sup = (sub == sup) := by
  rw [Bool.eq_iff_iff, beq_iff_eq]
  constructor
  · intro ha
    rcases contains_of_mem_chain hp (List.contains_iff_mem.mp ha) with rfl | hd
    · rfl
    · simp [hc] at hd
  · rintro rfl
    exact h.isA_self sub

/-- A name that is not declared has no other name above it. -/
theorem isA_of_not_contains_sub {h : Hierarchy} {sub sup : String}
    (hc : h.contains sub = false) : h.isA sub sup = (sub == sup) := by
  have hn : h.parent? sub = none := by
    have hf : h.find? sub = none := by simpa [contains] using hc
    simp [parent?, hf]
  have hch : h.chain sub h.size = [sub] := by
    cases h.size with
    | zero => rfl
    | succ n => simp [chain, hn]
  rw [isA, hch, Bool.eq_iff_iff, beq_iff_eq]
  simp [eq_comm]

end TreeRules.Hierarchy
