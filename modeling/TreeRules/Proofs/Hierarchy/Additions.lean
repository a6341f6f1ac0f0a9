import TreeRules.Proofs.Hierarchy.Ancestry

/-! Hierarchies to which types are added, one after the other. A type that is refused changes
nothing. Whatever types are added to no types or to loaded ones, being a type of a name is an
order. -/
namespace TreeRules.Hierarchy

/-- Steps on a hierarchy that may break off. The hierarchy is kept where they do. -/
abbrev Steps (α : Type) : Type := ExceptT Error (StateM Hierarchy) α

/-- Declares one more type in place. -/
def addSteps (d : Declaration) : Steps Unit := do
  if (← get).contains d.name then throw (.duplicateType d.name)
  if let some p := d.parent then
    if !(← get).contains p then throw (.unknownParent d.name p)
  modify fun h => ⟨h.declarations ++ [d]⟩

/-- A type is added wholly or not at all: where it is refused, the hierarchy is as it was. -/
lemma run_addSteps (d : Declaration) (h : Hierarchy) :
    (addSteps d).run.run h = match h.add d with
      | .ok h' => (.ok (),h')
      | .error e => (.error e,h) := by
  obtain ⟨name,parent,kind⟩ := d
  unfold addSteps add
  simp only [ExceptT.run_bind, StateT.run_bind]
  change (if h.contains name = true then _ else _ : Steps Unit).run.run h = _
  cases hc : h.contains name with
  | true => rfl
  | false =>
    cases parent with
    | none => rfl
    | some p =>
      change (if (!h.contains p) = true then _ else _ : Steps Unit).run.run h = _
      cases hp : h.contains p <;> simp only [hp] <;> rfl

/-- The hierarchy that adding a type leaves behind. -/
def after (h : Hierarchy) (d : Declaration) : Hierarchy := ((addSteps d).run.run h).2

/-- The hierarchy that adding types leaves behind, one after the other. -/
def afterAll (h : Hierarchy) (ds : List Declaration) : Hierarchy := ds.foldl after h

lemma after_eq (h : Hierarchy) (d : Declaration) :
    h.after d = match h.add d with
      | .ok h' => h'
      | .error _ => h := by
  rw [after, run_addSteps]
  cases h.add d <;> rfl

lemma Sound.after {h : Hierarchy} (hs : h.Sound) (d : Declaration) : (h.after d).Sound := by
  rw [after_eq]
  cases hd : h.add d with
  | ok h' => exact hs.add hd
  | error e => exact hs

lemma Sound.afterAll {h : Hierarchy} (hs : h.Sound) (ds : List Declaration) :
    (h.afterAll ds).Sound := by
  induction ds generalizing h with
  | nil => exact hs
  | cons d ds ih => exact ih (hs.after d)

/-- Being a type of a name is an order, which the walk up from a name decides. -/
structure Orders (h : Hierarchy) : Prop where
  parentsDeclared : h.ParentsDeclared
  /-- The walk comes to one answer, whatever name it starts from and whatever it looks for. -/
  walk : ∀ sub sup answer, Walk h sup (some sub) answer ↔ answer = h.isA sub sup
  isA_iff : ∀ sub sup, h.isA sub sup = true ↔ h.LeadsTo sub sup
  refl : ∀ a, h.isA a a = true
  trans : ∀ a b c, h.isA a b = true → h.isA b c = true → h.isA a c = true
  antisymm : ∀ a b, h.isA a b = true → h.isA b a = true → a = b
  mem_descendants : ∀ name t, t ∈ h.descendants name ↔
    h.contains t = true ∧ h.isA t name = true
  descendants_sublist : ∀ name, (h.descendants name).Sublist h.names
  nodup_descendants : ∀ name, (h.descendants name).Nodup

lemma Sound.orders {h : Hierarchy} (hs : h.Sound) : h.Orders where
  parentsDeclared := hs.parentsDeclared
  walk sub sup answer :=
    ⟨fun hw => hw.unique (hs.walk sub sup),fun ha => ha ▸ hs.walk sub sup⟩
  isA_iff _ _ := hs.isA_iff
  refl := h.isA_self
  trans _ _ _ := hs.isA_trans
  antisymm _ _ := hs.isA_antisymm
  mem_descendants name t := by rw [descendants, List.mem_filter, mem_names_iff]
  descendants_sublist _ := List.filter_sublist
  nodup_descendants _ := hs.nodup.filter _

/-- Whatever types are added to no types or to loaded ones, being a type of a name is an order, and
a type that is refused leaves the hierarchy as it is. -/
theorem orders_afterAll {first : Hierarchy}
    (hf : first = .empty ∨ ∃ ds, ofDeclarations ds = .ok first) (calls : List Declaration) :
    (first.afterAll calls).Orders ∧
      ∀ d e h', (addSteps d).run.run (first.afterAll calls) = (.error e,h') →
        h' = first.afterAll calls := by
  have hs : first.Sound := by
    rcases hf with rfl | ⟨ds,hd⟩
    · exact Reachable.empty.sound
    · exact (Reachable.load hd).sound
  refine ⟨(hs.afterAll calls).orders,fun d e h' hrun => ?_⟩
  rw [run_addSteps] at hrun
  split at hrun <;> cases hrun
  rfl

namespace Sample

/-- A type with its parent declared behind it. -/
def loaded : List Declaration := [⟨"B",some "A",.ordinary⟩,⟨"A",none,.abstract⟩]

/-- One type is new, one is declared already, and one has a parent that is not declared. -/
def added : List Declaration :=
  [⟨"C",some "B",.ordinary⟩,⟨"B",none,.list⟩,⟨"D",some "E",.ordinary⟩]

end Sample

open Sample in
theorem orders_loaded_added :
    let h := afterAll ⟨loaded⟩ added
    h.names = ["B","A","C"] ∧ h.LeadsTo "C" "A" ∧ Walk h "E" (some "C") false ∧
      h.after ⟨"A",none,.ordinary⟩ = h := by
  obtain ⟨ho,hrefused⟩ := orders_afterAll (Or.inr ⟨loaded,rfl⟩) added
  refine ⟨by decide,(ho.isA_iff "C" "A").mp (by decide),(ho.walk "C" "E" false).mpr (by decide),?_⟩
  exact hrefused ⟨"A",none,.ordinary⟩ (.duplicateType "A") _ rfl

end TreeRules.Hierarchy
