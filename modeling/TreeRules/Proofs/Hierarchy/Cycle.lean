import TreeRules.Proofs.Hierarchy.Ancestry

/-! Cycles that loading reports. The type that is named is the first declared one whose ancestors
have no end. It leads into a cycle, but need not be on the cycle itself. -/
namespace TreeRules.Hierarchy

variable {h : Hierarchy} {ds : List Declaration} {name : String}

/-- The way up from `name` leads into a cycle. -/
def ReachesCycle (h : Hierarchy) (name : String) : Prop := ∃ a, h.LeadsTo name a ∧ h.OnCycle a

lemma OnCycle.reachesCycle (hc : h.OnCycle name) : h.ReachesCycle name := ⟨name,.refl,hc⟩

/-- A way up that ends passes no cycle. -/
lemma not_reachesCycle_of_acc (ha : Acc h.IsParent name) : ¬ h.ReachesCycle name := by
  induction ha with
  | intro name _ ih =>
    rintro ⟨a,hl,hc⟩
    rcases hl.cases with rfl | ⟨p,hp,hl⟩
    -- the parent of a name on a cycle has that name above it
    · obtain ⟨p,hp,hback⟩ := onCycle_iff.mp hc
      exact ih p hp ⟨_,hback,hc⟩
    · exact ih p hp ⟨a,hl,hc⟩

/-- The walk up from a name is found to have no end exactly if it leads into a cycle. -/
lemma endless_iff (hparents : h.ParentsDeclared) :
    endless h name (h.parent? name) (h.size + 1) = true ↔ h.ReachesCycle name := by
  refine ⟨exists_onCycle_of_endless hparents,fun hr => ?_⟩
  by_contra he
  have hacc := acc_of_not_endless (Bool.eq_false_iff.mpr he)
  exact not_reachesCycle_of_acc ⟨name,fun p hp => hacc p hp⟩ hr

/-- A cycle is reported of the first declared name that leads into one, where no name is declared
twice and every parent is declared. -/
theorem ofDeclarations_eq_cycle_iff :
    ofDeclarations ds = .error (.cycle name) ↔
      (names ⟨ds⟩).Nodup ∧ ParentsDeclared ⟨ds⟩ ∧ ∃ before behind,
        names ⟨ds⟩ = before ++ name :: behind ∧ ReachesCycle ⟨ds⟩ name ∧
        ∀ other ∈ before, ¬ ReachesCycle ⟨ds⟩ other := by
  have hnodup : (names ⟨ds⟩).Nodup ↔ duplicate? [] ds = none := by
    rw [duplicate?_eq_none_iff]
    simp [names]
  rw [hnodup, ParentsDeclared, ← orphan?_eq_none_iff, ofDeclarations]
  cases hd : duplicate? [] ds with
  | some other => simp
  | none =>
    cases ho : orphan? ⟨ds⟩ ds with
    | some o => simp
    | none =>
      have hfind : (names ⟨ds⟩).find? (fun name =>
          endless ⟨ds⟩ name (parent? ⟨ds⟩ name) (size ⟨ds⟩ + 1)) = some name ↔
            ∃ before behind, names ⟨ds⟩ = before ++ name :: behind ∧ ReachesCycle ⟨ds⟩ name ∧
              ∀ other ∈ before, ¬ ReachesCycle ⟨ds⟩ other := by
        simp only [List.find?_eq_some_iff_append, Bool.not_eq_true', ← Bool.not_eq_true,
          endless_iff (orphan?_eq_none_iff.mp ho)]
        constructor
        · rintro ⟨hr,before,behind,hsplit,hbefore⟩
          exact ⟨before,behind,hsplit,hr,hbefore⟩
        · rintro ⟨before,behind,hsplit,hr,hbefore⟩
          exact ⟨hr,before,behind,hsplit,hbefore⟩
      dsimp only
      rw [← hfind]
      cases (names ⟨ds⟩).find? _ <;> simp

/-- The type that is named in the report of a cycle leads into a cycle. It is on the cycle itself
exactly if some type on a cycle is declared no later. -/
theorem onCycle_blamed_iff (hc : ofDeclarations ds = .error (.cycle name)) :
    ReachesCycle ⟨ds⟩ name ∧
      (OnCycle ⟨ds⟩ name ↔ ∃ a, OnCycle ⟨ds⟩ a ∧
        (names ⟨ds⟩).idxOf a ≤ (names ⟨ds⟩).idxOf name) := by
  obtain ⟨-,-,before,behind,hsplit,hreaches,hbefore⟩ := ofDeclarations_eq_cycle_iff.mp hc
  refine ⟨hreaches,fun ho => ⟨name,ho,Nat.le_refl _⟩,?_⟩
  rintro ⟨a,ha,hle⟩
  by_contra hn
  have hne : a ≠ name := fun heq => hn (heq ▸ ha)
  have hfirst : ∀ b, ReachesCycle ⟨ds⟩ b → b ∉ before := fun b hb hm => hbefore b hm hb
  rw [hsplit, List.idxOf_append_of_notMem (hfirst a ha.reachesCycle),
    List.idxOf_append_of_notMem (hfirst name hreaches), List.idxOf_cons_self,
    List.idxOf_cons_ne _ hne.symm] at hle
  omega

namespace Sample

/-- The first type leads to a type that is its own parent. -/
def tailFirst : List Declaration := [⟨"A",some "B",.ordinary⟩,⟨"B",some "B",.ordinary⟩]

end Sample

open Sample in
/-- In one order of declarations a type is named that is on no cycle, in the other order the type
on the cycle. -/
theorem onCycle_blamed_tailFirst :
    ofDeclarations tailFirst = .error (.cycle "A") ∧ ReachesCycle ⟨tailFirst⟩ "A" ∧
      ¬ OnCycle ⟨tailFirst⟩ "A" ∧
      (∀ a, OnCycle ⟨tailFirst⟩ a → 0 < (names ⟨tailFirst⟩).idxOf a) ∧
      ofDeclarations tailFirst.reverse = .error (.cycle "B") ∧
      OnCycle ⟨tailFirst.reverse⟩ "B" := by
  have htail : ofDeclarations tailFirst = .error (.cycle "A") := by decide
  have hfirst : ofDeclarations tailFirst.reverse = .error (.cycle "B") := by decide
  have hB : ∀ a, LeadsTo ⟨tailFirst⟩ "B" a → a = "B" := by
    intro a hl
    induction hl with
    | refl => rfl
    | tail _ hp ih =>
      subst ih
      exact (Option.some.inj hp).symm
  have hA : ¬ OnCycle ⟨tailFirst⟩ "A" := by
    intro hc
    obtain ⟨p,hp,hl⟩ := onCycle_iff.mp hc
    obtain rfl : "B" = p := Option.some.inj hp
    simpa using hB "A" hl
  obtain ⟨hreaches,hiff⟩ := onCycle_blamed_iff htail
  refine ⟨htail,hreaches,hA,fun a ha => ?_,hfirst,?_⟩
  · by_contra hle
    exact hA (hiff.mpr ⟨a,ha,by omega⟩)
  · exact onCycle_iff.mpr ⟨"B",rfl,.refl⟩

end TreeRules.Hierarchy
