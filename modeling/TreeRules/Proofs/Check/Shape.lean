import TreeRules.Check.Shape
import TreeRules.Proofs.Pattern.Holes

/-! What the shape check vouches for. If it reports nothing about an item, it reports nothing about
the items inside; ellipses stand last among children, and in repeated items there is no data
hole. -/
namespace TreeRules
namespace Shape

variable {note : Diagnostic.Note} {c : Context} {i : Item}

lemma reports_eq_nil {kinds : List Diagnostic.Kind} :
    reports note i kinds = [] ↔ kinds = [] := List.map_eq_nil_iff

lemma checkAll_eq_nil {items : List Item} :
    checkAll note c items = [] ↔ ∀ i ∈ items, check note c i = [] := by
  induction items with
  | nil => simp [checkAll]
  | cons i items ih => simp [checkAll, ih]

/-- A child is checked as the last one or not. -/
lemma exists_of_checkChildren {negated repeated : Bool} {items : List Item}
    (h : checkChildren note negated repeated items = []) :
    ∀ i ∈ items, ∃ last, check note ⟨.child last,negated,repeated⟩ i = [] := by
  induction items with
  | nil => simp
  | cons i items ih =>
    rw [checkChildren, List.append_eq_nil_iff] at h
    intro j hj
    rcases List.mem_cons.mp hj with rfl | hj
    · exact ⟨_,h.1⟩
    · exact ih h.2 j hj

lemma check_of_mem_dropLast {negated repeated : Bool} {items : List Item}
    (h : checkChildren note negated repeated items = []) :
    ∀ i ∈ items.dropLast, check note ⟨.child false,negated,repeated⟩ i = [] := by
  induction items with
  | nil => simp
  | cons i items ih =>
    rw [checkChildren, List.append_eq_nil_iff] at h
    cases items with
    | nil => simp
    | cons j items =>
      intro k hk
      rcases List.mem_cons.mp hk with rfl | hk
      · exact h.1
      · exact ih h.2 k hk

lemma ownFaults_of_check (h : check note c i = []) : ownFaults c i = [] := by
  cases i <;> simp only [check, List.append_eq_nil_iff, reports_eq_nil] at h
  case fixed | anyOf | allOf => exact h.1
  all_goals exact h

/-- What is directly inside passes the check in a context of its own. Inside a negated item all is
negated. -/
lemma exists_of_check (h : check note c i = []) : ∀ k ∈ i.inner, ∃ c' : Context,
    check note c' k = [] ∧ c'.repeated = c.repeated ∧ c'.negated = (c.negated || i.negated) := by
  intro k hk
  cases i <;> simp only [check, List.append_eq_nil_iff] at h
  case fixed t type data children =>
    obtain ⟨last,hl⟩ := exists_of_checkChildren h.2 k hk
    exact ⟨_,hl,rfl,rfl⟩
  case anyOf t items | allOf t items => exact ⟨_,checkAll_eq_nil.mp h.2 k hk,rfl,rfl⟩
  all_goals cases hk

lemma exists_of_mem_parts (h : check note c i = []) : ∀ j ∈ i.parts, ∃ c' : Context,
    check note c' j = [] ∧ c'.repeated = c.repeated ∧
      (c.negated = true → c'.negated = true) := by
  induction i using Item.ind generalizing c with
  | fixed t type data items ih | anyOf t items ih | allOf t items ih =>
    intro j hj
    rcases Item.mem_parts.mp hj with rfl | ⟨k,hk,hj⟩
    · exact ⟨c,h,rfl,id⟩
    · obtain ⟨c',hk',hc',hn'⟩ := exists_of_check h k hk
      obtain ⟨c'',hj',hc'',hn''⟩ := ih k hk hk' j hj
      exact ⟨c'',hj',hc''.trans hc',fun hn => hn'' (by rw [hn', hn, Bool.true_or])⟩
  | typedHole | untypedHole | symbolRange | rest =>
    intro j hj
    obtain rfl := List.mem_singleton.mp hj
    exact ⟨c,h,rfl,id⟩

/-- The faults of an item itself, one by one. -/
lemma ownFaults_cases (h : ownFaults c i = []) : badMode c i = false ∧ badNegation i = false ∧
    badEllipsis c i = false ∧ badUntypedHole c i = false := by
  simp only [ownFaults, List.append_eq_nil_iff, faultIf, ite_eq_right_iff, reduceCtorEq,
    imp_false, Bool.not_eq_true] at h
  exact ⟨h.1.1.1.1,h.1.1.1.2,h.1.1.2,h.1.2⟩

lemma isEllipsis_of_check (h : check note c i = []) (hc : c.position ≠ .child true) :
    i.isEllipsis = false := by
  have hb := (ownFaults_cases (ownFaults_of_check h)).2.2.1
  simpa [badEllipsis, hc] using hb

lemma tidy_of_check (h : check note c i = []) : i.Tidy := by
  cases i <;> simp only [check, List.append_eq_nil_iff] at h
  case fixed t type data children =>
    refine ⟨fun k hk => isEllipsis_of_check (check_of_mem_dropLast h.2 k hk) (by simp),?_⟩
    intro k hk hs
    obtain ⟨last,hl⟩ := exists_of_checkChildren h.2 k hk
    have hb := (ownFaults_cases (ownFaults_of_check hl)).2.1
    cases k <;> simp_all [badNegation, canBeNegated, Item.isSingleHole]
  case anyOf t items | allOf t items =>
    exact fun k hk => isEllipsis_of_check (checkAll_eq_nil.mp h.2 k hk) (by simp)
  all_goals trivial

/-- Checked items are orderly. -/
theorem orderly_of_check (h : check note c i = []) : i.Orderly := by
  intro j hj
  obtain ⟨c',hj',-⟩ := exists_of_mem_parts h j hj
  exact tidy_of_check hj'

lemma present_of_dataHoleFaults {present blocked : Bool}
    (h : dataHoleFaults present blocked true = []) : present = false := by
  cases present with
  | false => rfl
  | true => cases blocked <;> cases h

lemma dataHole?_of_check (h : check note c i = []) (hc : c.repeated = true) :
    i.dataHole? = none := by
  have hf := ownFaults_of_check h
  cases i with
  | fixed t type data children =>
    simp only [ownFaults, List.append_eq_nil_iff, hc] at hf
    have hp := present_of_dataHoleFaults hf.2
    rcases data with _ | (hole | text)
    · rfl
    · cases hp
    · rfl
  | symbolRange t first last hole =>
    simp only [ownFaults, List.append_eq_nil_iff, hc] at hf
    simpa [Item.dataHole?] using present_of_dataHoleFaults hf.2.2
  | typedHole | untypedHole | anyOf | allOf | rest => rfl

/-- Repeated items have no data holes. -/
theorem dataHole?_eq_none_of_check (h : check note c i = []) (hc : c.repeated = true) :
    ∀ j ∈ i.parts, j.dataHole? = none := by
  intro j hj
  obtain ⟨c',hj',hc',-⟩ := exists_of_mem_parts h j hj
  exact dataHole?_of_check hj' (hc'.trans hc)

end Shape

namespace Rule

variable {r : Rule}

lemma check_of_shapeDiagnostics (h : r.shapeDiagnostics = []) {i : Item} (hi : i ∈ r.pattern) :
    Shape.check r.note (.top i) i = [] := by
  rw [shapeDiagnostics, List.append_eq_nil_iff] at h
  exact List.flatMap_eq_nil_iff.mp h.2 i hi

/-- The items of a rule without faults of shape are orderly, at any depth. -/
theorem orderly_of_shapeDiagnostics (h : r.shapeDiagnostics = []) {i : Item}
    (hi : i ∈ Item.listParts r.pattern) : i.Orderly := by
  obtain ⟨j,hj,hi⟩ := Item.mem_listParts.mp hi
  obtain ⟨c,hc,-⟩ := Shape.exists_of_mem_parts (check_of_shapeDiagnostics h hj) i hi
  exact Shape.orderly_of_check hc

end Rule
end TreeRules
