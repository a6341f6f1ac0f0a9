import TreeRules.Check
import TreeRules.Proofs.Rule.Words

/-! What the check of types vouches for. It reports nothing exactly if every type that a rule names,
at whatever depth, is declared, and no type on the right side is abstract. -/
namespace TreeRules

namespace Types

variable {h : Hierarchy} {note : Diagnostic.Note}

lemma checkType_eq_nil_iff {span : Span} {type : String} :
    checkType h note span type = [] ↔ h.contains type = true := by
  unfold checkType
  cases h.contains type <;> simp

lemma checkBuilt_eq_nil_iff {span : Span} {type : String} :
    checkBuilt h note span type = [] ↔ h.contains type = true ∧ h.isAbstract type = false := by
  unfold checkBuilt
  cases h.contains type <;> cases h.isAbstract type <;> simp

lemma checkItems_eq_flatMap (items : List Item) :
    checkItems h note items = items.flatMap (checkItem h note) := by
  induction items with
  | nil => rfl
  | cons i items ih => rw [checkItems, ih, List.flatMap_cons]

lemma checkTemplates_eq_flatMap (ts : List Template) :
    checkTemplates h note ts = ts.flatMap (checkTemplate h note) := by
  induction ts with
  | nil => rfl
  | cons t ts ih => rw [checkTemplates, ih, List.flatMap_cons]

/-- What holds of each member's names holds of the names of all. -/
lemma flatMap_eq_nil_iff {α : Type} {check : α → List Diagnostic} {names : α → List String}
    {P : String → Prop} {as : List α}
    (ih : ∀ a ∈ as, check a = [] ↔ ∀ name ∈ names a, P name) :
    as.flatMap check = [] ↔ ∀ name ∈ as.flatMap names, P name := by
  rw [List.flatMap_eq_nil_iff]
  constructor
  · intro hnil name hname
    obtain ⟨a,ha,hname⟩ := List.mem_flatMap.mp hname
    exact (ih a ha).mp (hnil a ha) name hname
  · exact fun hP a ha => (ih a ha).mpr fun name hname =>
      hP name (List.mem_flatMap.mpr ⟨a,ha,hname⟩)

theorem checkItem_eq_nil_iff (i : Item) :
    checkItem h note i = [] ↔ ∀ name ∈ i.typeNames, h.contains name = true := by
  induction i using Item.ind with
  | fixed t type data children ih =>
    rw [checkItem, Item.typeNames, List.append_eq_nil_iff, checkType_eq_nil_iff,
      checkItems_eq_flatMap, Item.listTypeNames_eq_flatMap, flatMap_eq_nil_iff ih,
      List.forall_mem_cons]
  | typedHole t type hole ellipsis =>
    rw [checkItem, checkType_eq_nil_iff, Item.typeNames, List.forall_mem_singleton]
  | anyOf t items ih | allOf t items ih =>
    rw [checkItem, checkItems_eq_flatMap, Item.typeNames, Item.listTypeNames_eq_flatMap,
      flatMap_eq_nil_iff ih]
  | untypedHole | symbolRange | rest => simp [checkItem, Item.typeNames]

theorem checkTemplate_eq_nil_iff (t : Template) :
    checkTemplate h note t = [] ↔
      ∀ name ∈ t.typeNames, h.contains name = true ∧ h.isAbstract name = false := by
  induction t using Template.ind with
  | subtree span type data children ih =>
    rw [checkTemplate, Template.typeNames, List.append_eq_nil_iff, checkBuilt_eq_nil_iff,
      checkTemplates_eq_flatMap, Template.listTypeNames_eq_flatMap, flatMap_eq_nil_iff ih,
      List.forall_mem_cons]
  | hole | null => simp [checkTemplate, Template.typeNames]

end Types

namespace Rule

/-- The types of a rule are known: those in the pattern are declared, those in the result are
declared and can be built. -/
structure Known (h : Hierarchy) (r : Rule) : Prop where
  pattern : ∀ i ∈ r.pattern, ∀ name ∈ i.typeNames, h.contains name = true
  result : ∀ name ∈ r.result.typeNames, h.contains name = true ∧ h.isAbstract name = false

theorem typeDiagnostics_eq_nil_iff {h : Hierarchy} {r : Rule} :
    r.typeDiagnostics h = [] ↔ r.Known h := by
  rw [typeDiagnostics, List.append_eq_nil_iff, Types.checkItems_eq_flatMap,
    List.flatMap_eq_nil_iff, Types.checkTemplate_eq_nil_iff]
  constructor
  · rintro ⟨hpattern,hresult⟩
    exact ⟨fun i hi => (Types.checkItem_eq_nil_iff i).mp (hpattern i hi),hresult⟩
  · rintro ⟨hpattern,hresult⟩
    exact ⟨fun i hi => (Types.checkItem_eq_nil_iff i).mpr (hpattern i hi),hresult⟩

end Rule

/-- In a file that is free of errors the types of every rule are known. -/
lemma RuleFile.known_of_check {f : RuleFile} {h : Hierarchy} (hc : f.check (some h) = []) {r : Rule}
    (hr : r ∈ f.rules) : r.Known h := by
  have hnone := List.flatMap_eq_nil_iff.mp hc r hr
  exact Rule.typeDiagnostics_eq_nil_iff.mp (List.append_eq_nil_iff.mp hnone).2

end TreeRules
