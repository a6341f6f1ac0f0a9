import TreeRules.Check.Holes
import TreeRules.Proofs.Check.HoleTable
import TreeRules.Proofs.Pattern.Holes

/-! Which holes a table declares. Declaring the holes of a left side, alternatives included, makes a
table that declares the holes that occur in it, and no others. -/
namespace TreeRules

namespace HoleTable

variable (t : HoleTable)

lemma isDeclared_iff {hole : Hole} : t.isDeclared hole = true ↔ ∃ e ∈ t.entries, e.hole = hole := by
  simp [isDeclared, find?]

lemma isDeclared_append (e : HoleEntry) (hole : Hole) :
    isDeclared ⟨t.entries ++ [e]⟩ hole = true ↔ t.isDeclared hole = true ∨ e.hole = hole := by
  simp only [isDeclared_iff, List.mem_append, List.mem_singleton]
  constructor
  · rintro ⟨e',he' | rfl,rfl⟩
    · exact Or.inl ⟨e',he',rfl⟩
    · exact Or.inr rfl
  · rintro (⟨e',he',rfl⟩ | rfl)
    · exact ⟨e',Or.inl he',rfl⟩
    · exact ⟨e,Or.inr rfl,rfl⟩

lemma isDeclared_setSingle (hole other : Hole) (span : Option Span) :
    (t.setSingle hole span).isDeclared other = t.isDeclared other := by
  rw [isDeclared, find?_setSingle, Option.isSome_map, isDeclared]

/-- Declaring a hole declares it and nothing else. -/
lemma isDeclared_declare (hole other : Hole) (span : Span) (repeated : Bool) :
    (t.declare hole span repeated).2.isDeclared other = true ↔
      t.isDeclared other = true ∨ hole = other := by
  rw [declare]
  cases hf : t.find? hole with
  | none => exact t.isDeclared_append _ other
  | some e =>
    have hd : hole = other → t.isDeclared other = true := by
      rintro rfl
      rw [isDeclared, hf]
      rfl
    have hsame : t.isDeclared other = true ↔ t.isDeclared other = true ∨ hole = other :=
      ⟨Or.inl,fun h => h.elim id hd⟩
    dsimp only
    split_ifs
    · exact hsame
    · cases e.single with
      | some earlier => exact hsame
      | none =>
        dsimp only
        rw [isDeclared_setSingle]
        exact hsame

lemma isDeclared_mergeEntry (e : HoleEntry) (hole : Hole) :
    (t.mergeEntry e).isDeclared hole = true ↔ t.isDeclared hole = true ∨ e.hole = hole := by
  rw [mergeEntry]
  split_ifs with hd
  · rw [isDeclared_setSingle]
    refine ⟨Or.inl,fun h => h.elim id ?_⟩
    rintro rfl
    exact hd
  · exact t.isDeclared_append e hole

/-- Merging keeps the holes of both tables and adds none. -/
lemma isDeclared_merge (branch : HoleTable) (hole : Hole) :
    (t.merge branch).isDeclared hole = true ↔
      t.isDeclared hole = true ∨ branch.isDeclared hole = true := by
  rw [merge, branch.isDeclared_iff]
  generalize branch.entries = es
  induction es generalizing t with
  | nil => simp
  | cons e es ih =>
    rw [List.foldl_cons, ih, isDeclared_mergeEntry]
    simp [or_assoc]

end HoleTable

/-- The hole that an item itself has: the one that it is, or the one in its data position. -/
def Item.ownHole? (i : Item) : Option Hole := i.asHole?.or i.dataHole?

namespace Holes

variable {note : Diagnostic.Note} {repeated : Bool} {hole : Hole}

/-- Some item has the hole. -/
def OccursIn (items : List Item) (hole : Hole) : Prop := ∃ j ∈ items, j.ownHole? = some hole

lemma occursIn_cons {i : Item} {items : List Item} :
    OccursIn (i :: items) hole ↔ i.ownHole? = some hole ∨ OccursIn items hole := by
  simp [OccursIn]

lemma occursIn_listParts_cons {i : Item} {items : List Item} :
    OccursIn (Item.listParts (i :: items)) hole ↔
      OccursIn i.parts hole ∨ OccursIn (Item.listParts items) hole := by
  simp only [OccursIn, Item.listParts, List.mem_append, or_and_right, exists_or]

lemma isDeclared_declare (span : Span) (p : Progress) (other : Hole) :
    (declare note repeated hole span p).table.isDeclared other = true ↔
      p.table.isDeclared other = true ∨ hole = other := p.table.isDeclared_declare _ _ _ _

lemma isDeclared_declareData (span : Span) (data : Option Datum) (p : Progress) :
    (declareData note repeated span data p).table.isDeclared hole = true ↔
      p.table.isDeclared hole = true ∨ Datum.hole? data = some hole := by
  rcases data with _ | (hole' | text)
  · simp [declareData, Datum.hole?]
  · rw [declareData, isDeclared_declare, Datum.hole?, Option.some_inj]
  · simp [declareData, Datum.hole?]

/-- Declaring the item declares the holes that occur in it, and no others. -/
def DeclaresParts (note : Diagnostic.Note) (repeated : Bool) (i : Item) : Prop :=
  ∀ (p : Progress) (hole : Hole), (declareItem note repeated i p).table.isDeclared hole = true ↔
    p.table.isDeclared hole = true ∨ OccursIn i.parts hole

section Lists

variable {items : List Item} (ih : ∀ i ∈ items, DeclaresParts note repeated i)
include ih

lemma isDeclared_declareItems (p : Progress) (hole : Hole) :
    (declareItems note repeated items p).table.isDeclared hole = true ↔
      p.table.isDeclared hole = true ∨ OccursIn (Item.listParts items) hole := by
  induction items generalizing p with
  | nil => simp [declareItems, OccursIn, Item.listParts]
  | cons i items ihi =>
    rw [declareItems, ihi (fun j hj => ih j (List.mem_cons_of_mem _ hj)), ih i List.mem_cons_self,
      occursIn_listParts_cons, or_assoc]

/-- What was declared before the alternatives is declared anyway. -/
lemma isDeclared_declareAlternatives {before : HoleTable} {p : Progress}
    (hb : ∀ hole, before.isDeclared hole = true → p.table.isDeclared hole = true) (hole : Hole) :
    (declareAlternatives note repeated before items p).table.isDeclared hole = true ↔
      p.table.isDeclared hole = true ∨ OccursIn (Item.listParts items) hole := by
  induction items generalizing p with
  | nil => simp [declareAlternatives, OccursIn, Item.listParts]
  | cons i items ihi =>
    have hbranch := ih i List.mem_cons_self ⟨before,p.diagnostics⟩
    have hmerge : ∀ hole, (p.table.merge
        (declareItem note repeated i ⟨before,p.diagnostics⟩).table).isDeclared hole = true ↔
          p.table.isDeclared hole = true ∨ OccursIn i.parts hole := by
      intro hole
      rw [HoleTable.isDeclared_merge, hbranch]
      constructor
      · rintro (hp | hbefore | hi)
        · exact Or.inl hp
        · exact Or.inl (hb hole hbefore)
        · exact Or.inr hi
      · exact Or.imp_right Or.inr
    rw [declareAlternatives, ihi (fun j hj => ih j (List.mem_cons_of_mem _ hj))
      (fun hole hbefore => (hmerge hole).mpr (Or.inl (hb hole hbefore))), hmerge,
      occursIn_listParts_cons, or_assoc]

end Lists

theorem declaresParts (i : Item) : DeclaresParts note repeated i := by
  induction i using Item.ind with
  | fixed t type data children ih =>
    intro p hole
    rw [declareItem, isDeclared_declareItems ih, isDeclared_declareData, Item.parts,
      occursIn_cons, or_assoc]
    rfl
  | typedHole t type hole ellipsis | untypedHole t hole ellipsis =>
    intro p other
    rw [declareItem, isDeclared_declare]
    simp [OccursIn, Item.parts, Item.ownHole?, Item.asHole?]
  | symbolRange t first last range =>
    intro p hole
    rw [declareItem, isDeclared_declareData]
    cases range <;>
      simp [OccursIn, Item.parts, Item.ownHole?, Item.asHole?, Item.dataHole?, Datum.hole?]
  | anyOf t items ih =>
    intro p hole
    rw [declareItem, isDeclared_declareAlternatives ih fun _ hp => hp, Item.parts, occursIn_cons]
    simp [Item.ownHole?, Item.asHole?, Item.dataHole?]
  | allOf t items ih =>
    intro p hole
    rw [declareItem, isDeclared_declareItems ih, Item.parts, occursIn_cons]
    simp [Item.ownHole?, Item.asHole?, Item.dataHole?]
  | rest t =>
    intro p hole
    simp [declareItem, OccursIn, Item.parts, Item.ownHole?, Item.asHole?, Item.dataHole?]

lemma isDeclared_declareTop (items : List Item) (p : Progress) :
    (declareTop note items p).table.isDeclared hole = true ↔
      p.table.isDeclared hole = true ∨ OccursIn (Item.listParts items) hole := by
  induction items generalizing p with
  | nil => simp [declareTop, OccursIn, Item.listParts]
  | cons i items ih =>
    rw [declareTop, ih, declaresParts i p hole, occursIn_listParts_cons, or_assoc]

end Holes

namespace Rule

variable {r : Rule}

/-- The table of a rule declares the holes that occur in its left side. -/
theorem isDeclared_checkHoles (r : Rule) (hole : Hole) :
    r.checkHoles.1.isDeclared hole = true ↔
      Holes.OccursIn (Item.listParts r.pattern) hole := by
  rw [checkHoles]
  dsimp only
  rw [Holes.isDeclared_declareTop]
  simp [HoleTable.empty, HoleTable.isDeclared, HoleTable.find?]

/-- Where the check of holes reports nothing, every hole that is read occurs in the left side. -/
theorem occursIn_of_checkHoles (h : r.checkHoles.2 = []) {read : Hole × Span}
    (hr : read ∈ r.result.holes) : Holes.OccursIn (Item.listParts r.pattern) read.1 := by
  have hundeclared := (List.append_eq_nil_iff.mp h).2
  rw [Holes.undeclared, List.map_eq_nil_iff, List.filter_eq_nil_iff] at hundeclared
  have hd := hundeclared read hr
  simp only [Bool.not_eq_true, Bool.not_eq_false'] at hd
  exact (r.isDeclared_checkHoles read.1).mp hd

end Rule

end TreeRules
