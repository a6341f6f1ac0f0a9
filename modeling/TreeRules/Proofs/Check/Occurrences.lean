import TreeRules.Proofs.Check.Declared

/-! Where holes occur in a left side. Each item inside has a way to it, which tells the alternatives
that it lies in. Two occurrences of one hole clash if both are outside repeated items and they do
not lie in different alternatives of one `|`. -/
namespace TreeRules

namespace Item

/-- A step from an item to one that is directly inside, by its number there. -/
inductive Step where
  /-- To one of the alternatives of `|`. -/
  | alternative (n : Nat)
  /-- To a child of a node, or to one of the items of `&`. -/
  | part (n : Nat)
deriving DecidableEq

def Step.isAlternative : Step → Bool
  | alternative _ => true
  | part _ => false

/-- The ways are the same up to some `|`, and from there lead to different alternatives of it. -/
inductive Apart : List Step → List Step → Prop
  | here {k l : Nat} {v w : List Step} (hne : k ≠ l) :
      Apart (.alternative k :: v) (.alternative l :: w)
  | later {v w : List Step} (s : Step) (h : Apart v w) : Apart (s :: v) (s :: w)

mutual

/-- The item and all items inside it, in the order of their writing, each with the way to it. -/
def located (way : List Step) : Item → List (List Step × Item)
  | fixed t type data children =>
    (way,fixed t type data children) :: listLocated .part way 0 children
  | anyOf t items => (way,anyOf t items) :: listLocated .alternative way 0 items
  | allOf t items => (way,allOf t items) :: listLocated .part way 0 items
  | i => [(way,i)]

/-- The items of a list, numbered from `n` on, and all items inside them. -/
def listLocated (step : Nat → Step) (way : List Step) (n : Nat) :
    List Item → List (List Step × Item)
  | [] => []
  | i :: items => i.located (way ++ [step n]) ++ listLocated step way (n + 1) items

end

end Item

/-- A hole where it stands on a left side. -/
structure Occurrence where
  hole : Hole
  /-- The place of the item that has the hole. -/
  span : Span
  /-- Inside a repeated item. -/
  repeated : Bool
  /-- The way to the item that has the hole. -/
  way : List Item.Step

/-- The holes that located items have themselves. -/
def occurrencesAmong (repeated : Bool) (items : List (List Item.Step × Item)) : List Occurrence :=
  items.filterMap fun p => p.2.ownHole?.map fun hole => ⟨hole,p.2.span,repeated,p.1⟩

/-- The holes in an item, in the order of their writing. -/
def Item.occurrences (repeated : Bool) (way : List Step) (i : Item) : List Occurrence :=
  occurrencesAmong repeated (i.located way)

/-- The holes on the left side of a rule, in the order of their writing. -/
def Rule.occurrences (r : Rule) : List Occurrence :=
  r.pattern.zipIdx.flatMap fun p => p.1.occurrences (p.1.mode == .repeated) [.part p.2]

/-- The occurrences are of one hole, outside repeated items, and not in different alternatives of
one `|`. -/
def Occurrence.Clashes (o p : Occurrence) : Prop :=
  o.hole = p.hole ∧ o.repeated = false ∧ p.repeated = false ∧ ¬ Item.Apart o.way p.way

namespace Item.Apart

variable {v w way : List Step}

lemma cons_iff {s t : Step} : Apart (s :: v) (t :: w) ↔
    s = t ∧ Apart v w ∨ s ≠ t ∧ s.isAlternative = true ∧ t.isAlternative = true := by
  constructor
  · rintro (hne | ⟨s,h⟩)
    · exact Or.inr ⟨by simpa using hne,rfl,rfl⟩
    · exact Or.inl ⟨rfl,h⟩
  · rintro (⟨rfl,h⟩ | ⟨hne,hs,ht⟩)
    · exact .later s h
    · cases s <;> cases t
      · exact .here (by simpa using hne)
      all_goals contradiction

instance decidable : (v w : List Step) → Decidable (Apart v w)
  | [], _ => isFalse nofun
  | _ :: _, [] => isFalse nofun
  | _ :: v, _ :: w =>
    have := decidable v w
    decidable_of_iff _ cons_iff.symm

@[simp] lemma not_nil_right : ¬ Apart v [] := nofun

@[simp] lemma not_nil_left : ¬ Apart [] w := nofun

/-- Items inside an item are not apart from it. -/
lemma not_of_isPrefix (h : way <+: v) : ¬ Apart v way := by
  intro ha
  induction ha with
  | here hne => exact hne (by simpa using (List.cons_prefix_cons.mp h).1.symm)
  | later s _ ih => exact ih (List.cons_prefix_cons.mp h).2

/-- One more step leads away from what was away before, and from the other alternatives. -/
lemma append_singleton_iff {s : Step} : Apart v (way ++ [s]) ↔ Apart v way ∨
    ∃ k n, k ≠ n ∧ s = .alternative n ∧ way ++ [.alternative k] <+: v := by
  induction way generalizing v with
  | nil =>
    cases v with
    | nil => simp
    | cons t v => cases s <;> cases t <;> simp [cons_iff, Step.isAlternative]
  | cons a way ih =>
    cases v with
    | nil => simp
    | cons t v =>
      simp only [List.cons_append, cons_iff, ih, List.cons_prefix_cons]
      grind

lemma append_part_iff {n : Nat} : Apart v (way ++ [.part n]) ↔ Apart v way := by
  simp [append_singleton_iff]

lemma append_alternative {k n : Nat} (hne : k ≠ n) (h : way ++ [.alternative k] <+: v) :
    Apart v (way ++ [.alternative n]) :=
  append_singleton_iff.mpr (Or.inr ⟨k,n,hne,rfl,h⟩)

/-- Outside an item nothing depends on the alternative inside. -/
lemma append_alternative_iff {n : Nat} (h : ¬ way <+: v) :
    Apart v (way ++ [.alternative n]) ↔ Apart v way := by
  rw [append_singleton_iff, or_iff_left]
  rintro ⟨k,-,-,-,hk⟩
  exact h ((List.prefix_append _ _).trans hk)

end Item.Apart

namespace Item

variable {way : List Step} {n : Nat} {step : Nat → Step}

lemma isPrefix_of_mem_listLocated {items : List Item}
    (ih : ∀ i ∈ items, ∀ way, ∀ p ∈ i.located way, way <+: p.1) :
    ∀ p ∈ listLocated step way n items, ∃ m ≥ n, way ++ [step m] <+: p.1 := by
  induction items generalizing n with
  | nil => simp [listLocated]
  | cons i items ihi =>
    intro p hp
    rw [listLocated] at hp
    rcases List.mem_append.mp hp with hp | hp
    · exact ⟨n,Nat.le_refl n,ih i List.mem_cons_self _ p hp⟩
    · obtain ⟨m,hm,hway⟩ := ihi (fun j hj => ih j (List.mem_cons_of_mem _ hj)) p hp
      exact ⟨m,by omega,hway⟩

/-- A way does not go on with two different steps. -/
lemma not_isPrefix_of_ne {v : List Step} {s t : Step} (hne : s ≠ t) (h : way ++ [s] <+: v) :
    ¬ way ++ [t] <+: v := by
  intro ht
  have hst := (List.prefix_of_prefix_length_le h ht (by simp)).eq_of_length (by simp)
  exact hne (by simpa using hst)

/-- The ways to the items inside go on from the way to the item. -/
lemma isPrefix_of_mem_located (i : Item) : ∀ way, ∀ p ∈ i.located way, way <+: p.1 := by
  induction i using Item.ind with
  | fixed t type data items ih | anyOf t items ih | allOf t items ih =>
    intro way p hp
    rw [located] at hp
    rcases List.mem_cons.mp hp with rfl | hp
    · exact List.prefix_rfl
    · obtain ⟨m,-,hway⟩ := isPrefix_of_mem_listLocated ih p hp
      exact (List.prefix_append _ _).trans hway
  | typedHole | untypedHole | symbolRange | rest =>
    intro way p hp
    obtain rfl := List.mem_singleton.mp hp
    exact List.prefix_rfl

lemma isPrefix_of_mem_occurrences {repeated : Bool} {i : Item} :
    ∀ o ∈ i.occurrences repeated way, way <+: o.way := by
  intro o ho
  obtain ⟨p,hp,hpo⟩ := List.mem_filterMap.mp ho
  obtain ⟨hole,-,rfl⟩ := Option.map_eq_some_iff.mp hpo
  exact isPrefix_of_mem_located i way p hp

end Item

instance (o p : Occurrence) : Decidable (o.Clashes p) :=
  inferInstanceAs (Decidable (_ ∧ _ ∧ _ ∧ ¬ _))

/-! Occurrences in an item of each form. -/

section Forms

variable {repeated : Bool} {way : List Item.Step} {t : Item.Tag}

lemma occurrencesAmong_append (xs ys : List (List Item.Step × Item)) :
    occurrencesAmong repeated (xs ++ ys) =
      occurrencesAmong repeated xs ++ occurrencesAmong repeated ys := List.filterMap_append

lemma Item.occurrences_fixed (type : String) (data : Option Datum) (children : List Item) :
    (Item.fixed t type data children).occurrences repeated way =
      (Datum.hole? data).toList.map (⟨·,t.span,repeated,way⟩) ++
        occurrencesAmong repeated (listLocated .part way 0 children) := by
  rw [occurrences, located, ← List.singleton_append, occurrencesAmong_append]
  congr 1
  rcases data with _ | (hole | text) <;> rfl

lemma Item.occurrences_anyOf (items : List Item) :
    (Item.anyOf t items).occurrences repeated way =
      occurrencesAmong repeated (listLocated .alternative way 0 items) := rfl

lemma Item.occurrences_allOf (items : List Item) :
    (Item.allOf t items).occurrences repeated way =
      occurrencesAmong repeated (listLocated .part way 0 items) := rfl

end Forms

end TreeRules
