import TreeRules.Proofs.Check.Firm
import TreeRules.Proofs.Pattern.Tested
import Mathlib.Tactic.MkIffOfInductiveProp

/-! Well-shaped rules. What may stand where is said of an item and the items directly inside it, and
of what is under a negated item or in a repeated one. The check of shape reports nothing exactly if
all of this holds at every depth. -/
namespace TreeRules

namespace Item

/-- A node that is described with its data and children. -/
def isNode : Item → Bool
  | fixed _ _ _ _ => true
  | _ => false

def isAllOf : Item → Bool
  | allOf _ _ => true
  | _ => false

/-- What is asked of an item itself, wherever it stands. -/
@[mk_iff] structure Allowed (i : Item) : Prop where
  negation : i.negated = true → i.isNode = true ∨ i.isTypedHole = true ∨ i.isAnyOf = true
  range : ∀ t first last hole, i = symbolRange t first last hole → first ≤ last
  combined : i.isAnyOf = true ∨ i.isAllOf = true → i.inner ≠ []
  /-- A negated node has no hole in its data position. -/
  data : i.negated = true → i.isNode = true → i.dataHole? = none

/-- What is asked of an item and of the items inside it. -/
structure WellShaped (i : Item) : Prop extends Allowed i where
  /-- Under a negated item there are no holes, at any depth. -/
  hidden : i.negated = true → ∀ k ∈ i.inner, ∀ j ∈ k.parts, j.ownHole? = none
  /-- Items inside others have no modes. -/
  modes : ∀ k ∈ i.inner, k.mode = .normal
  /-- Inside others, an ellipsis stands last among the children of a node. -/
  ellipses : ∀ before k behind, i.inner = before ++ k :: behind → k.isEllipsis = true →
    i.isNode = true ∧ behind = []
  /-- Inside others, an untyped hole for one child stands among the children of a node. -/
  holes : ∀ k ∈ i.inner, k.isSingleHole = true → i.isNode = true

/-- What is asked of an item on the left side of a rule. -/
structure WellPlaced (i : Item) : Prop where
  mode : i.mode ≠ .normal → i.isAnyOf = false ∧ i.isAllOf = false
  ellipsis : i.isEllipsis = false
  hole : i.isSingleHole = false
  /-- In a repeated item there are no data holes, at any depth. -/
  data : i.mode = .repeated → ∀ j ∈ i.parts, j.dataHole? = none

end Item

/-- A rule whose left side is not empty and has everything where it may stand. -/
structure Rule.WellShaped (r : Rule) : Prop where
  pattern : r.pattern ≠ []
  top : ∀ i ∈ r.pattern, i.WellPlaced
  parts : ∀ j ∈ Item.listParts r.pattern, j.WellShaped

namespace Shape

variable {note : Diagnostic.Note} {c : Context} {i : Item}

/-- What is asked of an item because of the position that it has. -/
structure Fits (p : Position) (i : Item) : Prop where
  mode : i.mode ≠ .normal → p = .top ∧ i.isAnyOf = false ∧ i.isAllOf = false
  ellipsis : i.isEllipsis = true → p = .child true
  hole : i.isSingleHole = true → ∃ last, p = .child last

/-- What is asked of an item itself, where it stands. -/
@[mk_iff] structure Own (c : Context) (i : Item) : Prop where
  fits : Fits c.position i
  allowed : i.Allowed
  hidden : c.negated = true → i.ownHole? = none
  single : c.repeated = true → i.dataHole? = none

lemma faultIf_eq_nil_iff {bad : Bool} {kind : Diagnostic.Kind} :
    faultIf bad kind = [] ↔ bad = false := by
  cases bad <;> simp [faultIf]

lemma dataHoleFaults_eq_nil_iff {present blocked repeated : Bool} :
    dataHoleFaults present blocked repeated = [] ↔
      (blocked = true ∨ repeated = true → present = false) := by
  cases present <;> cases blocked <;> cases repeated <;> simp [dataHoleFaults]

lemma fits_iff : Fits c.position i ↔
    badMode c i = false ∧ badEllipsis c i = false ∧ badUntypedHole c i = false := by
  have hmode : badMode c i = false ↔
      (i.mode ≠ .normal → c.position = .top ∧ i.isAnyOf = false ∧ i.isAllOf = false) := by
    cases i <;> simp [badMode, isCombinator, Item.isAnyOf, Item.isAllOf]
  have hellipsis : badEllipsis c i = false ↔ (i.isEllipsis = true → c.position = .child true) := by
    simp [badEllipsis]
  have hhole : badUntypedHole c i = false ↔
      (i.isSingleHole = true → ∃ last, c.position = .child last) := by
    obtain ⟨position,negated,repeated⟩ := c
    cases position <;> cases i <;>
      simp [badUntypedHole, isUntypedHole, isChild, Item.isSingleHole, Item.isEllipsis]
  rw [hmode, hellipsis, hhole]
  exact ⟨fun h => ⟨h.mode,h.ellipsis,h.hole⟩,fun h => ⟨h.1,h.2.1,h.2.2⟩⟩

lemma badNegation_eq_false_iff : badNegation i = false ↔
    (i.negated = true → i.isNode = true ∨ i.isTypedHole = true ∨ i.isAnyOf = true) := by
  cases i <;> simp [badNegation, canBeNegated, Item.isNode, Item.isTypedHole, Item.isAnyOf]

lemma isDataHole_eq_false_iff {data : Option Datum} :
    isDataHole data = false ↔ Datum.hole? data = none := by
  rcases data with _ | (hole | text) <;> simp [isDataHole, Datum.hole?]

/-- Each condition on an item itself has its own diagnostic. -/
lemma ownFaults_eq_nil_iff : ownFaults c i = [] ↔ Own c i := by
  rw [own_iff, fits_iff, Item.allowed_iff, ← badNegation_eq_false_iff]
  simp only [ownFaults, List.append_eq_nil_iff, faultIf_eq_nil_iff]
  cases i with
  | fixed t type data children =>
    simp only [dataHoleFaults_eq_nil_iff, isDataHole_eq_false_iff, Item.isNode, Item.isAnyOf,
      Item.isAllOf, Item.ownHole?, Item.asHole?, Item.dataHole?, Item.negated, Item.tag]
    grind
  | symbolRange t first last hole =>
    have hrange : (∀ t' first' last' hole', Item.symbolRange t first last hole =
        .symbolRange t' first' last' hole' → first' ≤ last') ↔ first ≤ last := by
      refine ⟨fun h => h t first last hole rfl,?_⟩
      rintro hle _ _ _ _ ⟨⟩
      exact hle
    simp only [hrange, List.append_eq_nil_iff, faultIf_eq_nil_iff, dataHoleFaults_eq_nil_iff,
      decide_eq_false_iff_not, Char.not_lt, Option.isSome_eq_false_iff, Option.isNone_iff_eq_none,
      Option.none_or, Item.isNode, Item.isAnyOf, Item.isAllOf, Item.ownHole?, Item.asHole?,
      Item.dataHole?]
    grind
  | typedHole | untypedHole | anyOf | allOf | rest =>
    simp only [faultIf_eq_nil_iff, Item.isNode, Item.isAnyOf, Item.isAllOf, Item.ownHole?,
      Item.asHole?, Item.dataHole?, Item.inner]
    grind

/-! Items inside others. -/

/-- Where an item stands directly inside another. -/
def innerPosition (i : Item) (last : Bool) : Position :=
  if i.isNode then .child last else .combinator

/-- In what an item is checked directly inside another. -/
def innerContext (c : Context) (i : Item) (last : Bool) : Context :=
  ⟨innerPosition i last,c.negated || i.negated,c.repeated⟩

lemma checkChildren_eq_nil_iff {negated repeated : Bool} {items : List Item} :
    checkChildren note negated repeated items = [] ↔ ∀ before k behind,
      items = before ++ k :: behind →
        check note ⟨.child behind.isEmpty,negated,repeated⟩ k = [] := by
  induction items with
  | nil => simp [checkChildren]
  | cons i items ih =>
    rw [checkChildren, List.append_eq_nil_iff, ih]
    constructor
    · rintro ⟨hi,hitems⟩ before k behind hsplit
      rcases List.cons_eq_append_iff.mp hsplit with ⟨rfl,h⟩ | ⟨before,rfl,h⟩
      · cases h
        exact hi
      · exact hitems before k behind h
    · intro h
      exact ⟨h [] i items rfl,fun before k behind hsplit =>
        h (i :: before) k behind (by rw [hsplit, List.cons_append])⟩

lemma checkAll_eq_nil_iff {items : List Item} :
    checkAll note c items = [] ↔ ∀ before k behind, items = before ++ k :: behind →
      check note c k = [] := by
  rw [checkAll_eq_nil]
  constructor
  · rintro h before k behind rfl
    exact h k (by simp)
  · intro h k hk
    obtain ⟨before,behind,hsplit⟩ := List.append_of_mem hk
    exact h before k behind hsplit

/-- An item passes if it has no faults itself and what is directly inside passes. -/
lemma check_eq_nil_iff_inner : check note c i = [] ↔ Own c i ∧ ∀ before k behind,
    i.inner = before ++ k :: behind →
      check note (innerContext c i behind.isEmpty) k = [] := by
  rw [← ownFaults_eq_nil_iff]
  cases i with
  | fixed t type data children =>
    rw [check, List.append_eq_nil_iff, reports_eq_nil, checkChildren_eq_nil_iff]
    rfl
  | anyOf t items | allOf t items =>
    rw [check, List.append_eq_nil_iff, reports_eq_nil, checkAll_eq_nil_iff]
    rfl
  | typedHole | untypedHole | symbolRange | rest =>
    simp [check, reports_eq_nil, Item.inner]

/-- What a context asks of an item and of all that is inside it. -/
structure Passes (c : Context) (i : Item) : Prop where
  fits : Fits c.position i
  shaped : ∀ j ∈ i.parts, j.WellShaped
  hidden : c.negated = true → ∀ j ∈ i.parts, j.ownHole? = none
  single : c.repeated = true → ∀ j ∈ i.parts, j.dataHole? = none

lemma Passes.own (h : Passes c i) : Own c i :=
  have hi := h.shaped i i.self_mem_parts
  ⟨h.fits,hi.toAllowed,fun hc => h.hidden hc i i.self_mem_parts,
    fun hc => h.single hc i i.self_mem_parts⟩

lemma Passes.inner (h : Passes c i) {before behind : List Item} {k : Item}
    (hsplit : i.inner = before ++ k :: behind) : Passes (innerContext c i behind.isEmpty) k := by
  have hi := h.shaped i i.self_mem_parts
  have hk : k ∈ i.inner := by simp [hsplit]
  have hparts : ∀ j ∈ k.parts, j ∈ i.parts := fun j hj => Item.mem_parts_of_mem_inner hk hj
  refine ⟨⟨fun hm => absurd (hi.modes k hk) hm,fun he => ?_,fun hh => ?_⟩,
    fun j hj => h.shaped j (hparts j hj),fun hc j hj => ?_,
    fun hc j hj => h.single hc j (hparts j hj)⟩
  · obtain ⟨hnode,rfl⟩ := hi.ellipses before k behind hsplit he
    simp [innerContext, innerPosition, hnode]
  · simp [innerContext, innerPosition, hi.holes k hk hh]
  · rcases Bool.or_eq_true_iff.mp hc with hc | hn
    · exact h.hidden hc j (hparts j hj)
    · exact hi.hidden hn k hk j hj

/-- Where all that is directly inside passes, the item is well-shaped. -/
lemma Own.wellShaped (h : Own c i) (hinner : ∀ before k behind, i.inner = before ++ k :: behind →
    Passes (innerContext c i behind.isEmpty) k) : i.WellShaped := by
  have hmem : ∀ k ∈ i.inner, ∃ last, Passes (innerContext c i last) k := by
    intro k hk
    obtain ⟨before,behind,hsplit⟩ := List.append_of_mem hk
    exact ⟨_,hinner before k behind hsplit⟩
  refine ⟨h.allowed,fun hn k hk => ?_,fun k hk => ?_,fun before k behind hsplit he => ?_,
    fun k hk hh => ?_⟩
  · obtain ⟨last,hp⟩ := hmem k hk
    exact hp.hidden (by simp [innerContext, hn])
  · obtain ⟨last,hp⟩ := hmem k hk
    by_contra hm
    have htop := (hp.fits.mode hm).1
    simp only [innerContext, innerPosition] at htop
    split_ifs at htop
  · have hlast := (hinner before k behind hsplit).fits.ellipsis he
    simp only [innerContext, innerPosition] at hlast
    split_ifs at hlast with hnode
    exact ⟨hnode,by simpa using hlast⟩
  · obtain ⟨last,hp⟩ := hmem k hk
    obtain ⟨last',hchild⟩ := hp.fits.hole hh
    simp only [innerContext, innerPosition] at hchild
    split_ifs at hchild with hnode
    exact hnode

/-- An item is asked for the same as by asking the item itself and all that is directly inside. -/
lemma passes_iff_inner : Passes c i ↔ Own c i ∧ ∀ before k behind,
    i.inner = before ++ k :: behind → Passes (innerContext c i behind.isEmpty) k := by
  refine ⟨fun h => ⟨h.own,fun before k behind hsplit => h.inner hsplit⟩,fun ⟨ho,hinner⟩ => ?_⟩
  have hcases : ∀ j ∈ i.parts, j = i ∨
      ∃ k last, j ∈ k.parts ∧ Passes (innerContext c i last) k := by
    intro j hj
    rcases Item.mem_parts.mp hj with rfl | ⟨k,hk,hj⟩
    · exact Or.inl rfl
    · obtain ⟨before,behind,hsplit⟩ := List.append_of_mem hk
      exact Or.inr ⟨k,_,hj,hinner before k behind hsplit⟩
  refine ⟨ho.fits,fun j hj => ?_,fun hc j hj => ?_,fun hc j hj => ?_⟩
  · rcases hcases j hj with rfl | ⟨k,last,hj,hp⟩
    · exact ho.wellShaped hinner
    · exact hp.shaped j hj
  · rcases hcases j hj with rfl | ⟨k,last,hj,hp⟩
    · exact ho.hidden hc
    · exact hp.hidden (by simp [innerContext, hc]) j hj
  · rcases hcases j hj with rfl | ⟨k,last,hj,hp⟩
    · exact ho.single hc
    · exact hp.single hc j hj

/-- The check of an item reports nothing exactly if it passes, with all that is inside. -/
theorem check_eq_nil_iff : check note c i = [] ↔ Passes c i := by
  induction i using Item.ind_inner generalizing c with
  | h i ih =>
    rw [check_eq_nil_iff_inner, passes_iff_inner]
    refine and_congr_right fun _ => forall₃_congr fun before k behind => ?_
    exact imp_congr_right fun hsplit => ih k (by simp [hsplit])

lemma passes_top_iff : Passes (.top i) i ↔ i.WellPlaced ∧ ∀ j ∈ i.parts, j.WellShaped := by
  constructor
  · intro h
    refine ⟨⟨fun hm => (h.fits.mode hm).2,?_,?_,fun hm => h.single (by simp [Context.top, hm])⟩,
      h.shaped⟩
    · by_contra he
      cases h.fits.ellipsis (by simpa using he)
    · by_contra hh
      obtain ⟨last,hl⟩ := h.fits.hole (by simpa using hh)
      cases hl
  · rintro ⟨hp,hs⟩
    refine ⟨⟨fun hm => ⟨rfl,hp.mode hm⟩,?_,?_⟩,hs,by simp [Context.top],fun hc => ?_⟩
    · simp [hp.ellipsis]
    · simp [hp.hole]
    · exact hp.data (by simpa [Context.top] using hc)

end Shape

/-- The check of shape reports nothing exactly of well-shaped rules. -/
theorem Rule.shapeDiagnostics_eq_nil_iff (r : Rule) :
    r.shapeDiagnostics = [] ↔ r.WellShaped := by
  have hempty : (if r.pattern.isEmpty then
      [Diagnostic.report .emptyPattern r.span (some r.text) []] else []) = [] ↔ r.pattern ≠ [] := by
    simp
  rw [shapeDiagnostics, List.append_eq_nil_iff, hempty, Shape.checkTop, List.flatMap_eq_nil_iff]
  simp only [Shape.check_eq_nil_iff, Shape.passes_top_iff]
  constructor
  · rintro ⟨hp,htop⟩
    refine ⟨hp,fun i hi => (htop i hi).1,fun j hj => ?_⟩
    obtain ⟨i,hi,hj⟩ := Item.mem_listParts.mp hj
    exact (htop i hi).2 j hj
  · rintro ⟨hp,htop,hparts⟩
    exact ⟨hp,fun i hi => ⟨htop i hi,fun j hj => hparts j (Item.mem_listParts.mpr ⟨i,hi,hj⟩)⟩⟩

end TreeRules
