import TreeRules.Check.Holes
import TreeRules.Proofs.Check.HoleTable
import TreeRules.Proofs.Pattern.Orderly

/-! What the hole check vouches for. If declaring the holes of an item outside repeated ones
reports nothing, then the holes that the item captures of any one node are all different, and none
of them was declared singly before. Alternatives may declare the same hole, but only one of them
captures. -/
namespace TreeRules
namespace Holes

variable {note : Diagnostic.Note} {repeated : Bool} {h : Option Hierarchy}

/-- Between `p` and `q` the holes are declared singly, each for the first time. -/
structure Adds (p q : Progress) (holes : List Hole) : Prop where
  nodup : holes.Nodup
  fresh : ∀ hole ∈ holes, p.table.single? hole = none
  kept : ∀ hole, (p.table.single? hole).isSome = true → (q.table.single? hole).isSome = true
  added : ∀ hole ∈ holes, (q.table.single? hole).isSome = true

namespace Adds

variable {p q r : Progress} {xs ys : List Hole}

lemma refl (p : Progress) : Adds p p [] := ⟨.nil,by simp,fun _ => id,by simp⟩

lemma trans (hx : Adds p q xs) (hy : Adds q r ys) : Adds p r (xs ++ ys) := by
  have hne : ∀ a ∈ xs, ∀ b ∈ ys, a ≠ b := by
    rintro hole hxs _ hys rfl
    have hsome := hx.added hole hxs
    rw [hy.fresh hole hys] at hsome
    cases hsome
  refine ⟨List.nodup_append.mpr ⟨hx.nodup,hy.nodup,hne⟩,?_,
    fun hole hp => hy.kept hole (hx.kept hole hp),?_⟩
  · intro hole hm
    rcases List.mem_append.mp hm with hm | hm
    · exact hx.fresh hole hm
    · by_contra hp
      have hq := hx.kept hole (Option.isSome_iff_ne_none.mpr hp)
      rw [hy.fresh hole hm] at hq
      cases hq
  · intro hole hm
    rcases List.mem_append.mp hm with hm | hm
    · exact hy.kept hole (hx.added hole hm)
    · exact hy.added hole hm

lemma sublist (hx : Adds p q xs) (hs : ys.Sublist xs) : Adds p q ys :=
  ⟨hx.nodup.sublist hs,fun hole hm => hx.fresh hole (hs.subset hm),hx.kept,
    fun hole hm => hx.added hole (hs.subset hm)⟩

end Adds

/-- Holes count if they are declared outside repeated items. -/
def counted (repeated : Bool) (holes : List Hole) : List Hole := if repeated then [] else holes

lemma counted_append (xs ys : List Hole) :
    counted repeated (xs ++ ys) = counted repeated xs ++ counted repeated ys := by
  cases repeated <;> rfl

lemma counted_sublist {xs ys : List Hole} (hs : xs.Sublist ys) :
    (counted repeated xs).Sublist (counted repeated ys) := by
  cases repeated
  · exact hs
  · exact .refl _

@[simp] lemma counted_nil : counted repeated [] = [] := by cases repeated <;> rfl

/-- Declaring without a report adds the holes. -/
def Declares (repeated : Bool) (run : Progress → Progress) (holes : List Hole) : Prop :=
  ∀ p, (run p).diagnostics = [] → p.diagnostics = [] ∧ Adds p (run p) (counted repeated holes)

lemma Declares.comp {f g : Progress → Progress} {xs ys : List Hole}
    (hf : Declares repeated f xs) (hg : Declares repeated g ys) :
    Declares repeated (fun p => g (f p)) (xs ++ ys) := by
  intro p hd
  obtain ⟨hq,hy⟩ := hg (f p) hd
  obtain ⟨hp,hx⟩ := hf p hq
  refine ⟨hp,?_⟩
  rw [counted_append]
  exact hx.trans hy

lemma Declares.sublist {f : Progress → Progress} {xs ys : List Hole}
    (hf : Declares repeated f xs) (hs : ys.Sublist xs) : Declares repeated f ys :=
  fun p hd => ⟨(hf p hd).1,(hf p hd).2.sublist (counted_sublist hs)⟩

lemma Declares.id : Declares repeated (fun p => p) [] := by
  intro p hd
  rw [counted_nil]
  exact ⟨hd,.refl p⟩

lemma declare_declares (note : Diagnostic.Note) (hole : Hole) (span : Span) :
    Declares repeated (declare note repeated hole span) [hole] := by
  intro p hd
  cases repeated with
  | true =>
    have hr := fun other => p.table.declare_repeated hole other span
    simp only [declare, (hr hole).1] at hd ⊢
    refine ⟨hd,.nil,by simp [counted],fun other ho => ?_,by simp [counted]⟩
    rwa [(hr other).2]
  | false =>
    obtain ⟨hfirst,hsingle⟩ := p.table.declare_single hole span
    simp only [declare, hfirst] at hd ⊢
    cases hs : p.table.single? hole with
    | some earlier => simp [hs] at hd
    | none =>
      simp only [hs] at hd ⊢
      refine ⟨hd,by simp [counted],by simp [counted, hs],fun other ho => ?_,?_⟩
      · rw [hsingle]
        split_ifs
        · simp
        · exact ho
      · simp [counted, hsingle]

lemma declareData_declares (note : Diagnostic.Note) (span : Span) (data : Option Datum)
    (n : Tree) :
    Declares repeated (declareData note repeated span data)
      ((Item.dataActive data n).map Prod.fst) := by
  rcases data with _ | (hole | text)
  · exact .id
  · refine (declare_declares note hole span).sublist ?_
    cases hn : n.data <;> simp [Item.dataActive, hn]
  · exact .id

section Lists

variable {items : List Item}
  (ih : ∀ i ∈ items, ∀ n, Declares repeated (declareItem note repeated i)
    ((i.active h n).map Prod.fst))
include ih

lemma declareItems_declares (n : Tree) :
    Declares repeated (declareItems note repeated items)
      ((Item.activeAll h items n).map Prod.fst) := by
  induction items with
  | nil => exact .id
  | cons i items ihi =>
    rw [Item.activeAll, List.map_append]
    exact (ih i List.mem_cons_self n).comp (ihi fun j hj => ih j (List.mem_cons_of_mem _ hj))

/-- A hole among children is declared as such, and other children by what they capture. -/
lemma declareItem_child {i : Item} (hi : i ∈ items) (ns : List Tree) :
    Declares repeated (declareItem note repeated i)
      ((i.childActive (i.active h) ns).map Prod.fst) := by
  have hhole : ∀ hole, i.asHole? = some hole →
      ((i.childActive (i.active h) ns).map Prod.fst).Sublist [hole] := by
    intro hole ha
    rw [Item.childActive, ha]
    cases ns <;> cases i.isEllipsis <;> simp
  cases i with
  | typedHole t type hole ellipsis =>
    exact (declare_declares note hole t.span).sublist (hhole hole rfl)
  | untypedHole t hole ellipsis =>
    exact (declare_declares note hole t.span).sublist (hhole hole rfl)
  | fixed | symbolRange | anyOf | allOf | rest =>
    cases ns with
    | nil => exact (ih _ hi (.node "" none [] none)).sublist (List.nil_sublist _)
    | cons n ns =>
      have hn := ih _ hi n
      simpa [Item.childActive, Item.asHole?] using hn

lemma declareChildren_declares (ns : List Tree) :
    Declares repeated (declareItems note repeated items)
      ((Item.activeChildren h items ns).map Prod.fst) := by
  induction items generalizing ns with
  | nil => exact .id
  | cons i items ihi =>
    rw [Item.activeChildren, List.map_append]
    exact (declareItem_child ih List.mem_cons_self ns).comp
      (ihi (fun j hj => ih j (List.mem_cons_of_mem _ hj)) ns.tail)

/-- Each alternative starts from what was declared before all of them, so the holes of the one that
captures are new. -/
lemma declareAlternatives_adds (n : Tree) {before : HoleTable} {p : Progress}
    (hb : ∀ hole, (before.single? hole).isSome = true → (p.table.single? hole).isSome = true)
    (hd : (declareAlternatives note repeated before items p).diagnostics = []) :
    p.diagnostics = [] ∧
      (∀ hole, (p.table.single? hole).isSome = true →
        ((declareAlternatives note repeated before items p).table.single? hole).isSome = true) ∧
      Adds ⟨before,[]⟩ (declareAlternatives note repeated before items p)
        (counted repeated ((Item.activeFirst h items n).map Prod.fst)) := by
  induction items generalizing p with
  | nil =>
    refine ⟨hd,fun _ hp => hp,?_⟩
    rw [Item.activeFirst, List.map_nil, counted_nil]
    exact ⟨.nil,by simp,hb,by simp⟩
  | cons i items ihi =>
    rw [declareAlternatives] at hd ⊢
    have hmerge := fun hole => @HoleTable.isSome_single?_merge p.table
      (declareItem note repeated i ⟨before,p.diagnostics⟩).table hole
    obtain ⟨hbranch,hkept,hrest⟩ := ihi (fun j hj => ih j (List.mem_cons_of_mem _ hj))
      (fun hole hs => hmerge hole (Or.inl (hb hole hs))) hd
    obtain ⟨hp,hi⟩ := ih i List.mem_cons_self n ⟨before,p.diagnostics⟩ hbranch
    refine ⟨hp,fun hole hs => hkept hole (hmerge hole (Or.inl hs)),?_⟩
    rw [Item.activeFirst]
    split_ifs with hsat
    · exact ⟨hi.nodup,hi.fresh,hrest.kept,
        fun hole hm => hkept hole (hmerge hole (Or.inr (hi.added hole hm)))⟩
    · exact hrest

end Lists

/-- Declaring an item without a report adds the holes that it captures of a node. -/
theorem declareItem_declares (i : Item) : ∀ n, Declares repeated (declareItem note repeated i)
    ((i.active h n).map Prod.fst) := by
  induction i using Item.ind with
  | fixed t type data children ih =>
    intro n
    have hall := (declareData_declares note t.span data n).comp
      (declareChildren_declares ih n.children)
    rw [← List.map_append] at hall
    refine hall.sublist ?_
    rw [Item.active]
    split_ifs
    · exact List.nil_sublist _
    · exact .refl _
  | typedHole t type hole ellipsis => exact fun n => declare_declares note hole t.span
  | untypedHole t hole ellipsis =>
    intro n
    refine (declare_declares note hole t.span).sublist ?_
    rw [Item.active]
    split_ifs <;> simp
  | symbolRange t first last hole =>
    intro n
    refine (declareData_declares note t.span (hole.map Datum.hole) n).sublist ?_
    rw [Item.active]
    split_ifs
    · exact List.nil_sublist _
    · exact .refl _
  | anyOf t items ih =>
    intro n p hd
    obtain ⟨hp,-,ha⟩ := declareAlternatives_adds ih n (fun _ hs => hs) hd
    have ha' : Adds p (declareItem note repeated (.anyOf t items) p)
        (counted repeated ((Item.activeFirst h items n).map Prod.fst)) :=
      ⟨ha.nodup,ha.fresh,ha.kept,ha.added⟩
    refine ⟨hp,ha'.sublist (counted_sublist ?_)⟩
    rw [Item.active]
    split_ifs
    · exact List.nil_sublist _
    · exact .refl _
  | allOf t items ih =>
    intro n
    refine (declareItems_declares ih n).sublist ?_
    rw [Item.active]
    split_ifs
    · exact List.nil_sublist _
    · exact .refl _
  | rest t => exact fun n => .id

/-! Taking negations off ellipses changes nothing about the holes that are declared. -/

lemma declareItem_plainEllipsis (i : Item) :
    declareItem note repeated i.plainEllipsis = declareItem note repeated i := by
  cases i <;> rfl

section Lists

variable {items : List Item}
  (ih : ∀ i ∈ items, declareItem note repeated i.plainDots = declareItem note repeated i)
include ih

lemma declareItems_plainDots :
    declareItems note repeated (Item.listPlainDots items) = declareItems note repeated items := by
  induction items with
  | nil => rfl
  | cons i items ihi =>
    funext p
    rw [Item.listPlainDots, declareItems, declareItems,
      ihi fun j hj => ih j (List.mem_cons_of_mem _ hj)]
    split_ifs
    · rw [declareItem_plainEllipsis]
    · rw [ih i List.mem_cons_self]

lemma declareAlternatives_plainDots (before : HoleTable) :
    declareAlternatives note repeated before (Item.listPlainDots items) =
      declareAlternatives note repeated before items := by
  induction items with
  | nil => rfl
  | cons i items ihi =>
    funext p
    rw [Item.listPlainDots, declareAlternatives, declareAlternatives,
      ihi fun j hj => ih j (List.mem_cons_of_mem _ hj)]
    split_ifs
    · rw [declareItem_plainEllipsis]
    · rw [ih i List.mem_cons_self]

end Lists

lemma declareItem_plainDots (i : Item) :
    declareItem note repeated i.plainDots = declareItem note repeated i := by
  induction i using Item.ind with
  | fixed t type data children ih =>
    funext p
    rw [Item.plainDots, declareItem, declareItem, declareItems_plainDots ih]
  | anyOf t items ih =>
    funext p
    rw [Item.plainDots, declareItem, declareItem, declareAlternatives_plainDots ih]
  | allOf t items ih =>
    funext p
    rw [Item.plainDots, declareItem, declareItem, declareItems_plainDots ih]
  | typedHole | untypedHole | symbolRange | rest => rfl

/-- The holes that a share captures, if they count. -/
def shareHoles (h : Option Hierarchy) (p : Item × List Tree) : List Hole :=
  counted (p.1.mode == .repeated)
    (p.2.flatMap fun n => (p.1.plainDots.active h n).map Prod.fst)

/-- Outside repeated items, no hole is captured twice in all the shares. -/
theorem declareTop_adds {shares : List (Item × List Tree)}
    (hl : ∀ q ∈ shares, q.1.mode ≠ .repeated → q.2.length ≤ 1) (p : Progress)
    (hd : (declareTop note (shares.map Prod.fst) p).diagnostics = []) :
    p.diagnostics = [] ∧
      Adds p (declareTop note (shares.map Prod.fst) p) (shares.flatMap (shareHoles h)) := by
  induction shares generalizing p with
  | nil => exact ⟨hd,.refl p⟩
  | cons q shares ih =>
    obtain ⟨hq,hrest⟩ := ih (fun q' hm => hl q' (List.mem_cons_of_mem _ hm)) _ hd
    have hitem := fun n => @declareItem_declares note (q.1.mode == .repeated) h q.1.plainDots n
    simp only [declareItem_plainDots] at hitem
    have hshare : Declares (q.1.mode == .repeated)
        (declareItem note (q.1.mode == .repeated) q.1)
        (q.2.flatMap fun n => (q.1.plainDots.active h n).map Prod.fst) := by
      by_cases hm : q.1.mode = .repeated
      · -- Nothing counts in a repeated item.
        intro p hd
        have hn := hitem (.node "" none [] none) p hd
        rw [hm] at hn ⊢
        exact hn
      · have hlen := hl q List.mem_cons_self hm
        rcases hns : q.2 with _ | ⟨n,_ | ⟨m,ns⟩⟩
        · exact (hitem (.node "" none [] none)).sublist (List.nil_sublist _)
        · simpa using hitem n
        · simp [hns] at hlen
    obtain ⟨hp,ha⟩ := hshare p hq
    exact ⟨hp,ha.trans hrest⟩

end Holes
end TreeRules
