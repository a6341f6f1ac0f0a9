import TreeRules.Proofs.Pattern.Orderly
import TreeRules.Proofs.Capture.Store

/-! The holes that an item has, in data positions and for nodes. Whatever an item captures, it
captures in one of its holes: data in the former, nodes in the latter. -/
namespace TreeRules

/-- The hole in a data position. -/
def Datum.hole? : Option Datum → Option Hole
  | some (.hole h) => some h
  | _ => none

namespace Item

/-- The hole in the item's own data position. -/
def dataHole? : Item → Option Hole
  | fixed _ _ data _ => Datum.hole? data
  | symbolRange _ _ _ hole => hole
  | _ => none

/-- The capture goes to a hole of the right kind among the parts. -/
def Declared (parts : List Item) (p : Hole × Capture) : Prop :=
  (p.2.isData = true → ∃ j ∈ parts, j.dataHole? = some p.1) ∧
    (p.2.isData = false → ∃ j ∈ parts, j.asHole? = some p.1)

lemma Declared.mono {parts parts' : List Item} {p : Hole × Capture} (hp : Declared parts p)
    (hs : ∀ j ∈ parts, j ∈ parts') : Declared parts' p := by
  refine ⟨fun hd => ?_,fun hd => ?_⟩
  · obtain ⟨j,hj,hh⟩ := hp.1 hd
    exact ⟨j,hs j hj,hh⟩
  · obtain ⟨j,hj,hh⟩ := hp.2 hd
    exact ⟨j,hs j hj,hh⟩

lemma declared_of_asHole? {i : Item} {hole : Hole} {k : Capture} (hi : i.asHole? = some hole)
    (hk : k.isData = false) : Declared i.parts (hole,k) :=
  ⟨fun hd => absurd hd (by simp [hk]),fun _ => ⟨i,i.self_mem_parts,hi⟩⟩

lemma declared_of_dataActive {i : Item} {data : Option Datum} {n : Tree}
    (hi : ∀ hole, data = some (.hole hole) → i.dataHole? = some hole) :
    ∀ p ∈ dataActive data n, Declared i.parts p := by
  rcases data with _ | (hole | text)
  · simp [dataActive]
  · cases hn : n.data with
    | none => simp [dataActive, hn]
    | some text =>
      intro p hp
      obtain rfl : p = (hole,.data text) := by simpa [dataActive, hn] using hp
      exact ⟨fun _ => ⟨i,i.self_mem_parts,hi hole rfl⟩,
        fun hd => absurd hd (by simp [Capture.isData])⟩
  · simp [dataActive]

section Lists

variable {h : Option Hierarchy} {items : List Item}
  (ih : ∀ i ∈ items, ∀ n, ∀ p ∈ i.active h n, Declared i.parts p)
include ih

lemma declared_of_childActive {i : Item} (hi : i ∈ items) (ns : List Tree) :
    ∀ p ∈ i.childActive (i.active h) ns, Declared i.parts p := by
  rw [childActive]
  cases ha : i.asHole? with
  | some hole =>
    intro p hp
    have hd : p.1 = hole ∧ p.2.isData = false := by
      cases ns <;> cases he : i.isEllipsis <;> simp [he] at hp <;> simp [hp, Capture.isData]
    obtain ⟨rfl,hd⟩ := hd
    exact declared_of_asHole? ha hd
  | none =>
    intro p hp
    obtain ⟨n,-,hp⟩ := List.mem_flatMap.mp hp
    exact ih i hi n p hp

lemma declared_of_activeChildren (ns : List Tree) :
    ∀ p ∈ activeChildren h items ns, Declared (listParts items) p := by
  induction items generalizing ns with
  | nil => simp [activeChildren]
  | cons i items ihi =>
    intro p hp
    rw [listParts]
    rcases List.mem_append.mp hp with hp | hp
    · exact (declared_of_childActive ih List.mem_cons_self ns p hp).mono
        fun j hj => List.mem_append_left _ hj
    · exact (ihi (fun j hj => ih j (List.mem_cons_of_mem _ hj)) ns.tail p hp).mono
        fun j hj => List.mem_append_right _ hj

/-- Alternatives and joint items capture what some of them capture. -/
lemma declared_of_mem_active (n : Tree) {p : Hole × Capture}
    (hp : ∃ i ∈ items, p ∈ i.active h n) : Declared (listParts items) p := by
  obtain ⟨i,hi,hp⟩ := hp
  exact (ih i hi n p hp).mono fun j hj => mem_listParts.mpr ⟨i,hi,hj⟩

end Lists

lemma mem_activeFirst {h : Option Hierarchy} {items : List Item} {n : Tree} {p : Hole × Capture}
    (hp : p ∈ activeFirst h items n) : ∃ i ∈ items, p ∈ i.active h n := by
  rw [activeFirst_eq_find?] at hp
  obtain ⟨i,hi,hp⟩ := List.mem_flatMap.mp hp
  exact ⟨i,List.mem_of_find?_eq_some (Option.mem_toList.mp hi),hp⟩

/-- What an item captures goes to one of its holes. -/
theorem declared_of_active {h : Option Hierarchy} (i : Item) :
    ∀ n, ∀ p ∈ i.active h n, Declared i.parts p := by
  induction i using Item.ind with
  | fixed t type data children ih =>
    intro n p hp
    rw [active] at hp
    split_ifs at hp
    · cases hp
    · rcases List.mem_append.mp hp with hp | hp
      · exact declared_of_dataActive (i := .fixed t type data children)
          (fun hole hd => congrArg Datum.hole? hd) p hp
      · exact (declared_of_activeChildren ih n.children p hp).mono
          fun j hj => List.mem_cons_of_mem _ hj
  | typedHole t type hole ellipsis =>
    intro n p hp
    obtain rfl := List.mem_singleton.mp hp
    exact declared_of_asHole? rfl rfl
  | untypedHole t hole ellipsis =>
    intro n p hp
    rw [active] at hp
    split_ifs at hp
    · cases hp
    · obtain rfl := List.mem_singleton.mp hp
      exact declared_of_asHole? rfl rfl
  | symbolRange t first last hole =>
    intro n p hp
    rw [active] at hp
    split_ifs at hp
    · cases hp
    · exact declared_of_dataActive (fun hole' hd => by simpa [dataHole?] using hd) p hp
  | anyOf t items ih =>
    intro n p hp
    rw [active] at hp
    split_ifs at hp
    · cases hp
    · exact (declared_of_mem_active ih n (mem_activeFirst hp)).mono
        fun j hj => List.mem_cons_of_mem _ hj
  | allOf t items ih =>
    intro n p hp
    rw [active, activeAll_eq_flatMap] at hp
    split_ifs at hp
    · cases hp
    · exact (declared_of_mem_active ih n (List.mem_flatMap.mp hp)).mono
        fun j hj => List.mem_cons_of_mem _ hj
  | rest t => simp [active]

/-! Taking negations off ellipses changes no hole. -/

lemma dataHole?_plainDots (i : Item) : i.plainDots.dataHole? = i.dataHole? := by cases i <;> rfl

lemma dataHole?_plainEllipsis (i : Item) : i.plainEllipsis.dataHole? = i.dataHole? := by
  cases i <;> rfl

lemma asHole?_plainDots (i : Item) : i.plainDots.asHole? = i.asHole? := by cases i <;> rfl

lemma asHole?_plainEllipsis (i : Item) : i.plainEllipsis.asHole? = i.asHole? := by cases i <;> rfl

lemma parts_plainEllipsis {i : Item} (hi : i.isEllipsis = true) :
    i.plainEllipsis.parts = [i.plainEllipsis] ∧ i.parts = [i] := by
  cases i <;> simp_all [isEllipsis, plainEllipsis, withTag, parts]

section Map

variable {f : Item → Option Hole} (hdots : ∀ i : Item, f i.plainDots = f i)
  (hellipsis : ∀ i : Item, f i.plainEllipsis = f i)
include hdots hellipsis

omit hdots in
lemma map_listParts_plainDots {items : List Item}
    (ih : ∀ i ∈ items, i.plainDots.parts.map f = i.parts.map f) :
    (listParts (listPlainDots items)).map f = (listParts items).map f := by
  induction items with
  | nil => rfl
  | cons i items ihi =>
    rw [listPlainDots, listParts, listParts, List.map_append, List.map_append,
      ihi fun j hj => ih j (List.mem_cons_of_mem _ hj)]
    split_ifs with he
    · simp [parts_plainEllipsis he, hellipsis]
    · rw [ih i List.mem_cons_self]

lemma map_parts_plainDots (i : Item) : i.plainDots.parts.map f = i.parts.map f := by
  induction i using Item.ind with
  | fixed t type data items ih =>
    simp only [plainDots, parts, List.map_cons, map_listParts_plainDots hellipsis ih]
    exact congrArg (· :: _) (hdots (.fixed t type data items))
  | anyOf t items ih =>
    simp only [plainDots, parts, List.map_cons, map_listParts_plainDots hellipsis ih]
    exact congrArg (· :: _) (hdots (.anyOf t items))
  | allOf t items ih =>
    simp only [plainDots, parts, List.map_cons, map_listParts_plainDots hellipsis ih]
    exact congrArg (· :: _) (hdots (.allOf t items))
  | typedHole | untypedHole | symbolRange | rest => rfl

end Map

/-- What is captured does not depend on negations of ellipses being heeded, as far as holes go. -/
lemma declared_of_active_plainDots {h : Option Hierarchy} (i : Item) (n : Tree) :
    ∀ p ∈ i.plainDots.active h n, Declared i.parts p := by
  intro p hp
  have hd := declared_of_active i.plainDots n p hp
  have hkeep : ∀ {f : Item → Option Hole}, (∀ i : Item, f i.plainDots = f i) →
      (∀ i : Item, f i.plainEllipsis = f i) → (∃ j ∈ i.plainDots.parts, f j = some p.1) →
        ∃ j ∈ i.parts, f j = some p.1 := by
    intro f hf hf' hj
    have hm := List.mem_map.mpr hj
    rw [map_parts_plainDots hf hf'] at hm
    exact List.mem_map.mp hm
  exact ⟨fun h => hkeep dataHole?_plainDots dataHole?_plainEllipsis (hd.1 h),
    fun h => hkeep asHole?_plainDots asHole?_plainEllipsis (hd.2 h)⟩

/-- An item without data holes captures no data. -/
lemma isData_of_active_plainDots {h : Option Hierarchy} {i : Item}
    (hi : ∀ j ∈ i.parts, j.dataHole? = none) (n : Tree) :
    ∀ p ∈ i.plainDots.active h n, p.2.isData = false := by
  intro p hp
  by_contra hd
  obtain ⟨j,hj,hh⟩ := (declared_of_active_plainDots i n p hp).1 (by simpa using hd)
  rw [hi j hj] at hh
  cases hh

end Item
end TreeRules
