import TreeRules.Proofs.Hierarchy.Ancestry

/-! The order of declarations. Loading takes declarations in any order. It succeeds exactly if some
order of them can be added one by one, and then every order of them answers alike. -/
namespace TreeRules.Hierarchy

variable {h g : Hierarchy} {ds es : List Declaration}

/-- Adds types one by one, up to the first that is refused. -/
def addAll : List Declaration → Hierarchy → Except Error Hierarchy
  | [], h => .ok h
  | d :: ds, h =>
    match h.add d with
    | .ok h' => addAll ds h'
    | .error e => .error e

/-- What adding types can come to. -/
lemma addAll_cases (hs : h.Sound) (hok : addAll ds h = .ok g) :
    g = ⟨h.declarations ++ ds⟩ ∧ g.Sound := by
  induction ds generalizing h with
  | nil =>
    cases hok
    exact ⟨by rw [List.append_nil],hs⟩
  | cons d ds ih =>
    rw [addAll] at hok
    cases hd : h.add d with
    | error e =>
      rw [hd] at hok
      cases hok
    | ok h' =>
      rw [hd] at hok
      obtain ⟨rfl,hg⟩ := ih (hs.add hd) hok
      obtain ⟨rfl,-,-⟩ := add_cases hd
      exact ⟨by rw [List.append_assoc, List.singleton_append],hg⟩

lemma add_eq_ok {d : Declaration} (hnew : h.contains d.name = false)
    (hp : ∀ p, d.parent = some p → h.contains p = true) :
    h.add d = .ok ⟨h.declarations ++ [d]⟩ := by
  rw [add, hnew]
  cases hq : d.parent with
  | none => rfl
  | some p => simp [hp p hq]

/-- Types with new names are added one by one if the parents stand before their children. -/
lemma addAll_eq_ok (hnew : (names ⟨h.declarations ++ ds⟩).Nodup)
    (hp : ∀ before d behind, ds = before ++ d :: behind → ∀ p, d.parent = some p →
      contains ⟨h.declarations ++ before⟩ p = true) :
    addAll ds h = .ok ⟨h.declarations ++ ds⟩ := by
  induction ds generalizing h with
  | nil => simp [addAll]
  | cons d ds ih =>
    have hd : h.contains d.name = false := by
      rw [← Bool.not_eq_true, ← mem_names_iff]
      intro hm
      simp only [names, List.map_append, List.map_cons, List.nodup_append] at hnew
      exact hnew.2.2 _ hm _ List.mem_cons_self rfl
    have hfirst := add_eq_ok hd fun p hdp => by simpa using hp [] d ds rfl p hdp
    have happend : h.declarations ++ d :: ds = (h.declarations ++ [d]) ++ ds := by simp
    rw [addAll, hfirst, happend]
    refine ih (by rwa [← happend]) fun before e behind he p hep => ?_
    simpa using hp (d :: before) e behind (by rw [he, List.cons_append]) p hep

/-! Declarations in the order of how many types are above them. -/

/-- The number of declared types that a name is a type of. -/
def depth (h : Hierarchy) (name : String) : Nat := (h.names.filter (h.isA name)).length

/-- A parent is above fewer types than its child, as it is not below the child. -/
lemma Sound.depth_lt (hs : h.Sound) {name p : String} (hp : h.parent? name = some p) :
    h.depth p < h.depth name := by
  have hup : h.isA name p = true := hs.isA_iff.mpr (.of_parent hp .refl)
  have hsub : (h.names.filter (h.isA p)).Sublist (h.names.filter (h.isA name)) := by
    apply List.monotone_filter_right
    exact fun a ha => hs.isA_trans hup ha
  refine Nat.lt_of_le_of_ne hsub.length_le fun hlength => ?_
  have hname : name ∈ h.names.filter (h.isA name) := by
    have hd : h.contains name = true := contains_of_isSome_parent? (by simp [hp])
    exact List.mem_filter.mpr ⟨mem_names_iff.mpr hd,h.isA_self name⟩
  rw [← hsub.eq_of_length hlength, List.mem_filter] at hname
  exact hs.not_leadsTo_parent hp (hs.isA_iff.mp hname.2)

/-- The declarations with parents before their children. -/
def arranged (h : Hierarchy) : List Declaration :=
  h.declarations.mergeSort fun d e => h.depth d.name ≤ h.depth e.name

lemma arranged_perm (h : Hierarchy) : h.arranged.Perm h.declarations := List.mergeSort_perm _ _

lemma pairwise_arranged (h : Hierarchy) :
    h.arranged.Pairwise fun d e => h.depth d.name ≤ h.depth e.name := by
  have hsorted := @List.pairwise_mergeSort Declaration
    (fun d e => h.depth d.name ≤ h.depth e.name)
    (fun _ _ _ => by simpa using Nat.le_trans) (fun _ _ => by simpa using Nat.le_total _ _)
    h.declarations
  simpa [arranged] using hsorted

/-- A name is found where its only declaration is. -/
lemma find?_eq_some_iff (hn : h.names.Nodup) {name : String} {d : Declaration} :
    h.find? name = some d ↔ d ∈ h.declarations ∧ d.name = name := by
  constructor
  · intro hf
    exact ⟨List.mem_of_find?_eq_some hf,by simpa using List.find?_some hf⟩
  · rintro ⟨hm,rfl⟩
    obtain ⟨e,he⟩ := Option.isSome_iff_exists.mp (contains_iff.mpr ⟨d,hm,rfl⟩)
    have hname : e.name = d.name := by simpa using List.find?_some he
    rw [he, List.inj_on_of_nodup_map hn (List.mem_of_find?_eq_some he) hm hname]

lemma Sound.parent?_of_mem (hs : h.Sound) {d : Declaration} (hd : d ∈ h.declarations) :
    h.parent? d.name = d.parent := by
  rw [parent?, (find?_eq_some_iff hs.nodup).mpr ⟨hd,rfl⟩, Option.bind_some]

/-- Arranged by their depths, the types of a sound hierarchy can be added one by one. -/
lemma Sound.addAll_arranged (hs : h.Sound) : addAll h.arranged .empty = .ok ⟨h.arranged⟩ := by
  have hperm := h.arranged_perm
  refine addAll_eq_ok ((hperm.map _).nodup_iff.mpr hs.nodup) fun before d behind hsplit p hp => ?_
  have hd : d ∈ h.declarations := hperm.mem_iff.mp (by rw [hsplit]; simp)
  have hlt := hs.depth_lt ((hs.parent?_of_mem hd).trans hp)
  obtain ⟨e,he,rfl⟩ := contains_iff.mp (hs.parentsDeclared d hd p hp)
  have hsorted := h.pairwise_arranged
  rw [← hperm.mem_iff] at he
  rw [hsplit] at he hsorted
  rcases List.mem_append.mp he with he | he
  · exact contains_iff.mpr ⟨e,he,rfl⟩
  -- what stands behind is no less deep
  · have hle : h.depth d.name ≤ h.depth e.name := by
      rcases List.mem_cons.mp he with rfl | he
      · exact Nat.le_refl _
      · exact (List.pairwise_cons.mp (List.pairwise_append.mp hsorted).2.1).1 e he
    omega

/-! The answers do not depend on the order. -/

/-- Both hierarchies answer every question about names in the same way. -/
structure SameAnswers (h g : Hierarchy) : Prop where
  find? : ∀ name, h.find? name = g.find? name
  parent? : ∀ name, h.parent? name = g.parent? name
  isAbstract : ∀ name, h.isAbstract name = g.isAbstract name
  isA : ∀ sub sup, h.isA sub sup = g.isA sub sup

lemma find?_eq_of_perm (hn : h.names.Nodup) (hperm : g.declarations.Perm h.declarations)
    (name : String) : h.find? name = g.find? name := by
  have hn' : g.names.Nodup := (hperm.map _).nodup_iff.mpr hn
  ext d
  rw [find?_eq_some_iff hn, find?_eq_some_iff hn', hperm.mem_iff]

lemma Sound.of_perm (hs : h.Sound) (hperm : g.declarations.Perm h.declarations) : g.Sound := by
  have hfind := find?_eq_of_perm hs.nodup hperm
  refine ⟨(hperm.map _).nodup_iff.mpr hs.nodup,fun d hd p hp => ?_,?_⟩
  · rw [contains, ← hfind]
    exact hs.parentsDeclared d (hperm.mem_iff.mp hd) p hp
  · have hparent : g.IsParent = h.IsParent := by
      funext p name
      rw [IsParent, IsParent, Hierarchy.parent?, Hierarchy.parent?, hfind]
    rw [hparent]
    exact hs.ends

lemma Sound.sameAnswers (hs : h.Sound) (hperm : g.declarations.Perm h.declarations) :
    SameAnswers h g := by
  have hfind := find?_eq_of_perm hs.nodup hperm
  have hparent : ∀ name, h.parent? name = g.parent? name := fun name => by
    rw [Hierarchy.parent?, Hierarchy.parent?, hfind]
  refine ⟨hfind,hparent,fun name => by rw [isAbstract, isAbstract, hfind],fun sub sup => ?_⟩
  rw [Bool.eq_iff_iff, hs.isA_iff, (hs.of_perm hperm).isA_iff, LeadsTo, LeadsTo]
  simp only [IsParent, hparent]

/-- Loading succeeds exactly if some order of the declarations can be added one by one. It keeps the
order of the types that was given; all else is as if the types had been added one by one, or loaded
in any other order. -/
theorem loads_iff_addable (ds : List Declaration) :
    ((∃ h, ofDeclarations ds = .ok h) ↔ ∃ es g, es.Perm ds ∧ addAll es .empty = .ok g) ∧
      ∀ h, ofDeclarations ds = .ok h →
        h.names = ds.map Declaration.name ∧
        (∀ name, h.descendants name = (ds.map Declaration.name).filter (h.isA · name)) ∧
        (∀ es g, es.Perm ds → addAll es .empty = .ok g → SameAnswers h g) ∧
        ∀ es, es.Perm ds → ∃ g, ofDeclarations es = .ok g ∧ SameAnswers h g := by
  have hadded : ∀ {es g}, addAll es .empty = .ok g → g = ⟨es⟩ ∧ g.Sound := by
    intro es g hok
    exact addAll_cases sound_empty hok
  refine ⟨⟨?_,?_⟩,?_⟩
  · rintro ⟨h,hok⟩
    obtain ⟨rfl,hs⟩ := ofDeclarations_eq_ok_iff.mp hok
    exact ⟨_,_,arranged_perm ⟨ds⟩,hs.addAll_arranged⟩
  · rintro ⟨es,g,hperm,hok⟩
    obtain ⟨rfl,hs⟩ := hadded hok
    exact ⟨⟨ds⟩,ofDeclarations_eq_ok_iff.mpr ⟨rfl,hs.of_perm hperm.symm⟩⟩
  · intro h hok
    obtain ⟨rfl,hs⟩ := ofDeclarations_eq_ok_iff.mp hok
    refine ⟨rfl,fun name => rfl,fun es g hperm hok => ?_,fun es hperm => ⟨⟨es⟩,?_,?_⟩⟩
    · obtain ⟨rfl,-⟩ := hadded hok
      exact hs.sameAnswers hperm
    · exact ofDeclarations_eq_ok_iff.mpr ⟨rfl,hs.of_perm hperm⟩
    · exact hs.sameAnswers hperm

namespace Sample

/-- Every parent is declared behind its children. -/
def upsideDown : List Declaration :=
  [⟨"C",some "B",.ordinary⟩,⟨"B",some "A",.abstract⟩,⟨"A",none,.abstract⟩]

end Sample

open Sample in
theorem loads_upsideDown :
    ∃ h, ofDeclarations upsideDown = .ok h ∧ h.names = ["C","B","A"] ∧
      SameAnswers h ⟨upsideDown.reverse⟩ ∧ ¬ ∃ g, addAll upsideDown .empty = .ok g := by
  obtain ⟨hiff,hall⟩ := loads_iff_addable upsideDown
  have hadd : addAll upsideDown.reverse .empty = .ok ⟨upsideDown.reverse⟩ := rfl
  obtain ⟨h,hok⟩ := hiff.mpr ⟨_,_,upsideDown.reverse_perm,hadd⟩
  obtain ⟨hnames,-,hsame,-⟩ := hall h hok
  refine ⟨h,hok,hnames,hsame _ _ upsideDown.reverse_perm hadd,?_⟩
  rintro ⟨g,hg⟩
  cases hg

end TreeRules.Hierarchy
