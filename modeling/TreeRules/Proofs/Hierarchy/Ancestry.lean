import TreeRules.Proofs.Hierarchy.Reachable
import Mathlib.Data.List.Nodup
import Mathlib.Data.List.Perm.Subperm
import Mathlib.Logic.Relation
import Mathlib.Order.WellFounded

/-! Ancestors. In every hierarchy that can be had the way up from a name comes to an end. Hence
being a type of a name is an order, and the walk that decides it stops. -/
namespace TreeRules.Hierarchy

variable {h : Hierarchy}

/-- `p` is the parent of `name`. -/
def IsParent (h : Hierarchy) (p name : String) : Prop := h.parent? name = some p

/-- From `sub` some steps from name to parent lead to `sup`, or none. -/
def LeadsTo (h : Hierarchy) (sub sup : String) : Prop :=
  Relation.ReflTransGen (fun name p => h.IsParent p name) sub sup

/-- Some steps from name to parent lead from `name` back to it, at least one. -/
def OnCycle (h : Hierarchy) (name : String) : Prop :=
  Relation.TransGen (fun name p => h.IsParent p name) name name

/-- What holds of every hierarchy that can be had. -/
structure Sound (h : Hierarchy) : Prop where
  nodup : h.names.Nodup
  parentsDeclared : h.ParentsDeclared
  /-- Every way up comes to an end. -/
  ends : WellFounded h.IsParent

lemma LeadsTo.cases {sub sup : String} (hl : h.LeadsTo sub sup) :
    sub = sup ∨ ∃ p, h.parent? sub = some p ∧ h.LeadsTo p sup :=
  Relation.ReflTransGen.cases_head hl

lemma LeadsTo.of_parent {sub p sup : String} (hp : h.parent? sub = some p)
    (hl : h.LeadsTo p sup) : h.LeadsTo sub sup := Relation.ReflTransGen.head hp hl

lemma onCycle_iff {name : String} :
    h.OnCycle name ↔ ∃ p, h.parent? name = some p ∧ h.LeadsTo p name :=
  Relation.TransGen.head'_iff

lemma Sound.not_onCycle (hs : h.Sound) (name : String) : ¬ h.OnCycle name := by
  intro hround
  have := hs.ends.transGen.irrefl
  exact irrefl name (Relation.transGen_swap.mp hround)

/-- A way up does not come back to where it began. -/
lemma Sound.not_leadsTo_parent (hs : h.Sound) {name p : String} (hp : h.parent? name = some p) :
    ¬ h.LeadsTo p name :=
  fun hl => hs.not_onCycle name (onCycle_iff.mpr ⟨p,hp,hl⟩)

/-! The way up as a list. -/

lemma leadsTo_of_mem_chain {steps : Nat} {name a : String} (ha : a ∈ h.chain name steps) :
    h.LeadsTo name a := by
  induction steps generalizing name with
  | zero =>
    obtain rfl := List.mem_singleton.mp ha
    exact .refl
  | succ steps ih =>
    cases hp : h.parent? name with
    | none =>
      obtain rfl : a = name := by simpa [chain, hp] using ha
      exact .refl
    | some p =>
      simp only [chain, hp, List.mem_cons] at ha
      rcases ha with rfl | ha
      · exact .refl
      · exact .of_parent hp (ih ha)

lemma nodup_chain {name : String} (hn : ∀ a, h.LeadsTo name a → ¬ h.OnCycle a) (steps : Nat) :
    (h.chain name steps).Nodup := by
  induction steps generalizing name with
  | zero => exact List.nodup_singleton name
  | succ steps ih =>
    cases hp : h.parent? name with
    | none => simp [chain, hp]
    | some p =>
      simp only [chain, hp, List.nodup_cons]
      refine ⟨fun hm => ?_,ih fun a ha => hn a (.of_parent hp ha)⟩
      exact hn name .refl (onCycle_iff.mpr ⟨p,hp,leadsTo_of_mem_chain hm⟩)

/-- There are no more declared names than declarations. -/
lemma length_chain_le {name : String} {steps : Nat}
    (hn : ∀ a, h.LeadsTo name a → ¬ h.OnCycle a)
    (hd : ∀ a ∈ h.chain name steps, h.contains a = true) :
    (h.chain name steps).length ≤ h.size := by
  have hsub : h.chain name steps ⊆ h.names := fun a ha => mem_names_iff.mpr (hd a ha)
  have hle := (nodup_chain hn steps).length_le_of_subset hsub
  rwa [names, List.length_map] at hle

lemma contains_of_isSome_parent? {name : String} (hp : (h.parent? name).isSome = true) :
    h.contains name = true := by
  obtain ⟨p,hp⟩ := Option.isSome_iff_exists.mp hp
  obtain ⟨d,hd,-⟩ := Option.bind_eq_some_iff.mp hp
  exact Option.isSome_iff_exists.mpr ⟨d,hd⟩

/-- A list that misses something further up was cut off where names still have parents. -/
lemma length_chain_of_not_mem {steps : Nat} {name a : String} (hl : h.LeadsTo name a)
    (ha : a ∉ h.chain name steps) : (h.chain name steps).length = steps + 1 ∧
      ∀ b ∈ h.chain name steps, h.contains b = true := by
  induction steps generalizing name with
  | zero =>
    rcases hl.cases with rfl | ⟨p,hp,-⟩
    · simp [chain] at ha
    · simpa [chain] using contains_of_isSome_parent? (by simp [hp])
  | succ steps ih =>
    rcases hl.cases with rfl | ⟨p,hp,hl⟩
    · exact absurd (by rw [chain]; split <;> simp) ha
    · simp only [chain, hp, List.mem_cons, not_or] at ha
      obtain ⟨hlength,hdeclared⟩ := ih hl ha.2
      have hname := @contains_of_isSome_parent? h name (by simp [hp])
      simp only [chain, hp, List.length_cons, List.forall_mem_cons]
      exact ⟨by omega,hname,hdeclared⟩

/-- No way up is longer than there are types, so the list that is looked through is the whole. -/
theorem Sound.isA_iff (hs : h.Sound) {sub sup : String} :
    h.isA sub sup = true ↔ h.LeadsTo sub sup := by
  rw [isA, List.contains_iff_mem]
  refine ⟨leadsTo_of_mem_chain,fun hl => ?_⟩
  by_contra hm
  obtain ⟨hlength,hdeclared⟩ := length_chain_of_not_mem hl hm
  have hle := length_chain_le (fun a _ => hs.not_onCycle a) hdeclared
  omega

/-! Being a type of a name is an order. -/

lemma Sound.isA_trans (hs : h.Sound) {a b c : String} (hab : h.isA a b = true)
    (hbc : h.isA b c = true) : h.isA a c = true :=
  hs.isA_iff.mpr ((hs.isA_iff.mp hab).trans (hs.isA_iff.mp hbc))

lemma Sound.isA_antisymm (hs : h.Sound) {a b : String} (hab : h.isA a b = true)
    (hba : h.isA b a = true) : a = b := by
  rcases (hs.isA_iff.mp hab).cases with rfl | ⟨p,hp,hl⟩
  · rfl
  · exact absurd (hl.trans (hs.isA_iff.mp hba)) (hs.not_leadsTo_parent hp)

/-- What is above a name is the name or above its parent. -/
lemma Sound.isA_of_parent (hs : h.Sound) {sub p sup : String} (hp : h.parent? sub = some p)
    (hne : sub ≠ sup) : h.isA sub sup = h.isA p sup := by
  rw [Bool.eq_iff_iff, hs.isA_iff, hs.isA_iff]
  refine ⟨fun hl => ?_,.of_parent hp⟩
  rcases hl.cases with rfl | ⟨q,hq,hl⟩
  · exact absurd rfl hne
  · obtain rfl : p = q := Option.some.inj (hp.symm.trans hq)
    exact hl

/-- The walk up from a name, which looks for `sup` and stops with an answer. It need not stop where
parents go round in a circle. -/
inductive Walk (h : Hierarchy) (sup : String) : Option String → Bool → Prop
  | ended : Walk h sup none false
  | found : Walk h sup (some sup) true
  | up {name : String} {answer : Bool} (hne : name ≠ sup)
      (hw : Walk h sup (h.parent? name) answer) : Walk h sup (some name) answer

lemma Walk.unique {sup : String} {current : Option String} {a b : Bool}
    (ha : Walk h sup current a) (hb : Walk h sup current b) : a = b := by
  induction ha with
  | ended =>
    cases hb
    rfl
  | found =>
    cases hb with
    | found => rfl
    | up hne hw => exact absurd rfl hne
  | up hne hw ih =>
    cases hb with
    | found => exact absurd rfl hne
    | up hne' hw' => exact ih hw'

/-- The walk stops, and its answer is whether the name is a type of `sup`. -/
theorem Sound.walk (hs : h.Sound) (sub sup : String) : Walk h sup (some sub) (h.isA sub sup) := by
  induction sub using hs.ends.induction with
  | h sub ih =>
    by_cases hne : sub = sup
    · subst hne
      rw [h.isA_self]
      exact .found
    · refine .up hne ?_
      cases hp : h.parent? sub with
      | none =>
        have hnone : h.isA sub sup = false := by
          rw [Bool.eq_false_iff, Ne, hs.isA_iff]
          intro hl
          rcases hl.cases with rfl | ⟨p,hp',-⟩
          · exact hne rfl
          · simp [hp] at hp'
        rw [hnone]
        exact .ended
      | some p =>
        rw [hs.isA_of_parent hp hne]
        exact ih p hp

/-! Hierarchies that can be had are sound. -/

lemma duplicate?_eq_none_iff {seen : List String} {ds : List Declaration} :
    duplicate? seen ds = none ↔
      (ds.map Declaration.name).Nodup ∧ ∀ d ∈ ds, d.name ∉ seen := by
  induction ds generalizing seen with
  | nil => simp [duplicate?]
  | cons d ds ih =>
    rw [duplicate?]
    by_cases hd : d.name ∈ seen
    · simp [hd]
    · simp only [List.contains_iff_mem, hd, if_false, ih, List.map_cons, List.nodup_cons,
        List.mem_map, List.mem_cons, not_exists, not_or, not_and]
      grind

/-- A walk that ends passes names whose ways up end. -/
lemma acc_of_not_endless {name : String} {current : Option String} {steps : Nat}
    (he : endless h name current steps = false) : ∀ a ∈ current, Acc h.IsParent a := by
  induction steps generalizing current with
  | zero =>
    cases current with
    | none => simp
    | some a => cases he
  | succ steps ih =>
    cases current with
    | none => simp
    | some a =>
      rintro _ ⟨rfl⟩
      rw [endless, Bool.or_eq_false_iff] at he
      exact ⟨a,fun p hp => ih he.2 p hp⟩

/-- A walk that does not end comes back, or goes on for longer than it may. -/
lemma mem_or_length_of_endless {name a : String} {steps : Nat}
    (he : endless h name (some a) steps = true) :
    name ∈ h.chain a steps ∨ (h.chain a steps).length = steps + 1 := by
  induction steps generalizing a with
  | zero => exact Or.inr rfl
  | succ steps ih =>
    rw [endless, Bool.or_eq_true, beq_iff_eq] at he
    rcases he with rfl | he
    · refine Or.inl ?_
      rw [chain]
      split <;> simp
    · cases hp : h.parent? a with
      | none => simp [hp, endless] at he
      | some p =>
        rw [hp] at he
        simp only [chain, hp, List.mem_cons, List.length_cons, Nat.add_right_cancel_iff]
        exact (ih he).imp_left Or.inr

/-- A walk that does not end comes to a name on a cycle: no other way up is longer than there are
types. -/
lemma exists_onCycle_of_endless (hparents : h.ParentsDeclared) {name : String}
    (he : endless h name (h.parent? name) (h.size + 1) = true) :
    ∃ a, h.LeadsTo name a ∧ h.OnCycle a := by
  cases hp : h.parent? name with
  | none => simp [hp, endless] at he
  | some p =>
    rw [hp] at he
    rcases mem_or_length_of_endless he with hm | hlength
    · exact ⟨name,.refl,onCycle_iff.mpr ⟨p,hp,leadsTo_of_mem_chain hm⟩⟩
    · by_contra hn
      have hdeclared : ∀ a ∈ h.chain p (h.size + 1), h.contains a = true := by
        intro a ha
        rcases contains_of_mem_chain hparents ha with rfl | hc
        · exact contains_of_parent? hparents hp
        · exact hc
      have hle := length_chain_le (fun a ha hc => hn ⟨a,.of_parent hp ha,hc⟩) hdeclared
      omega

lemma Sound.not_endless (hs : h.Sound) (name : String) :
    endless h name (h.parent? name) (h.size + 1) = false := by
  by_contra he
  obtain ⟨a,-,ha⟩ := exists_onCycle_of_endless hs.parentsDeclared (Bool.eq_true_of_not_eq_false he)
  exact hs.not_onCycle a ha

/-- Where the walks from all declared names end, all ways up do. -/
lemma wellFounded_of_not_endless {steps : Nat}
    (he : ∀ name ∈ h.names, endless h name (h.parent? name) steps = false) :
    WellFounded h.IsParent := by
  refine ⟨fun name => ⟨name,fun p hp => ?_⟩⟩
  have hname : name ∈ h.names :=
    mem_names_iff.mpr (contains_of_isSome_parent? (Option.isSome_iff_exists.mpr ⟨p,hp⟩))
  exact acc_of_not_endless (he name hname) p hp

/-- Declarations are loaded exactly if they make a sound hierarchy. -/
theorem ofDeclarations_eq_ok_iff {ds : List Declaration} :
    ofDeclarations ds = .ok h ↔ h = ⟨ds⟩ ∧ Sound ⟨ds⟩ := by
  rw [ofDeclarations]
  constructor
  · intro hok
    cases hd : duplicate? [] ds with
    | some name => simp [hd] at hok
    | none =>
      cases ho : orphan? ⟨ds⟩ ds with
      | some o => simp [hd, ho] at hok
      | none =>
        simp only [hd, ho] at hok
        split at hok
        · cases hok
        · next hf =>
          cases hok
          refine ⟨rfl,(duplicate?_eq_none_iff.mp hd).1,orphan?_eq_none_iff.mp ho,?_⟩
          exact wellFounded_of_not_endless fun name hn => by
            simpa using List.find?_eq_none.mp hf name hn
  · rintro ⟨rfl,hs⟩
    have hd : duplicate? [] ds = none := duplicate?_eq_none_iff.mpr ⟨hs.nodup,by simp⟩
    have ho : orphan? ⟨ds⟩ ds = none := orphan?_eq_none_iff.mpr hs.parentsDeclared
    have hf : (names ⟨ds⟩).find? (fun name =>
        endless ⟨ds⟩ name (parent? ⟨ds⟩ name) (size ⟨ds⟩ + 1)) = none :=
      List.find?_eq_none.mpr fun name _ => by simp [hs.not_endless name]
    simp only [hd, ho, hf]

lemma sound_empty : Hierarchy.empty.Sound := by
  refine ⟨List.nodup_nil,(fun d hd => by cases hd),⟨fun name => ⟨name,fun p hp => ?_⟩⟩⟩
  simp [IsParent, parent?, find?, empty] at hp

/-- One more declaration changes the parent of its own name only. -/
lemma parent?_append (h : Hierarchy) (d : Declaration) {name : String} (hn : name ≠ d.name) :
    parent? ⟨h.declarations ++ [d]⟩ name = h.parent? name := by
  have hd : ¬ d.name = name := fun he => hn he.symm
  simp [parent?, find?, List.find?_append, hd]

theorem Sound.add (hs : h.Sound) {d : Declaration} {h' : Hierarchy} (hd : h.add d = .ok h') :
    h'.Sound := by
  obtain ⟨rfl,hnew,hp⟩ := add_cases hd
  have hparents : ParentsDeclared ⟨h.declarations ++ [d]⟩ := by
    intro e he p hep
    rcases List.mem_append.mp he with he | he
    · exact contains_append (hs.parentsDeclared e he p hep)
    · obtain rfl := List.mem_singleton.mp he
      exact contains_append (hp p hep)
  have hne : ∀ name, h.contains name = true → name ≠ d.name := by
    rintro name hc rfl
    simp [hnew] at hc
  -- ways up from other names are as they were
  have hold : ∀ name, name ≠ d.name → Acc (IsParent ⟨h.declarations ++ [d]⟩) name := by
    intro name
    induction name using hs.ends.induction with
    | h name ih =>
      intro hn
      refine ⟨name,fun p hp => ?_⟩
      have hp' : h.parent? name = some p := (parent?_append h d hn).symm.trans hp
      exact ih p hp' (hne p (contains_of_parent? hs.parentsDeclared hp'))
  refine ⟨?_,hparents,⟨fun name => ?_⟩⟩
  · have hd : d.name ∉ h.names := fun hm => hne _ (mem_names_iff.mp hm) rfl
    simpa [names, List.nodup_append] using And.intro hs.nodup fun e he heq =>
      hd (List.mem_map.mpr ⟨e,he,heq⟩)
  · by_cases hn : name = d.name
    · subst hn
      refine ⟨d.name,fun p hp' => hold p ?_⟩
      obtain ⟨e,he,hep⟩ := Option.bind_eq_some_iff.mp hp'
      have hfind : e = d := by
        have hnone : h.find? d.name = none := by simpa [contains] using hnew
        rw [find?] at hnone
        simpa [find?, List.find?_append, hnone, eq_comm] using he
      subst hfind
      exact hne p (hp p hep)
    · exact hold name hn

theorem Reachable.sound (hr : h.Reachable) : h.Sound := by
  induction hr with
  | empty => exact sound_empty
  | load hd =>
    obtain ⟨rfl,hs⟩ := ofDeclarations_eq_ok_iff.mp hd
    exact hs
  | add hr hd ih => exact ih.add hd

end TreeRules.Hierarchy
