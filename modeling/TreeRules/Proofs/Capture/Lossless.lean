import TreeRules.Proofs.Capture.Store

/-! Stores that lose nothing. A store overwrites what its hole holds when one of the two is data and
the other is not, or when both are different data; and in no other case. -/
namespace TreeRules

/-- What was held is still there: data unchanged, nodes in front of others. -/
def Capture.StaysIn (old new : Capture) : Prop :=
  match old with
  | .data text => new = .data text
  | .node _ | .nodes _ => ∃ nodes, new.nodes? = some nodes ∧ old.kept <+: nodes

namespace Capture.StaysIn

lemma isData_eq {k k' : Capture} (h : k.StaysIn k') : k.isData = k'.isData := by
  cases k with
  | data text => rw [show k' = .data text from h]
  | node n | nodes ns =>
    obtain ⟨nodes,hn,-⟩ := h
    cases k' <;> first | rfl | cases hn

lemma eq_of_isData {k k' : Capture} (h : k.StaysIn k') (hd : k.isData = true) : k' = k := by
  cases k with
  | data text => exact h
  | node n | nodes ns => cases hd

lemma of_nodes {k k' : Capture} (hk : k.isData = false) (hk' : k'.isData = false)
    (hp : k.kept <+: k'.kept) : k.StaysIn k' := by
  cases k with
  | data text => cases hk
  | node n | nodes ns => exact ⟨k'.kept,nodes?_of_not_isData hk',hp⟩

lemma refl (k : Capture) : k.StaysIn k := by
  cases k with
  | data text => rfl
  | node n | nodes ns => exact ⟨_,rfl,List.prefix_refl _⟩

lemma trans {k k' k'' : Capture} (h : k.StaysIn k') (h' : k'.StaysIn k'') : k.StaysIn k'' := by
  cases hd : k.isData with
  | true => rwa [h.eq_of_isData hd] at h'
  | false =>
    have hd' : k'.isData = false := h.isData_eq.symm.trans hd
    have hd'' : k''.isData = false := h'.isData_eq.symm.trans hd'
    have hpre : ∀ {a b : Capture}, a.isData = false → a.StaysIn b → a.kept <+: b.kept := by
      intro a b ha hab
      have hb : b.nodes? = some b.kept := nodes?_of_not_isData (hab.isData_eq.symm.trans ha)
      cases a with
      | data text => cases ha
      | node n | nodes ns =>
        obtain ⟨nodes,hn,hp⟩ := hab
        rwa [← Option.some.inj (hn.symm.trans hb)]
    exact of_nodes hd hd'' ((hpre hd h).trans (hpre hd' h'))

end Capture.StaysIn

namespace Captures

/-- No store overwrites or drops what earlier ones have stored. -/
def StepsKeep (steps : List Store) : Prop :=
  ∀ before s later, steps = before ++ s :: later → ∀ hole k,
    (empty.replay before).get? hole = some k →
      ∃ k', ((empty.replay before).store s).get? hole = some k' ∧ k.StaysIn k'

/-- No store overwrites or drops what earlier ones have stored, and data that was stored is the
hole's data in the end. -/
structure NothingLost (steps : List Store) : Prop where
  keep : StepsKeep steps
  data : ∀ before later, steps = before ++ later → ∀ hole text,
    (empty.replay before).get? hole = some (.data text) →
      (empty.replay steps).data? hole = some text

/-- Stores into one hole are all of nodes, or all of the same data. -/
def Agree (steps : List Store) : Prop :=
  ∀ s ∈ steps, ∀ t ∈ steps, s.hole = t.hole →
    s.capture.isData = t.capture.isData ∧ (s.capture.isData = true → s.capture = t.capture)

/-- What a hole holds after a store into it. -/
lemma exists_get?_store (c : Captures) (s : Store) :
    ∃ k, (c.store s).get? s.hole = some k ∧ k.isData = s.capture.isData ∧
      (s.capture.isData = true → k = s.capture) := by
  refine ⟨_,by rw [get?_store, if_pos rfl],Capture.isData_after _ _ _,fun hd => ?_⟩
  cases hs : s.capture with
  | data text => rfl
  | node n | nodes ns => simp [hs, Capture.isData] at hd

/-- What a hole holds comes from a store of the same kind. -/
lemma exists_store_of_get? {steps : List Store} {hole : Hole} {k : Capture}
    (hk : (empty.replay steps).get? hole = some k) :
    ∃ s ∈ steps, s.hole = hole ∧ k.isData = s.capture.isData ∧
      (s.capture.isData = true → k = s.capture) := by
  induction steps using List.reverseRecOn with
  | nil => cases hk
  | append_singleton steps s ih =>
    rw [replay_append, replay_cons, replay_nil] at hk
    by_cases hh : s.hole = hole
    · obtain ⟨k',hk',hd,he⟩ := exists_get?_store (empty.replay steps) s
      rw [hh, hk] at hk'
      cases hk'
      exact ⟨s,by simp,hh,hd,he⟩
    · rw [get?_store, if_neg (Ne.symm hh)] at hk
      obtain ⟨t,ht,hrest⟩ := ih hk
      exact ⟨t,by simp [ht],hrest⟩

lemma StepsKeep.staysIn_end {steps : List Store} (h : StepsKeep steps)
    {before later : List Store} (he : steps = before ++ later) {hole : Hole} {k : Capture}
    (hk : (empty.replay before).get? hole = some k) :
    ∃ k', (empty.replay steps).get? hole = some k' ∧ k.StaysIn k' := by
  induction later generalizing before k with
  | nil =>
    rw [List.append_nil] at he
    exact ⟨k,he ▸ hk,.refl k⟩
  | cons s later ih =>
    obtain ⟨k1,hk1,hs1⟩ := h before s later he hole k hk
    have hnext : (empty.replay (before ++ [s])).get? hole = some k1 := by
      rw [replay_append]
      exact hk1
    obtain ⟨k2,hk2,hs2⟩ := ih (by simp [he]) hnext
    exact ⟨k2,hk2,hs1.trans hs2⟩

/-- What every step keeps is still to be seen in the end. -/
lemma StepsKeep.exists_end {steps : List Store} (h : StepsKeep steps) {s : Store}
    (hs : s ∈ steps) : ∃ k, (empty.replay steps).get? s.hole = some k ∧
      k.isData = s.capture.isData ∧ (s.capture.isData = true → k = s.capture) := by
  obtain ⟨before,later,he⟩ := List.append_of_mem hs
  obtain ⟨k,hk,hd,hc⟩ := exists_get?_store (empty.replay before) s
  have hnext : (empty.replay (before ++ [s])).get? s.hole = some k := by
    rw [replay_append]
    exact hk
  obtain ⟨k',hk',hst⟩ := h.staysIn_end (he.trans (List.append_cons before s later)) hnext
  refine ⟨k',hk',hst.isData_eq.symm.trans hd,fun hdata => ?_⟩
  rw [hst.eq_of_isData (hd.trans hdata), hc hdata]

/-- Storing nodes behind nodes, or the same data again, loses nothing. -/
lemma Agree.stepsKeep {steps : List Store} (h : Agree steps) : StepsKeep steps := by
  intro before s later he hole k hk
  by_cases hh : hole = s.hole
  · obtain ⟨t,ht,hth,hd,hc⟩ := exists_store_of_get? hk
    obtain ⟨hkind,hsame⟩ := h t (by simp [he, ht]) s (by simp [he]) (hth.trans hh)
    refine ⟨_,by rw [get?_store, if_pos hh],?_⟩
    cases htd : t.capture.isData with
    | true =>
      have hks : k = s.capture := (hc htd).trans (hsame htd)
      rw [hk, ← hks]
      cases k with
      | data text => exact .refl _
      | node n | nodes ns => rw [htd] at hd; cases hd
    | false =>
      have hs : s.capture.isData = false := hkind.symm.trans htd
      refine .of_nodes (hd.trans htd) (by rw [Capture.isData_after, hs]) ?_
      rw [hk, Capture.kept_after _ _ hs]
      exact List.prefix_append _ _
  · exact ⟨k,by rw [get?_store, if_neg hh, hk],.refl k⟩

/-- Nothing is lost exactly when the stores agree. -/
theorem nothingLost_iff_agree {steps : List Store} : NothingLost steps ↔ Agree steps := by
  constructor
  · intro h s hs t ht hst
    obtain ⟨k,hk,hd,hc⟩ := h.keep.exists_end hs
    obtain ⟨k',hk',hd',hc'⟩ := h.keep.exists_end ht
    rw [hst, hk'] at hk
    cases hk
    refine ⟨hd.symm.trans hd',fun hdata => ?_⟩
    rw [← hc hdata, hc' (hd'.symm.trans (hd.trans hdata))]
  · intro h
    refine ⟨h.stepsKeep,fun before later he hole text hk => ?_⟩
    obtain ⟨k',hk',hst⟩ := h.stepsKeep.staysIn_end he hk
    rw [data?, hk', hst.eq_of_isData rfl]
    rfl

/-- What the checks of a rule allow: outside repeated items one store for each hole, and data only
there. -/
structure Checked (steps : List Store) : Prop where
  once : ((steps.filter fun s => !s.accumulate).map Store.hole).Nodup
  data : ∀ s ∈ steps, s.capture.isData = true → s.accumulate = false

/-- No hole takes both data and nodes. -/
def Unmixed (steps : List Store) : Prop :=
  ∀ s ∈ steps, ∀ t ∈ steps, s.hole = t.hole → s.capture.isData = t.capture.isData

namespace Checked

variable {steps : List Store} (hc : Checked steps)
include hc

/-- A hole for data is stored to once. -/
lemma storesTo_eq {s : Store} (hs : s ∈ steps)
    (hd : ∀ t ∈ steps, t.hole = s.hole → t.capture.isData = true) :
    storesTo s.hole steps = [s] := by
  have hsub : (storesTo s.hole steps).Sublist (steps.filter fun s => !s.accumulate) := by
    have hall : ∀ t ∈ storesTo s.hole steps, (!t.accumulate) = true := by
      intro t ht
      obtain ⟨ht,hh⟩ := List.mem_filter.mp ht
      simp [hc.data t ht (hd t ht (beq_iff_eq.mp hh))]
    rw [← List.filter_eq_self.mpr hall]
    exact List.filter_sublist.filter _
  have hnodup := hc.once.sublist (hsub.map Store.hole)
  have hmem : s ∈ storesTo s.hole steps := List.mem_filter.mpr ⟨hs,by simp⟩
  have hhole : ∀ t ∈ storesTo s.hole steps, t.hole = s.hole :=
    fun t ht => beq_iff_eq.mp (List.mem_filter.mp ht).2
  generalize storesTo s.hole steps = l at hnodup hmem hhole
  rcases l with _ | ⟨t,_ | ⟨t',l⟩⟩
  · cases hmem
  · rw [List.mem_singleton.mp hmem]
  · simp [hhole t, hhole t'] at hnodup

theorem agree_iff : Agree steps ↔ Unmixed steps := by
  refine ⟨fun h s hs t ht hst => (h s hs t ht hst).1,fun h s hs t ht hst => ⟨h s hs t ht hst,?_⟩⟩
  intro hd
  have hone := hc.storesTo_eq hs fun t' ht' hh => (h t' ht' s hs hh).trans hd
  have hmem : t ∈ storesTo s.hole steps := List.mem_filter.mpr ⟨ht,by simp [hst]⟩
  rw [hone] at hmem
  rw [List.mem_singleton.mp hmem]

end Checked

end Captures
end TreeRules
