import TreeRules.Check.HoleTable
import Mathlib.Tactic.Common

/-! Single occurrences in hole tables: what declaring and merging make of them. -/
namespace TreeRules.HoleTable

variable (t : HoleTable)

/-- The single occurrence that is recorded for a hole. -/
def single? (hole : Hole) : Option Span := (t.find? hole).bind HoleEntry.single

lemma find?_setSingle (hole other : Hole) (span : Option Span) :
    (t.setSingle hole span).find? other =
      (t.find? other).map fun e =>
        if e.hole = hole then { e with single := e.single.or span } else e := by
  rw [setSingle, find?, find?, List.find?_map]
  congr 1
  refine congrArg (List.find? · t.entries) (funext fun e => ?_)
  by_cases h : e.hole = hole <;> simp [h]

lemma hole_of_find? {hole : Hole} {e : HoleEntry} (h : t.find? hole = some e) : e.hole = hole := by
  simpa using List.find?_some h

lemma single?_setSingle (hole other : Hole) (span : Option Span) :
    (t.setSingle hole span).single? other =
      if other = hole ∧ t.isDeclared hole = true then (t.single? hole).or span
      else t.single? other := by
  rw [single?, find?_setSingle, single?, single?, isDeclared]
  by_cases ho : other = hole
  · subst ho
    cases hf : t.find? other with
    | none => simp
    | some e => simp [t.hole_of_find? hf]
  · cases hf : t.find? other with
    | none => simp [ho]
    | some e => simp [ho, t.hole_of_find? hf]

lemma single?_append (e : HoleEntry) (hole : Hole) :
    single? ⟨t.entries ++ [e]⟩ hole =
      if hole = e.hole ∧ t.isDeclared hole = false then e.single else t.single? hole := by
  rw [single?, find?, List.find?_append, ← find?, single?, isDeclared]
  cases hf : t.find? hole with
  | some e' => simp
  | none =>
    by_cases hh : hole = e.hole
    · simp [hh]
    · simp [hh, Ne.symm hh]

lemma single?_of_not_isDeclared {hole : Hole} (h : t.isDeclared hole = false) :
    t.single? hole = none := by
  rw [isDeclared] at h
  simp [single?, Option.isNone_iff_eq_none.mp (by simpa using h)]

/-- Declaring an occurrence in a repeated item leaves all single occurrences as they are. -/
lemma declare_repeated (hole other : Hole) (span : Span) :
    (t.declare hole span true).1 = none ∧
      (t.declare hole span true).2.single? other = t.single? other := by
  rw [declare]
  cases hf : t.find? hole with
  | some e => exact ⟨rfl,rfl⟩
  | none =>
    refine ⟨rfl,?_⟩
    have hd : t.isDeclared hole = false := by simp [isDeclared, hf]
    simp only [if_true, single?_append]
    split_ifs with h
    · rw [h.1, t.single?_of_not_isDeclared hd]
    · rfl

/-- Declaring a single occurrence: it is the first one and is recorded, or the earlier one is
returned. -/
lemma declare_single (hole : Hole) (span : Span) :
    (t.declare hole span false).1 = t.single? hole ∧
      ∀ other, (t.declare hole span false).2.single? other =
        if other = hole then (t.single? hole).or (some span) else t.single? other := by
  rw [declare]
  cases hf : t.find? hole with
  | none =>
    have hd : t.isDeclared hole = false := by simp [isDeclared, hf]
    refine ⟨by simp [single?, hf],fun other => ?_⟩
    simp only [single?_append]
    by_cases ho : other = hole
    · simp [ho, hd, t.single?_of_not_isDeclared hd]
    · simp [ho]
  | some e =>
    have hd : t.isDeclared hole = true := by simp [isDeclared, hf]
    have hs : t.single? hole = e.single := by simp [single?, hf]
    cases he : e.single with
    | some earlier =>
      refine ⟨by simp [hs, he],fun other => ?_⟩
      by_cases ho : other = hole
      · simp [ho, hs, he]
      · simp [ho, he]
    | none =>
      refine ⟨by simp [hs, he],fun other => ?_⟩
      by_cases ho : other = hole
      · simp [ho, he, hs, single?_setSingle, hd]
      · simp [ho, he, single?_setSingle]

lemma single?_mergeEntry (e : HoleEntry) (hole : Hole) :
    (t.mergeEntry e).single? hole =
      if hole = e.hole then (t.single? hole).or e.single else t.single? hole := by
  rw [mergeEntry]
  cases hd : t.isDeclared e.hole with
  | true =>
    by_cases hh : hole = e.hole
    · simp [single?_setSingle, hd, hh]
    · simp [single?_setSingle, hh]
  | false =>
    by_cases hh : hole = e.hole
    · simp [single?_append, hd, hh, t.single?_of_not_isDeclared hd]
    · simp [single?_append, hh]

lemma isSome_single?_foldl {es : List HoleEntry} {hole : Hole}
    (h : (t.single? hole).isSome = true ∨ ∃ e ∈ es, e.hole = hole ∧ e.single.isSome = true) :
    ((es.foldl mergeEntry t).single? hole).isSome = true := by
  induction es generalizing t with
  | nil => simpa using h
  | cons e es ih =>
    rw [List.foldl_cons]
    apply ih
    rw [single?_mergeEntry]
    rcases h with ht | ⟨e',he',hh,hs⟩
    · left
      split_ifs
      · simp [ht]
      · exact ht
    · rcases List.mem_cons.mp he' with rfl | he'
      · left
        simp [hh, hs]
      · exact Or.inr ⟨e',he',hh,hs⟩

/-- Merging keeps the single occurrences of both tables. -/
theorem isSome_single?_merge (branch : HoleTable) {hole : Hole}
    (h : (t.single? hole).isSome = true ∨ (branch.single? hole).isSome = true) :
    ((t.merge branch).single? hole).isSome = true := by
  refine t.isSome_single?_foldl (h.imp_right fun hb => ?_)
  obtain ⟨span,hs⟩ := Option.isSome_iff_exists.mp hb
  obtain ⟨e,he,hes⟩ := Option.bind_eq_some_iff.mp hs
  exact ⟨e,List.mem_of_find?_eq_some he,branch.hole_of_find? he,by simp [hes]⟩

end TreeRules.HoleTable
