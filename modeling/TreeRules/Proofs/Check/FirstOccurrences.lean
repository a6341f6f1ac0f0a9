import TreeRules.Proofs.Check.Occurrences
import Mathlib.Data.List.Nodup

/-! Hole tables as records of occurrences. Whether occurrences are declared one by one or in tables
that are merged, a table lists the holes in the order of their first occurrences, and for each hole
the first occurrence and the first one outside repeated items. -/
namespace TreeRules

/-- What is repeated behind the front adds nothing. -/
lemma eraseDups_append_eraseDups {α : Type} [DecidableEq α] (xs ys : List α) :
    (xs ++ ys.eraseDups).eraseDups = (xs ++ ys).eraseDups := by
  induction ys using List.reverseRecOn with
  | nil => rfl
  | append_singleton ys a ih =>
    rw [eraseDups_append_singleton, ← List.append_assoc, eraseDups_append_singleton]
    by_cases ha : a ∈ ys
    · simp [ha, ih]
    · simp [ha, ← List.append_assoc, eraseDups_append_singleton, ih]

lemma eraseDups_append_common {α : Type} [DecidableEq α] (xs ys zs : List α) :
    (xs ++ ys ++ (xs ++ zs)).eraseDups = (xs ++ ys ++ zs).eraseDups := by
  have hnew : (xs ++ zs).removeAll (xs ++ ys) = zs.removeAll (xs ++ ys) := by
    simp +contextual [List.removeAll]
  rw [List.eraseDups_append, hnew, ← List.eraseDups_append]

namespace HoleTable

variable (t : HoleTable)

/-- The holes of a table, in its order. -/
def holes : List Hole := t.entries.map HoleEntry.hole

/-- The first occurrence that is recorded for a hole. -/
def first? (hole : Hole) : Option Span := (t.find? hole).map HoleEntry.first

lemma mem_holes_iff {hole : Hole} : hole ∈ t.holes ↔ t.isDeclared hole = true := by
  rw [isDeclared_iff, holes, List.mem_map]

/-- A hole with one entry is found there. -/
lemma find?_of_mem (hn : t.holes.Nodup) {e : HoleEntry} (he : e ∈ t.entries) :
    t.find? e.hole = some e := by
  obtain ⟨e',he'⟩ := Option.isSome_iff_exists.mp (t.isDeclared_iff.mpr ⟨e,he,rfl⟩)
  rw [he', List.inj_on_of_nodup_map hn (List.mem_of_find?_eq_some he') he (t.hole_of_find? he')]

lemma holes_setSingle (hole : Hole) (span : Option Span) :
    (t.setSingle hole span).holes = t.holes := by
  rw [holes, setSingle, List.map_map, holes]
  refine List.map_congr_left fun e _ => ?_
  by_cases he : e.hole = hole <;> simp [he]

lemma first?_setSingle (hole other : Hole) (span : Option Span) :
    (t.setSingle hole span).first? other = t.first? other := by
  rw [first?, find?_setSingle, Option.map_map, first?]
  congr 1
  funext e
  by_cases he : e.hole = hole <;> simp [he]

lemma holes_mergeEntry (e : HoleEntry) :
    (t.mergeEntry e).holes = if e.hole ∈ t.holes then t.holes else t.holes ++ [e.hole] := by
  rw [mergeEntry]
  simp only [mem_holes_iff]
  split_ifs with hd
  · exact t.holes_setSingle _ _
  · simp [holes]

lemma first?_mergeEntry (e : HoleEntry) (hole : Hole) :
    (t.mergeEntry e).first? hole =
      if hole = e.hole then (t.first? hole).or (some e.first) else t.first? hole := by
  rw [mergeEntry]
  cases hd : t.isDeclared e.hole with
  | true =>
    rw [if_pos rfl, first?_setSingle]
    split_ifs with hh
    · obtain ⟨e',he'⟩ := Option.isSome_iff_exists.mp hd
      simp [first?, hh, he']
    · rfl
  | false =>
    simp only [Bool.false_eq_true, if_false, first?, find?, List.find?_append]
    by_cases hh : hole = e.hole
    · simp [hh]
    · simp [hh, Ne.symm hh]

lemma nodup_holes_mergeEntry (hn : t.holes.Nodup) (e : HoleEntry) :
    (t.mergeEntry e).holes.Nodup := by
  rw [holes_mergeEntry]
  split_ifs with hm
  · exact hn
  · refine List.nodup_append.mpr ⟨hn,by simp,fun hole hh other ho heq => hm ?_⟩
    rwa [← List.mem_singleton.mp ho, ← heq]

/-- An entry that says all there is to say is not changed. -/
lemma setSingle_eq_self (hn : t.holes.Nodup) {hole : Hole} {span : Option Span} {e : HoleEntry}
    (hf : t.find? hole = some e) (hs : e.single.or span = e.single) :
    t.setSingle hole span = t := by
  have hid : t.entries.map (fun e => if e.hole = hole then { e with single := e.single.or span }
      else e) = t.entries.map id := by
    refine List.map_congr_left fun e' he' => ?_
    split_ifs with hh
    · obtain rfl : e = e' := by
        rw [← hh, t.find?_of_mem hn he'] at hf
        exact (Option.some.inj hf).symm
      rw [hs, id]
    · rfl
  rw [setSingle, hid, List.map_id]

/-- Where each hole has one entry, declaring an occurrence is merging an entry for it. -/
lemma declare_eq_mergeEntry (hn : t.holes.Nodup) (hole : Hole) (span : Span) (repeated : Bool) :
    (t.declare hole span repeated).2 =
      t.mergeEntry ⟨hole,span,if repeated then none else some span⟩ := by
  rw [declare, mergeEntry, isDeclared]
  cases hf : t.find? hole with
  | none => rfl
  | some e =>
    cases repeated with
    | true => exact (t.setSingle_eq_self hn hf (by simp)).symm
    | false =>
      cases hs : e.single with
      | some earlier =>
        simp only [Bool.false_eq_true, if_false, hs]
        exact (t.setSingle_eq_self hn hf (by simp [hs])).symm
      | none => simp [hs]

lemma first?_merge (branch : HoleTable) (hole : Hole) :
    (t.merge branch).first? hole = (t.first? hole).or (branch.first? hole) := by
  obtain ⟨es⟩ := branch
  rw [merge]
  induction es generalizing t with
  | nil => simp [first?, find?]
  | cons e es ih =>
    rw [List.foldl_cons, ih, first?_mergeEntry]
    by_cases hh : hole = e.hole
    · simp [first?, find?, hh]
    · simp [first?, find?, hh, Ne.symm hh]

lemma single?_merge {branch : HoleTable} (hn : branch.holes.Nodup) (hole : Hole) :
    (t.merge branch).single? hole = (t.single? hole).or (branch.single? hole) := by
  obtain ⟨es⟩ := branch
  rw [merge]
  induction es generalizing t with
  | nil => simp [single?, find?]
  | cons e es ih =>
    obtain ⟨hnew,hn⟩ := List.nodup_cons.mp hn
    have hcons : single? ⟨e :: es⟩ hole =
        if hole = e.hole then e.single else single? ⟨es⟩ hole := by
      by_cases hh : hole = e.hole
      · simp [single?, find?, hh]
      · simp [single?, find?, hh, Ne.symm hh]
    rw [List.foldl_cons, ih _ hn, single?_mergeEntry, hcons]
    by_cases hh : hole = e.hole
    · have hnone : single? ⟨es⟩ hole = none := by
        refine single?_of_not_isDeclared _ (Bool.eq_false_iff.mpr fun hd => hnew ?_)
        rw [← hh]
        exact (mem_holes_iff _).mpr hd
      rw [hnone, if_pos hh, if_pos hh, Option.or_none]
    · rw [if_neg hh, if_neg hh]

lemma holes_merge (branch : HoleTable) {holes : List Hole} (ht : t.holes = holes.eraseDups) :
    (t.merge branch).holes = (holes ++ branch.holes).eraseDups := by
  obtain ⟨es⟩ := branch
  rw [merge]
  induction es generalizing t holes with
  | nil => simpa [HoleTable.holes] using ht
  | cons e es ih =>
    have he : (t.mergeEntry e).holes = (holes ++ [e.hole]).eraseDups := by
      rw [holes_mergeEntry, ht, eraseDups_append_singleton]
      simp only [List.mem_eraseDups]
    rw [List.foldl_cons, ih _ he, List.append_assoc]
    rfl

lemma nodup_holes_merge (hn : t.holes.Nodup) (branch : HoleTable) :
    (t.merge branch).holes.Nodup := by
  obtain ⟨es⟩ := branch
  rw [merge]
  induction es generalizing t with
  | nil => exact hn
  | cons e es ih => exact ih _ (t.nodup_holes_mergeEntry hn e)

/-- The table says of the occurrences which holes they are of, and where each hole occurs first. -/
structure Records (t : HoleTable) (os : List Occurrence) : Prop where
  nodup : t.holes.Nodup
  holes : t.holes = (os.map Occurrence.hole).eraseDups
  first? : ∀ hole, t.first? hole = (os.find? (·.hole == hole)).map Occurrence.span
  single? : ∀ hole, t.single? hole =
    (os.find? fun o => o.hole == hole && !o.repeated).map Occurrence.span

namespace Records

variable {t}

lemma empty : Records .empty [] := ⟨List.nodup_nil,rfl,fun _ => rfl,fun _ => rfl⟩

/-- Declaring one more occurrence. -/
lemma declare {os : List Occurrence} (h : t.Records os) (o : Occurrence) :
    (t.declare o.hole o.span o.repeated).2.Records (os ++ [o]) := by
  rw [t.declare_eq_mergeEntry h.nodup]
  refine ⟨t.nodup_holes_mergeEntry h.nodup _,?_,fun hole => ?_,fun hole => ?_⟩
  · rw [holes_mergeEntry, h.holes, List.map_append, List.map_singleton, eraseDups_append_singleton]
    simp only [List.mem_eraseDups]
  · rw [first?_mergeEntry, h.first?, List.find?_append, Option.map_or]
    by_cases hh : hole = o.hole
    · simp [hh]
    · simp [hh, Ne.symm hh]
  · rw [single?_mergeEntry, h.single?, List.find?_append, Option.map_or]
    by_cases hh : hole = o.hole
    · cases hr : o.repeated <;> simp [hh, hr]
    · simp [hh, Ne.symm hh]

/-- Merging what was declared elsewhere behind the same beginning. -/
lemma merge {branch : HoleTable} {seen os os' : List Occurrence} (h : t.Records (seen ++ os))
    (hb : branch.Records (seen ++ os')) : (t.merge branch).Records (seen ++ os ++ os') := by
  have hor : ∀ a b c : Option Span, (a.or b).or (a.or c) = (a.or b).or c := by
    intro a b c
    cases a <;> simp
  refine ⟨t.nodup_holes_merge h.nodup branch,?_,fun hole => ?_,fun hole => ?_⟩
  · rw [holes_merge _ branch h.holes, hb.holes, eraseDups_append_eraseDups]
    simp only [List.map_append, eraseDups_append_common]
  · rw [first?_merge, h.first?, hb.first?]
    simp only [List.find?_append, Option.map_or, hor]
  · rw [single?_merge _ hb.nodup, h.single?, hb.single?]
    simp only [List.find?_append, Option.map_or, hor]

/-- A second occurrence outside repeated items is told the first one. -/
lemma declare_fst {os : List Occurrence} (h : t.Records os) (hole : Hole) (span : Span)
    (repeated : Bool) : (t.declare hole span repeated).1 =
      if repeated then none
      else (os.find? fun o => o.hole == hole && !o.repeated).map Occurrence.span := by
  cases repeated with
  | true => exact (t.declare_repeated hole hole span).1
  | false => exact ((t.declare_single hole span).1).trans (h.single? hole)

end Records

end HoleTable

end TreeRules
