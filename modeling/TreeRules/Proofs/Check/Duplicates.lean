import TreeRules.Proofs.Check.FirstOccurrences

/-! What the check of holes finds. Going through a left side, it always has a table of the
occurrences that do not lie in other alternatives of a `|` around. So it reports each occurrence
that clashes with an earlier one, and ends with a table of all occurrences. -/
namespace TreeRules

/-- Of diagnostics that are all of one kind, those of a kind are all or none. -/
lemma Diagnostic.filter_kind {kind kind' : Kind} {ds : List Diagnostic}
    (h : ∀ d ∈ ds, d.kind = kind) :
    ds.filter (·.kind == kind') = if kind = kind' then ds else [] := by
  split_ifs with hk
  · exact List.filter_eq_self.mpr fun d hd => by simp [h d hd, hk]
  · exact List.filter_eq_nil_iff.mpr fun d hd => by simp [h d hd, hk]

/-- The report that `o` repeats the hole of `e`. -/
def Occurrence.duplicateOf (note : Diagnostic.Note) (o e : Occurrence) : Diagnostic :=
  .report .duplicateHole o.span (some o.hole.text) [⟨"first declared here",e.span⟩,note]

namespace Holes

open HoleTable (Records)

variable {note : Diagnostic.Note} {repeated : Bool} {way : List Item.Step}
  {earlier os os' : List Occurrence} {p q : Progress}

/-- The reports of occurrences that stand behind `earlier` ones and clash with one before them. -/
def duplicates (note : Diagnostic.Note) : (earlier : List Occurrence) → List Occurrence →
    List Diagnostic
  | _, [] => []
  | earlier, o :: os =>
    ((earlier.find? fun e => e.Clashes o).map (o.duplicateOf note)).toList ++
      duplicates note (earlier ++ [o]) os

lemma duplicates_append (earlier os os' : List Occurrence) :
    duplicates note earlier (os ++ os') =
      duplicates note earlier os ++ duplicates note (earlier ++ os) os' := by
  induction os generalizing earlier with
  | nil => simp [duplicates]
  | cons o os ih => simp [duplicates, ih]

lemma kind_of_mem_duplicates : ∀ d ∈ duplicates note earlier os, d.kind = .duplicateHole := by
  induction os generalizing earlier with
  | nil => simp [duplicates]
  | cons o os ih =>
    intro d hd
    rcases List.mem_append.mp hd with hd | hd
    · obtain ⟨e,-,rfl⟩ := Option.map_eq_some_iff.mp (Option.mem_toList.mp hd)
      rfl
    · exact ih d hd

lemma duplicates_eq_filterMap (earlier os : List Occurrence) :
    duplicates note earlier os = (os.zipIdx earlier.length).filterMap fun p =>
      (((earlier ++ os).take p.2).find? fun e => e.Clashes p.1).map (p.1.duplicateOf note) := by
  induction os generalizing earlier with
  | nil => rfl
  | cons o os ih =>
    have hrest := ih (earlier ++ [o])
    rw [List.append_assoc, List.length_append] at hrest
    rw [duplicates, hrest, List.zipIdx_cons, List.filterMap_cons, List.take_left]
    cases (earlier.find? fun e => e.Clashes o) <;> rfl

/-- The occurrences that do not lie in other alternatives than `way`. -/
def seenFrom (way : List Item.Step) (os : List Occurrence) : List Occurrence :=
  os.filter fun o => ¬ Item.Apart o.way way

lemma seenFrom_append (os os' : List Occurrence) :
    seenFrom way (os ++ os') = seenFrom way os ++ seenFrom way os' := List.filter_append _ _

/-- All occurrences in an item are seen from it. -/
lemma seenFrom_of_isPrefix (h : ∀ o ∈ os, way <+: o.way) : seenFrom way os = os := by
  refine List.filter_eq_self.mpr fun o ho => ?_
  simpa using Item.Apart.not_of_isPrefix (h o ho)

lemma seenFrom_part (n : Nat) : seenFrom (way ++ [.part n]) os = seenFrom way os := by
  simp [seenFrom, Item.Apart.append_part_iff]

/-- From `p` to `q` the occurrences are declared, which stand behind the `earlier` ones in the item
that `way` leads to. -/
structure Tracks (note : Diagnostic.Note) (way : List Item.Step) (earlier os : List Occurrence)
    (p q : Progress) : Prop where
  table : q.table.Records (seenFrom way (earlier ++ os))
  diagnostics : q.diagnostics = p.diagnostics ++ duplicates note earlier os

namespace Tracks

lemma refl (h : p.table.Records (seenFrom way earlier)) : Tracks note way earlier [] p p :=
  ⟨by rwa [List.append_nil],by simp [duplicates]⟩

lemma trans {r : Progress} (h : Tracks note way earlier os p q)
    (h' : Tracks note way (earlier ++ os) os' q r) : Tracks note way earlier (os ++ os') p r := by
  refine ⟨by simpa using h'.table,?_⟩
  rw [h'.diagnostics, h.diagnostics, duplicates_append, List.append_assoc]

end Tracks

lemma tracks_declare (h : p.table.Records (seenFrom way earlier)) (hole : Hole) (span : Span) :
    Tracks note way earlier [⟨hole,span,repeated,way⟩] p (declare note repeated hole span p) := by
  have hfirst : (p.table.declare hole span repeated).1 =
      (earlier.find? fun e => e.Clashes ⟨hole,span,repeated,way⟩).map Occurrence.span := by
    rw [h.declare_fst, seenFrom, List.find?_filter]
    cases repeated with
    | true =>
      have hnone : (earlier.find? fun e => e.Clashes ⟨hole,span,true,way⟩) = none :=
        List.find?_eq_none.mpr (by simp [Occurrence.Clashes])
      simp [hnone]
    | false =>
      rw [if_neg Bool.false_ne_true]
      refine congrArg (fun f => (earlier.find? f).map Occurrence.span) (funext fun e => ?_)
      rw [decide_eq_decide]
      simp only [Occurrence.Clashes, decide_eq_true_eq, Bool.and_eq_true, beq_iff_eq,
        Bool.not_eq_true']
      tauto
  constructor
  · have hown : seenFrom way [⟨hole,span,repeated,way⟩] = [⟨hole,span,repeated,way⟩] :=
      seenFrom_of_isPrefix (by simp)
    rw [seenFrom_append, hown]
    exact h.declare ⟨hole,span,repeated,way⟩
  · simp only [declare, hfirst, duplicates]
    cases earlier.find? _ <;> simp [Occurrence.duplicateOf]

lemma tracks_declareData (h : p.table.Records (seenFrom way earlier)) (span : Span)
    (data : Option Datum) :
    Tracks note way earlier ((Datum.hole? data).toList.map (⟨·,span,repeated,way⟩)) p
      (declareData note repeated span data p) := by
  rcases data with _ | (hole | text)
  · exact .refl h
  · exact tracks_declare h hole span
  · exact .refl h

/-- Wherever the item stands behind others, its occurrences are declared. -/
def TracksItem (note : Diagnostic.Note) (repeated : Bool) (i : Item) : Prop :=
  ∀ (way : List Item.Step) (earlier : List Occurrence) (p : Progress),
    (∀ e ∈ earlier, ¬ way <+: e.way) → p.table.Records (seenFrom way earlier) →
      Tracks note way earlier (i.occurrences repeated way) p (declareItem note repeated i p)

/-- None of the occurrences lies in the parts from the `n`-th on of the item that `way` leads to. -/
def Untouched (way : List Item.Step) (n : Nat) (os : List Occurrence) : Prop :=
  ∀ o ∈ os, ∀ m ≥ n, ¬ way ++ [.part m] <+: o.way

lemma untouched_of_not_isPrefix (h : ∀ o ∈ os, ¬ way <+: o.way) (n : Nat) :
    Untouched way n os :=
  fun o ho _ _ hway => h o ho ((List.prefix_append _ _).trans hway)

/-- An item that goes together with others sees what they see. -/
lemma TracksItem.part {i : Item} (hi : TracksItem note repeated i) {n : Nat}
    (he : Untouched way n earlier) (h : p.table.Records (seenFrom way earlier)) :
    Tracks note way earlier (i.occurrences repeated (way ++ [.part n])) p
        (declareItem note repeated i p) ∧
      Untouched way (n + 1) (earlier ++ i.occurrences repeated (way ++ [.part n])) := by
  have ht := hi (way ++ [.part n]) earlier p (fun e hm => he e hm n (Nat.le_refl n))
    (by rwa [seenFrom_part])
  refine ⟨⟨by simpa only [seenFrom_part] using ht.table,ht.diagnostics⟩,fun o ho m hm => ?_⟩
  rcases List.mem_append.mp ho with ho | ho
  · exact he o ho m (by omega)
  · exact Item.not_isPrefix_of_ne (by simp; omega) (Item.isPrefix_of_mem_occurrences o ho)

/-- All of the occurrences lie in the first `n` alternatives of the item that `way` leads to. -/
def Among (way : List Item.Step) (n : Nat) (os : List Occurrence) : Prop :=
  ∀ o ∈ os, ∃ m < n, way ++ [.alternative m] <+: o.way

lemma Among.isPrefix {n : Nat} (h : Among way n os) : ∀ o ∈ os, way <+: o.way := by
  intro o ho
  obtain ⟨m,-,hway⟩ := h o ho
  exact (List.prefix_append _ _).trans hway

lemma Among.append_alternative {n : Nat} (h : Among way n os) (i : Item) :
    Among way (n + 1) (os ++ i.occurrences repeated (way ++ [.alternative n])) := by
  intro o ho
  rcases List.mem_append.mp ho with ho | ho
  · obtain ⟨m,hlt,hway⟩ := h o ho
    exact ⟨m,by omega,hway⟩
  · exact ⟨n,by omega,Item.isPrefix_of_mem_occurrences o ho⟩

/-- From an alternative the earlier alternatives are not seen. -/
lemma Among.seenFrom_alternative {n : Nat} (h : Among way n os)
    (he : ∀ e ∈ earlier, ¬ way <+: e.way) :
    seenFrom (way ++ [.alternative n]) (earlier ++ os) = seenFrom way earlier := by
  have hnone : seenFrom (way ++ [.alternative n]) os = [] := by
    refine List.filter_eq_nil_iff.mpr fun o ho => ?_
    obtain ⟨m,hlt,hway⟩ := h o ho
    simpa using Item.Apart.append_alternative (by omega) hway
  rw [seenFrom_append, hnone, List.append_nil]
  refine List.filter_congr fun e hm => ?_
  simp [Item.Apart.append_alternative_iff (he e hm)]

/-- An alternative sees what stands before all of them. Merged into the table of the others, its
own table makes a record of all. -/
lemma TracksItem.alternative {i : Item} (hi : TracksItem note repeated i) {n : Nat}
    {before : HoleTable} (he : ∀ e ∈ earlier, ¬ way <+: e.way) (hos : Among way n os)
    (hb : before.Records (seenFrom way earlier))
    (h : p.table.Records (seenFrom way (earlier ++ os))) :
    Tracks note way (earlier ++ os) (i.occurrences repeated (way ++ [.alternative n])) p
      ⟨p.table.merge (declareItem note repeated i ⟨before,p.diagnostics⟩).table,
        (declareItem note repeated i ⟨before,p.diagnostics⟩).diagnostics⟩ := by
  have hnew : ∀ e ∈ earlier ++ os, ¬ way ++ [.alternative n] <+: e.way := by
    intro e hm
    rcases List.mem_append.mp hm with hm | hm
    · exact fun hway => he e hm ((List.prefix_append _ _).trans hway)
    · obtain ⟨m,hlt,hway⟩ := hos e hm
      exact Item.not_isPrefix_of_ne (by simp; omega) hway
  have hown : ∀ o ∈ i.occurrences repeated (way ++ [.alternative n]),
      way ++ [.alternative n] <+: o.way := Item.isPrefix_of_mem_occurrences
  have ht := hi (way ++ [.alternative n]) (earlier ++ os) ⟨before,p.diagnostics⟩ hnew
    (by rwa [hos.seenFrom_alternative he])
  have hbranch := ht.table
  rw [seenFrom_append, hos.seenFrom_alternative he, seenFrom_of_isPrefix hown] at hbranch
  refine ⟨?_,ht.diagnostics⟩
  rw [seenFrom_append, seenFrom_of_isPrefix hos.isPrefix] at h
  rw [seenFrom_append, seenFrom_append, seenFrom_of_isPrefix hos.isPrefix,
    seenFrom_of_isPrefix fun o ho => (List.prefix_append _ _).trans (hown o ho)]
  exact h.merge hbranch

section Lists

variable {items : List Item} (ih : ∀ i ∈ items, TracksItem note repeated i)
include ih

lemma tracks_items (n : Nat) (he : Untouched way n earlier)
    (h : p.table.Records (seenFrom way earlier)) :
    Tracks note way earlier (occurrencesAmong repeated (Item.listLocated .part way n items)) p
      (declareItems note repeated items p) := by
  induction items generalizing n earlier p with
  | nil => exact .refl h
  | cons i items ihi =>
    obtain ⟨hi,hrest⟩ := (ih i List.mem_cons_self).part he h
    rw [Item.listLocated, occurrencesAmong_append, declareItems]
    exact hi.trans (ihi (fun j hj => ih j (List.mem_cons_of_mem _ hj)) (n + 1) hrest hi.table)

lemma tracks_alternatives (n : Nat) {before : HoleTable} (he : ∀ e ∈ earlier, ¬ way <+: e.way)
    (hos : Among way n os) (hb : before.Records (seenFrom way earlier))
    (h : p.table.Records (seenFrom way (earlier ++ os))) :
    Tracks note way (earlier ++ os)
      (occurrencesAmong repeated (Item.listLocated .alternative way n items)) p
      (declareAlternatives note repeated before items p) := by
  induction items generalizing n os p with
  | nil => exact .refl h
  | cons i items ihi =>
    have hi := (ih i List.mem_cons_self).alternative he hos hb h
    have hrest := hi.table
    rw [List.append_assoc] at hrest
    rw [Item.listLocated, occurrencesAmong_append, declareAlternatives]
    refine hi.trans ?_
    rw [List.append_assoc]
    exact ihi (fun j hj => ih j (List.mem_cons_of_mem _ hj)) (n + 1) (hos.append_alternative i)
      hrest

end Lists

/-- The occurrences in an item are declared. -/
theorem tracksItem (i : Item) : TracksItem note repeated i := by
  induction i using Item.ind with
  | fixed t type data children ih =>
    intro way earlier p he h
    rw [Item.occurrences_fixed, declareItem]
    have hdata := @tracks_declareData note repeated way earlier p h t.span data
    refine hdata.trans (tracks_items ih 0 ?_ hdata.table)
    intro o ho m hm
    rcases List.mem_append.mp ho with ho | ho
    · exact untouched_of_not_isPrefix he 0 o ho m hm
    -- the way to the node itself is shorter
    · obtain ⟨hole,-,rfl⟩ := List.mem_map.mp ho
      exact fun hway => absurd hway.length_le (by simp)
  | typedHole t type hole ellipsis | untypedHole t hole ellipsis =>
    intro way earlier p he h
    exact tracks_declare h hole t.span
  | symbolRange t first last hole =>
    intro way earlier p he h
    have hdata := @tracks_declareData note repeated way earlier p h t.span (hole.map Datum.hole)
    cases hole <;> exact hdata
  | anyOf t items ih =>
    intro way earlier p he h
    rw [Item.occurrences_anyOf, declareItem]
    have halternatives := @tracks_alternatives note repeated way earlier [] p items ih 0 p.table he
      (by simp [Among]) h (by rwa [List.append_nil])
    rwa [List.append_nil] at halternatives
  | allOf t items ih =>
    intro way earlier p he h
    rw [Item.occurrences_allOf, declareItem]
    exact tracks_items ih 0 (untouched_of_not_isPrefix he 0) h
  | rest t =>
    intro way earlier p he h
    exact .refl h

/-- The occurrences on a left side are declared, from the `n`-th item on. -/
lemma tracks_top {items : List Item} (n : Nat) (he : Untouched [] n earlier)
    (h : p.table.Records (seenFrom [] earlier)) :
    Tracks note [] earlier ((items.zipIdx n).flatMap fun q =>
      q.1.occurrences (q.1.mode == .repeated) [.part q.2]) p (declareTop note items p) := by
  induction items generalizing n earlier p with
  | nil => exact .refl h
  | cons i items ih =>
    obtain ⟨hi,hrest⟩ := (@tracksItem note (i.mode == .repeated) i).part he h
    rw [List.zipIdx_cons, List.flatMap_cons, declareTop]
    exact hi.trans (ih (n + 1) hrest hi.table)

/-- The reports of reading holes that do not occur on the left side. -/
lemma undeclared_eq {t : HoleTable} (h : t.Records os) (reads : List (Hole × Span)) :
    undeclared note t reads = (reads.filter fun q => q.1 ∉ os.map Occurrence.hole).map fun q =>
      .report .undeclaredHole q.2 (some q.1.text) [note] := by
  have hdeclared : ∀ hole, t.isDeclared hole = true ↔ hole ∈ os.map Occurrence.hole := by
    intro hole
    rw [← t.mem_holes_iff, h.holes, List.mem_eraseDups]
  rw [undeclared]
  refine congrArg _ (List.filter_congr fun q _ => ?_)
  rw [Bool.eq_iff_iff, decide_eq_true_iff, ← hdeclared]
  simp

end Holes

namespace Rule

open Holes

/-- The check of a rule's holes makes a record of the occurrences on its left side, and reports
those that clash with earlier ones, then the holes that are read and do not occur. -/
theorem checkHoles_eq (r : Rule) : r.checkHoles.1.Records r.occurrences ∧
    r.checkHoles.2 = duplicates r.note [] r.occurrences ++
      (r.result.holes.filter fun q => q.1 ∉ r.occurrences.map Occurrence.hole).map fun q =>
        .report .undeclaredHole q.2 (some q.1.text) [r.note] := by
  have ht := @tracks_top r.note [] ⟨.empty,[]⟩ r.pattern 0 (by simp [Untouched]) .empty
  have hrecords : (declareTop r.note r.pattern ⟨.empty,[]⟩).table.Records r.occurrences := by
    have hall := ht.table
    rwa [seenFrom_of_isPrefix fun o _ => List.nil_prefix, List.nil_append] at hall
  refine ⟨hrecords,?_⟩
  rw [checkHoles]
  dsimp only
  rw [ht.diagnostics, undeclared_eq hrecords, List.nil_append]
  rfl

/-- Of one kind the check reports the duplicates, the holes that do not occur, or nothing. -/
lemma filter_kind_checkHoles (r : Rule) (kind : Diagnostic.Kind) :
    r.checkHoles.2.filter (·.kind == kind) =
      (if .duplicateHole = kind then duplicates r.note [] r.occurrences else []) ++
      (if .undeclaredHole = kind then
        (r.result.holes.filter fun q => q.1 ∉ r.occurrences.map Occurrence.hole).map fun q =>
          .report .undeclaredHole q.2 (some q.1.text) [r.note]
      else []) := by
  rw [r.checkHoles_eq.2, List.filter_append, Diagnostic.filter_kind kind_of_mem_duplicates]
  refine congrArg _ (Diagnostic.filter_kind fun d hd => ?_)
  obtain ⟨q,-,rfl⟩ := List.mem_map.mp hd
  rfl

/-- A hole is reported as a duplicate once for each occurrence that clashes with an earlier one, in
the order of the occurrences, and the report points at the first that it clashes with. -/
theorem duplicates_checkHoles (r : Rule) :
    r.checkHoles.2.filter (·.kind == .duplicateHole) =
      r.occurrences.zipIdx.filterMap fun p =>
        ((r.occurrences.take p.2).find? fun e => e.Clashes p.1).map (p.1.duplicateOf r.note) := by
  rw [filter_kind_checkHoles, if_pos rfl, if_neg (by decide), List.append_nil,
    duplicates_eq_filterMap]
  rfl

/-- The table of a rule lists the holes on the left side in the order of their first occurrences,
with the first occurrence of each and the first one outside repeated items. A hole that is read is
reported exactly if it does not occur. -/
theorem table_checkHoles (r : Rule) :
    r.checkHoles.1.holes = (r.occurrences.map Occurrence.hole).eraseDups ∧
      (∀ e ∈ r.checkHoles.1.entries,
        some e.first = (r.occurrences.find? (·.hole == e.hole)).map Occurrence.span ∧
        e.single = (r.occurrences.find? fun o => o.hole == e.hole && !o.repeated).map
          Occurrence.span) ∧
      r.checkHoles.2.filter (·.kind == .undeclaredHole) =
        (r.result.holes.filter fun q => q.1 ∉ r.occurrences.map Occurrence.hole).map fun q =>
          .report .undeclaredHole q.2 (some q.1.text) [r.note] := by
  have hrecords := r.checkHoles_eq.1
  refine ⟨hrecords.holes,fun e he => ?_,?_⟩
  · have hfind := HoleTable.find?_of_mem _ hrecords.nodup he
    have hfirst := hrecords.first? e.hole
    have hsingle := hrecords.single? e.hole
    rw [HoleTable.first?, hfind] at hfirst
    rw [HoleTable.single?, hfind] at hsingle
    exact ⟨hfirst,hsingle⟩
  · rw [filter_kind_checkHoles, if_neg (by decide), List.nil_append, if_pos rfl]

end Rule

end TreeRules
