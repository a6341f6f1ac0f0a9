import TreeRules.Proofs.Compile.Session
import TreeRules.Proofs.Pattern.Key
import TreeRules.Proofs.Pattern.Tested

/-! Compiled matchers do what their items mean. A matcher may have been made for another item with
the same canonical text; it serves as well if this text tells all of the item that matters. Types
that are named by identifiers make it tell, but other names may forge the text of another item. So
the matchers are held to the items of a given list, and the items that are compiled must have no
text in common with those but by being the same. -/
namespace TreeRules
namespace Compilation

open Matcher (Id Numbered Parts Condition ChildCondition Extraction)

/-- A table and symbols that continue what there is now. -/
structure SeenBy (s : Compilation) (table : List Matcher) (u : SymbolTable) : Prop where
  matchers : s.matchers <:+ table
  numbered : Numbered table
  symbols : s.symbols.names <+: u.names

lemma GrowsTo.seenBy {s t : Compilation} (h : s.GrowsTo t) {table : List Matcher}
    {u : SymbolTable} (ht : t.SeenBy table u) : s.SeenBy table u :=
  ⟨h.matchers.trans ht.matchers,ht.numbered,h.symbols.trans ht.symbols⟩

lemma SeenBy.now {s : Compilation} (hn : Numbered s.matchers) {u : SymbolTable}
    (hu : s.symbols.names <+: u.names) : s.SeenBy s.matchers u :=
  ⟨List.suffix_refl _,hn,hu⟩

/-- What is there is seen by the table and the symbols of any later time. -/
lemma GrowsTo.seenByLater {s t : Compilation} (h : s.GrowsTo t) (hn : Numbered s.matchers)
    {u : SymbolTable} (hu : t.symbols.names <+: u.names) : s.SeenBy t.matchers u :=
  h.seenBy (.now (h.numbered hn) hu)

/-- A matcher accepts and stores what the item says, now and later. An ellipsis inside the item
counts as not negated. -/
structure Means (h : Option Hierarchy) (s : Compilation) (id : Id) (i : Item) : Prop where
  lt : id < s.matchers.length
  accepts : i.Orderly → ∀ {table u}, s.SeenBy table u →
    ∀ n, Matcher.accepts u table id n = i.plainDots.sat h n
  stores : i.Orderly → ∀ {table u}, s.SeenBy table u →
    ∀ n, Matcher.stores u table id n = i.plainDots.active h n

variable {h : Option Hierarchy} {asked : List Item} {s t : Compilation} {id : Id} {i j : Item}

lemma Means.mono (hm : s.Means h id i) (hg : s.GrowsTo t) : t.Means h id i :=
  ⟨Nat.lt_of_lt_of_le hm.lt hg.matchers.length_le,fun ho _ _ hv => hm.accepts ho (hg.seenBy hv),
    fun ho _ _ hv => hm.stores ho (hg.seenBy hv)⟩

lemma Means.of_core_eq (hm : s.Means h id i) (hc : i.core = j.core) : s.Means h id j := by
  refine ⟨hm.lt,fun ho _ _ hv n => ?_,fun ho _ _ hv n => ?_⟩
  · rw [hm.accepts ((Item.orderly_iff_of_core_eq hc).mpr ho) hv,
      Item.sat_plainDots_eq_of_core_eq hc]
  · rw [hm.stores ((Item.orderly_iff_of_core_eq hc).mpr ho) hv,
      Item.active_plainDots_eq_of_core_eq hc]

/-- Every matcher that has the text of a part of `asked` does what this part means. -/
structure Sound (h : Option Hierarchy) (asked : List Item) (s : Compilation) : Prop where
  hierarchy : s.hierarchy = h
  parents : ∀ k ∈ h, k.ParentsDeclared
  numbered : Numbered s.matchers
  faithful : ∀ m ∈ s.matchers, ∀ i, Item.TestedIn asked i → i.body = m.key → s.Means h m.id i

/-- Steps that add no matcher. -/
lemma Sound.of_matchers_eq (hs : s.Sound h asked) (hg : s.GrowsTo t)
    (hm : t.matchers = s.matchers) : t.Sound h asked :=
  ⟨hg.hierarchy.trans hs.hierarchy,hs.parents,hg.numbered hs.numbered,
    fun m hmem i hi hb => (hs.faithful m (hm ▸ hmem) i hi hb).mono hg⟩

lemma Sound.typeTest (hs : s.Sound h asked) (name : String) : (s.typeTest name).2.Sound h asked :=
  hs.of_matchers_eq (s.growsTo_typeTest name) (by rw [typeTest_eq])

lemma Sound.admits (hs : s.Sound h asked) {name : String} {u : SymbolTable}
    (hu : (s.typeTest name).2.symbols.names <+: u.names) (n : Tree) :
    (s.typeTest name).1.admits u n = countsAs h n.type name := by
  rw [admits_typeTest (by rw [hs.hierarchy]; exact hs.parents) hu, hs.hierarchy]

/-- A matcher that is found by the text of an item does what the item means. -/
lemma Sound.means_of_lookup? (hs : s.Sound h asked) (hi : i.TestedIn asked)
    (hl : s.lookup? i.body = some id) : s.Means h id i := by
  obtain ⟨m,hm,rfl⟩ := Option.map_eq_some_iff.mp hl
  have hk : m.key = i.body := by simpa using List.find?_some hm
  exact hs.faithful m (List.mem_of_find?_eq_some hm) i hi hk.symm

/-- Parts of a matcher that together do what the item means. -/
structure PartsMean (h : Option Hierarchy) (s : Compilation) (i : Item) (p : Parts) : Prop where
  accepts : i.Orderly → ∀ {table u}, s.SeenBy table u → ∀ n,
    (p.conditions.all (·.holds u (Matcher.accepts u table) p.procedure n) != i.negated) =
      i.plainDots.sat h n
  stores : i.Orderly → ∀ {table u}, s.SeenBy table u → ∀ n,
    (if i.negated && !i.isTypedHole then []
      else p.extractions.flatMap
        (Extraction.stores (Matcher.accepts u table) (Matcher.stores u table) n)) =
      i.plainDots.active h n

lemma means_insertItem (hn : Numbered s.matchers) {p : Parts} (hp : s.PartsMean h i p) :
    (s.insertItem i p).2.Means h (s.insertItem i p).1 i := by
  have hlt : (s.insertItem i p).1 < (s.insertItem i p).2.matchers.length := Nat.lt_succ_self _
  -- The new matcher is run on the table as it was when the matcher was added.
  refine ⟨hlt,fun ho table u hv n => ?_,fun ho table u hv n => ?_⟩
  · rw [Matcher.accepts_of_suffix hv.numbered hv.matchers hlt, ← hp.accepts ho (.now hn hv.symbols)]
    simp only [insertItem, insertMatcher, Matcher.accepts, if_true, Matcher.holds]
    split_ifs <;> rfl
  · rw [Matcher.stores_of_suffix hv.numbered hv.matchers hlt, ← hp.stores ho (.now hn hv.symbols)]
    simp only [insertItem, insertMatcher, Matcher.stores, if_true]
    split_ifs <;> rfl

lemma Sound.insertItem (hs : s.Sound h asked) (hi : i.ApartFrom asked) {p : Parts}
    (hp : i.TestedIn asked → s.PartsMean h i p) : (s.insertItem i p).2.Sound h asked := by
  have hg := s.growsTo_insertItem i p
  refine ⟨hs.hierarchy,hs.parents,hg.numbered hs.numbered,fun m hm j hj hb => ?_⟩
  rcases List.mem_cons.mp hm with rfl | hm
  · -- An item that is asked for by the new matcher's text is the one that was compiled.
    have hcore := hi.core_eq hj hb
    exact (means_insertItem hs.numbered (hp (hj.of_core_eq hcore))).of_core_eq hcore.symm
  · exact (hs.faithful m hm j hj hb).mono hg

/-- Compiling the item keeps the matchers to what is asked, and gives a matcher that does what the
item means if the item is asked for. -/
def Compiles (h : Option Hierarchy) (asked : List Item) (i : Item) : Prop :=
  ∀ s : Compilation, s.Sound h asked → (compileItem i s).2.Sound h asked ∧
    (i.TestedIn asked → (compileItem i s).2.Means h (compileItem i s).1 i)

lemma share_compiles (hs : s.Sound h asked) (hi : i.ApartFrom asked)
    {compile : Compilation → Parts × Compilation} (hc : (compile s).2.Sound h asked ∧
      (i.TestedIn asked → (compile s).2.PartsMean h i (compile s).1)) :
    (s.share i compile).2.Sound h asked ∧
      (i.TestedIn asked → (s.share i compile).2.Means h (s.share i compile).1 i) := by
  rw [share]
  split
  · next id hl => exact ⟨hs,fun ht => hs.means_of_lookup? ht hl⟩
  · exact ⟨hc.1.insertItem hi hc.2,fun ht => means_insertItem hc.1.numbered (hc.2 ht)⟩

end Compilation
end TreeRules
