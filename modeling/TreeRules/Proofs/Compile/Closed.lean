import TreeRules.Proofs.Compile.Calls
import TreeRules.Proofs.Program.Closed

/-! Sessions keep their tables closed. The items inside an item are compiled between the look-up of
its text and the insertion of its matcher; their texts are shorter, so none of them takes the text
that was looked up. -/
namespace TreeRules

namespace Item

lemma length_body_le_text (i : Item) : i.body.length ≤ i.text.length := by
  unfold text
  cases i.mode <;> simp only [Mode.enclose, String.length_append] <;> omega

lemma length_body_le_listText {i : Item} {items : List Item} (h : i ∈ items) :
    i.body.length ≤ (listText items).length := by
  induction items with
  | nil => cases h
  | cons j items ih =>
    have hj : (listText (j :: items)).length ≥ j.text.length ∧
        (listText (j :: items)).length ≥ (listText items).length := by
      cases items with
      | nil => exact ⟨Nat.le_refl _,Nat.zero_le _⟩
      | cons k items =>
        rw [listText, ← text]
        simp only [String.length_append]
        omega
    rcases List.mem_cons.mp h with rfl | h
    · exact Nat.le_trans i.length_body_le_text hj.1
    · exact Nat.le_trans (ih h) hj.2

/-- The text of an item is longer than the texts of the items inside it. -/
lemma length_body_lt {i c : Item} (h : c ∈ i.inner) : c.body.length < i.body.length := by
  have hc : c.body.length ≤ (listText i.inner).length := length_body_le_listText h
  cases i with
  | fixed t type data children =>
    have hp : Text.parenthesized children (listText children) =
        "(" ++ listText children ++ ")" := by
      cases children with
      | nil => cases h
      | cons => rfl
    have hone : "(".length = 1 ∧ ")".length = 1 := by decide
    rw [body, hp]
    simp only [inner, String.length_append] at hc ⊢
    omega
  | anyOf t items =>
    have hsign : "|(".length = 2 := by decide
    rw [body]
    simp only [inner, String.length_append] at hc ⊢
    omega
  | allOf t items =>
    have hsign : "&(".length = 2 := by decide
    rw [body]
    simp only [inner, String.length_append] at hc ⊢
    omega
  | typedHole | untypedHole | symbolRange | rest => cases h

end Item

namespace SymbolTable

/-- A symbol that stands for a name is in the table. -/
lemma lt_size_of_get? {t : SymbolTable} {name : String} {x : Symbol} (h : t.get? name = some x) :
    x < t.size := (List.getElem?_eq_some_iff.mp (t.name?_of_get? h)).1

lemma lt_size_intern (t : SymbolTable) (name : String) :
    (t.intern name).1 < (t.intern name).2.size := lt_size_of_get? (t.get?_intern name)

lemma lt_size_internAll (t : SymbolTable) (names : List String) :
    ∀ x ∈ (t.internAll names).1, x < (t.internAll names).2.size := by
  intro x hx
  have hmap := @map_get?_internAll t (t.internAll names).2 names (List.prefix_refl _)
  have hsome : some x ∈ names.map (t.internAll names).2.get? :=
    hmap ▸ List.mem_map.mpr ⟨x,hx,rfl⟩
  obtain ⟨name,-,hname⟩ := List.mem_map.mp hsome
  exact lt_size_of_get? hname

end SymbolTable

namespace Matcher.Parts

/-- The matchers that parts refer to. -/
def matchers (p : Parts) : List Id :=
  p.conditions.flatMap Condition.matchers ++ p.procedure.flatMap ChildCondition.matchers ++
    p.extractions.flatMap Extraction.matchers

/-- The symbols that parts read. -/
def symbols (p : Parts) : List Symbol :=
  p.conditions.flatMap Condition.symbols ++ p.procedure.flatMap ChildCondition.symbols

end Matcher.Parts

namespace Compilation

open Matcher (Id Parts Condition ChildCondition Extraction TypeTest)

variable {s t u : Compilation} {i : Item}

/-- All that the tables of a session refer to is there. -/
def Closed (s : Compilation) : Prop := s.finish.Closed s.symbols

/-- What parts refer to is there. -/
structure InRange (s : Compilation) (p : Parts) : Prop where
  matchers : ∀ id ∈ p.matchers, id < s.matchers.length
  symbols : ∀ x ∈ p.symbols, x < s.symbols.size

/-- From `s` to `t` matchers were added for texts of less than `n` characters, with their
symbols, and nothing else. -/
structure Adds (n : Nat) (s t : Compilation) : Prop where
  matchers : s.matchers <:+ t.matchers
  keys : ∀ m ∈ t.matchers, m ∈ s.matchers ∨ m.key.length < n
  symbols : s.symbols.names <+: t.symbols.names
  builders : t.builders = s.builders
  rules : t.rules = s.rules

namespace Adds

variable {n : Nat}

lemma refl (n : Nat) (s : Compilation) : Adds n s s :=
  ⟨List.suffix_refl _,fun _ h => Or.inl h,List.prefix_refl _,rfl,rfl⟩

lemma trans (h : Adds n s t) (h' : Adds n t u) : Adds n s u := by
  refine ⟨h.matchers.trans h'.matchers,fun m hm => ?_,h.symbols.trans h'.symbols,
    h'.builders.trans h.builders,h'.rules.trans h.rules⟩
  rcases h'.keys m hm with hm | hk
  · exact h.keys m hm
  · exact Or.inr hk

lemma mono {n' : Nat} (h : Adds n s t) (hn : n ≤ n') : Adds n' s t :=
  ⟨h.matchers,fun m hm => (h.keys m hm).imp_right fun hk => Nat.lt_of_lt_of_le hk hn,h.symbols,
    h.builders,h.rules⟩

lemma inRange (h : Adds n s t) {p : Parts} (hp : s.InRange p) : t.InRange p :=
  ⟨fun id hid => Nat.lt_of_lt_of_le (hp.matchers id hid) h.matchers.length_le,
    fun x hx => Nat.lt_of_lt_of_le (hp.symbols x hx) h.symbols.length_le⟩

end Adds

/-! Symbols. -/

lemma adds_typeTest (n : Nat) (s : Compilation) (name : String) :
    Adds n s (s.typeTest name).2 := by
  have hg := s.growsTo_typeTest name
  refine ⟨hg.matchers,fun m hm => ?_,hg.symbols,?_,?_⟩
  · rw [typeTest_eq] at hm
    exact Or.inl hm
  · rw [typeTest_eq]
  · rw [typeTest_eq]

lemma Closed.withSymbols (hs : s.Closed) {v : SymbolTable} (hv : s.symbols.names <+: v.names) :
    Closed { s with symbols := v } := Language.Closed.mono hs hv

lemma Closed.intern (hs : s.Closed) (name : String) : (s.intern name).2.Closed :=
  hs.withSymbols (s.symbols.names_isPrefix_intern name)

lemma Closed.typeTest (hs : s.Closed) (name : String) : (s.typeTest name).2.Closed := by
  rw [typeTest_eq]
  exact hs.withSymbols (s.symbols_typeTest_isPrefix name)

/-- The symbols of a test are there. -/
lemma lt_size_typeTest (s : Compilation) (name : String) :
    ∀ x ∈ (s.typeTest name).1.symbols, x < (s.typeTest name).2.symbols.size := by
  have hi := s.symbols.lt_size_intern name
  unfold Compilation.typeTest
  split
  · intro x hx
    have hx : x = (s.intern name).1 := by simpa [TypeTest.symbols, TypeTest.exact] using hx
    exact hx ▸ hi
  · next subtypes _ =>
    intro x hx
    rcases List.mem_cons.mp hx with rfl | hx
    · exact Nat.lt_of_lt_of_le hi (SymbolTable.names_isPrefix_internAll _ subtypes).length_le
    · exact SymbolTable.lt_size_internAll _ subtypes x hx

/-! Matchers. -/

lemma Closed.insertMatcher (hs : s.Closed) {key : String} (hk : ∀ m ∈ s.matchers, m.key ≠ key)
    (base : String) (negated : Bool) {p : Parts} (hp : s.InRange p) :
    (s.insertMatcher key base negated p).2.Closed := by
  refine ⟨byPlace_reverse_cons.mpr ⟨hs.matcherIds,rfl⟩,hs.builderIds,hs.ruleIds,?_,?_,?_,
    hs.sources,hs.builderSymbols,fun r hr c hc => ?_,hs.results⟩
  · refine List.nodup_cons.mpr ⟨fun hmem => ?_,hs.keys⟩
    obtain ⟨m,hm,hmk⟩ := List.mem_map.mp hmem
    exact hk m hm hmk
  · intro m hm
    rcases List.mem_cons.mp (List.mem_reverse.mp hm) with rfl | hm
    · intro id hid
      exact hp.matchers id (List.mem_eraseDups.mp hid)
    · exact hs.dependencies m (List.mem_reverse.mpr hm)
  · intro m hm
    rcases List.mem_cons.mp (List.mem_reverse.mp hm) with rfl | hm
    · exact hp.symbols
    · exact hs.matcherSymbols m (List.mem_reverse.mpr hm)
  · have hlt := hs.checkers r hr c hc
    rw [Language.matcherList, List.length_reverse] at hlt ⊢
    exact Nat.lt_succ_of_lt hlt

lemma adds_insertMatcher (s : Compilation) (key base : String) (negated : Bool) (p : Parts) :
    Adds (key.length + 1) s (s.insertMatcher key base negated p).2 := by
  refine ⟨List.suffix_cons _ _,fun m hm => ?_,List.prefix_refl _,rfl,rfl⟩
  rcases List.mem_cons.mp hm with rfl | hm
  · exact Or.inr (Nat.lt_succ_self _)
  · exact Or.inl hm

/-- What is to be shown of compiling an item: the tables stay closed, the matcher is there, and only
the item's own text and shorter ones were added. -/
def ClosesItem (i : Item) : Prop := ∀ s : Compilation, s.Closed →
  (compileItem i s).2.Closed ∧ (compileItem i s).1 < (compileItem i s).2.matchers.length ∧
    Adds (i.body.length + 1) s (compileItem i s).2

/-- Parts that were compiled in a closed session, with shorter texts than the item's own. -/
structure ClosesParts (i : Item) (s : Compilation) (made : Parts × Compilation) : Prop where
  closed : made.2.Closed
  inRange : made.2.InRange made.1
  adds : Adds i.body.length s made.2

/-- A matcher that is not found by the text of its item can be added under that text. -/
lemma share_closes {compile : Compilation → Parts × Compilation} (hs : s.Closed)
    (hc : ClosesParts i s (compile s)) :
    (s.share i compile).2.Closed ∧ (s.share i compile).1 < (s.share i compile).2.matchers.length ∧
      Adds (i.body.length + 1) s (s.share i compile).2 := by
  unfold share
  cases hl : s.lookup? i.body with
  | some id =>
    obtain ⟨m,hm,rfl⟩ := Option.map_eq_some_iff.mp hl
    have hmem : m ∈ s.matchers.reverse := List.mem_reverse.mpr (List.mem_of_find?_eq_some hm)
    obtain ⟨place,hlt,hplace⟩ := List.mem_iff_getElem.mp hmem
    have hid : m.id = place := hs.matcherIds place m (hplace ▸ List.getElem?_eq_getElem hlt)
    rw [List.length_reverse] at hlt
    exact ⟨hs,hid ▸ hlt,.refl _ s⟩
  | none =>
    -- the text was not there before, and what was added since is shorter
    have hnew : ∀ m ∈ (compile s).2.matchers, m.key ≠ i.body := by
      intro m hm hk
      rcases hc.adds.keys m hm with hm | hlt
      · have hnone : s.matchers.find? (·.key == i.body) = none := Option.map_eq_none_iff.mp hl
        have hne := List.find?_eq_none.mp hnone m hm
        exact hne (by simpa using hk)
      · rw [hk] at hlt
        exact Nat.lt_irrefl _ hlt
    have hkept : (compile s).2.InRange (if i.negated && !i.isTypedHole
        then { (compile s).1 with extractions := [] } else (compile s).1) := by
      split_ifs
      · refine ⟨fun id hid => hc.inRange.matchers id ?_,hc.inRange.symbols⟩
        exact List.mem_append_left _ (by simpa [Parts.matchers] using hid)
      · exact hc.inRange
    exact ⟨hc.closed.insertMatcher hnew _ _ hkept,Nat.lt_succ_self _,
      (hc.adds.mono (Nat.le_succ _)).trans (adds_insertMatcher _ _ _ _ _)⟩

/-! Children and lists of items. -/

/-- What children ask and capture, as parts of a matcher. -/
def ChildParts.asParts (c : ChildParts) : Parts := ⟨[],c.conditions,c.extractions⟩

lemma inRange_append {a b : ChildParts} (ha : s.InRange a.asParts) (hb : s.InRange b.asParts) :
    s.InRange (ChildParts.asParts
      ⟨a.conditions ++ b.conditions,a.extractions ++ b.extractions⟩) := by
  constructor
  · intro id hid
    simp only [ChildParts.asParts, Parts.matchers, List.flatMap_nil, List.nil_append,
      List.flatMap_append, List.mem_append] at hid
    rcases hid with (h | h) | (h | h)
    · exact ha.matchers id (by simp [ChildParts.asParts, Parts.matchers, h])
    · exact hb.matchers id (by simp [ChildParts.asParts, Parts.matchers, h])
    · exact ha.matchers id (by simp [ChildParts.asParts, Parts.matchers, h])
    · exact hb.matchers id (by simp [ChildParts.asParts, Parts.matchers, h])
  · intro x hx
    simp only [ChildParts.asParts, Parts.symbols, List.flatMap_nil, List.nil_append,
      List.flatMap_append, List.mem_append] at hx
    rcases hx with h | h
    · exact ha.symbols x (by simpa [ChildParts.asParts, Parts.symbols] using h)
    · exact hb.symbols x (by simpa [ChildParts.asParts, Parts.symbols] using h)

lemma inRange_nothing (s : Compilation) : s.InRange ⟨[],[],[]⟩ :=
  ⟨fun _ h => (List.not_mem_nil h).elim,fun _ h => (List.not_mem_nil h).elim⟩

/-- One child. -/
lemma compileChild_closes {n : Nat} (hi : ClosesItem i) (hn : i.body.length < n) (index : Nat)
    (hs : s.Closed) :
    (compileChild index i s).2.Closed ∧
      (compileChild index i s).2.InRange (compileChild index i s).1.asParts ∧
      Adds n s (compileChild index i s).2 := by
  obtain ⟨hclosed,hlt,hadds⟩ := hi s hs
  unfold compileChild
  cases i.childRole with
  | any h | remaining h =>
    refine ⟨hs,⟨?_,?_⟩,.refl _ s⟩
    · simp [ChildParts.asParts, Parts.matchers, Extraction.matchers]
    · simp [ChildParts.asParts, Parts.symbols]
  | free => exact ⟨hs,inRange_nothing s,.refl _ s⟩
  | remainingOf type h =>
    refine ⟨hs.typeTest type,⟨?_,?_⟩,adds_typeTest n s type⟩
    · simp [ChildParts.asParts, Parts.matchers, ChildCondition.matchers, Extraction.matchers]
    · simpa [ChildParts.asParts, Parts.symbols, ChildCondition.symbols] using
        s.lt_size_typeTest type
  | captured h =>
    refine ⟨hclosed,⟨?_,?_⟩,hadds.mono hn⟩
    · simpa [ChildParts.asParts, Parts.matchers, ChildCondition.matchers, Extraction.matchers]
        using hlt
    · simp [ChildParts.asParts, Parts.symbols, ChildCondition.symbols]
  | nested =>
    refine ⟨hclosed,⟨?_,?_⟩,hadds.mono hn⟩
    · intro id hid
      have hid : id = (compileItem i s).1 := by
        simp only [ChildParts.asParts, Parts.matchers, List.flatMap_nil, List.nil_append,
          List.flatMap_cons, List.append_nil, ChildCondition.matchers, List.mem_append,
          List.mem_singleton] at hid
        rcases hid with h | h
        · exact h
        · split_ifs at h
          · simpa [Extraction.matchers] using h
          · cases h
      exact hid ▸ hlt
    · simp [ChildParts.asParts, Parts.symbols, ChildCondition.symbols]

lemma compileChildren_closes {n : Nat} {items : List Item}
    (ih : ∀ i ∈ items, ClosesItem i) (hn : ∀ i ∈ items, i.body.length < n) (index : Nat)
    (hs : s.Closed) :
    (compileChildren index items s).2.Closed ∧
      (compileChildren index items s).2.InRange (compileChildren index items s).1.asParts ∧
      Adds n s (compileChildren index items s).2 := by
  induction items generalizing index s with
  | nil => exact ⟨hs,inRange_nothing s,.refl _ s⟩
  | cons i items ihi =>
    obtain ⟨hfirst,hfr,hfa⟩ := compileChild_closes (ih i List.mem_cons_self)
      (hn i List.mem_cons_self) index hs
    obtain ⟨hrest,hrr,hra⟩ := ihi (fun j hj => ih j (List.mem_cons_of_mem _ hj))
      (fun j hj => hn j (List.mem_cons_of_mem _ hj)) (index + 1) hfirst
    rw [compileChildren_cons]
    exact ⟨hrest,inRange_append (hra.inRange hfr) hrr,hfa.trans hra⟩

lemma compileItems_closes {n : Nat} {items : List Item} (ih : ∀ i ∈ items, ClosesItem i)
    (hn : ∀ i ∈ items, i.body.length < n) (hs : s.Closed) :
    (compileItems items s).2.Closed ∧
      (∀ id ∈ (compileItems items s).1, id < (compileItems items s).2.matchers.length) ∧
      Adds n s (compileItems items s).2 := by
  induction items generalizing s with
  | nil => exact ⟨hs,fun _ h => (List.not_mem_nil h).elim,.refl _ s⟩
  | cons i items ihi =>
    obtain ⟨hfirst,hlt,hfa⟩ := ih i List.mem_cons_self s hs
    obtain ⟨hrest,hlts,hra⟩ := ihi (fun j hj => ih j (List.mem_cons_of_mem _ hj))
      (fun j hj => hn j (List.mem_cons_of_mem _ hj)) hfirst
    rw [compileItems]
    refine ⟨hrest,fun id hid => ?_,(hfa.mono (hn i List.mem_cons_self)).trans hra⟩
    rcases List.mem_cons.mp hid with rfl | hid
    · exact Nat.lt_of_lt_of_le hlt hra.matchers.length_le
    · exact hlts id hid

/-! The parts of the kinds of items. -/

/-- Conditions on the node itself refer to no matcher, and read the symbols of the type. -/
lemma ownConditions (test : TypeTest) (data : Option Datum) (children : List Item) :
    ([.type test,countCondition children] ++ dataConditions data).flatMap Condition.matchers = [] ∧
      ([.type test,countCondition children] ++ dataConditions data).flatMap Condition.symbols =
        test.symbols := by
  unfold countCondition
  rcases data with _ | _ | _ <;> split <;>
    simp [dataConditions, Condition.matchers, Condition.symbols]

lemma matchers_dataExtractions (data : Option Datum) :
    (dataExtractions data).flatMap Extraction.matchers = [] := by
  rcases data with _ | _ | _ <;> rfl

/-- Wherever the conditions on children stand, the same matchers and symbols are referred to. -/
lemma fixedParts_refers (limit : Nat) (test : TypeTest) (data : Option Datum)
    (children : List Item) (below : ChildParts) :
    (fixedParts limit test data children below).matchers = below.asParts.matchers ∧
      (fixedParts limit test data children below).symbols =
        test.symbols ++ below.asParts.symbols := by
  obtain ⟨hm,hs⟩ := ownConditions test data children
  have hd := matchers_dataExtractions data
  have hinline : (below.conditions.map Condition.children).flatMap Condition.matchers =
        below.conditions.flatMap ChildCondition.matchers ∧
      (below.conditions.map Condition.children).flatMap Condition.symbols =
        below.conditions.flatMap ChildCondition.symbols :=
    ⟨List.flatMap_map _ _ _,List.flatMap_map _ _ _⟩
  unfold fixedParts
  generalize [Condition.type test,countCondition children] ++ dataConditions data = own at hm hs ⊢
  split_ifs
  · constructor
    · simp [Parts.matchers, ChildParts.asParts, hm, hd, Condition.matchers]
    · simp [Parts.symbols, ChildParts.asParts, hs, Condition.symbols]
  · constructor
    · simp [Parts.matchers, ChildParts.asParts, List.flatMap_append, hm, hd, hinline.1]
    · simp [Parts.symbols, ChildParts.asParts, List.flatMap_append, hs, hinline.2]

lemma inRange_fixedParts {limit : Nat} {test : TypeTest} {data : Option Datum}
    {children : List Item} {below : ChildParts} (hb : s.InRange below.asParts)
    (ht : ∀ x ∈ test.symbols, x < s.symbols.size) :
    s.InRange (fixedParts limit test data children below) := by
  obtain ⟨hm,hs⟩ := fixedParts_refers limit test data children below
  constructor
  · rw [hm]
    exact hb.matchers
  · rw [hs]
    intro x hx
    exact (List.mem_append.mp hx).elim (ht x) (hb.symbols x)

lemma inRange_anyOfParts {ids : List Id} (h : ∀ id ∈ ids, id < s.matchers.length) :
    s.InRange (s.anyOfParts ids) := by
  constructor
  · intro id hid
    apply h id
    unfold anyOfParts at hid
    split_ifs at hid <;>
      simpa [Parts.matchers, Condition.matchers, Extraction.matchers] using hid
  · simp [anyOfParts, Parts.symbols, Condition.symbols]

lemma inRange_allOfParts {ids : List Id} (h : ∀ id ∈ ids, id < s.matchers.length) :
    s.InRange (s.allOfParts ids) := by
  constructor
  · intro id hid
    apply h id
    unfold allOfParts extracting at hid
    split_ifs at hid
    · simpa [Parts.matchers, Condition.matchers] using hid
    · simp only [Parts.matchers, Condition.matchers, Extraction.matchers, List.flatMap_cons,
        List.flatMap_nil, List.append_nil, List.mem_append, List.mem_filter] at hid
      exact hid.elim (fun h => h) And.left
  · simp [allOfParts, Parts.symbols, Condition.symbols]

/-- Compiling an item keeps the tables closed. -/
theorem closesItem (i : Item) : ClosesItem i := by
  induction i using Item.ind with
  | fixed t type data children ih =>
    intro s hs
    have hn : ∀ c ∈ children, c.body.length < (Item.fixed t type data children).body.length :=
      fun c hc => Item.length_body_lt (i := .fixed t type data children) hc
    obtain ⟨hclosed,hr,ha⟩ := compileChildren_closes ih hn 0 (hs.typeTest type)
    rw [compileItem]
    refine share_closes hs ⟨hclosed,inRange_fixedParts hr fun x hx => ?_,
      (adds_typeTest _ s type).trans ha⟩
    exact Nat.lt_of_lt_of_le (s.lt_size_typeTest type x hx) ha.symbols.length_le
  | typedHole t type hole ellipsis =>
    intro s hs
    rw [compileItem]
    refine share_closes hs ⟨hs.typeTest type,⟨?_,?_⟩,adds_typeTest _ s type⟩
    · simp [Parts.matchers, Condition.matchers, Extraction.matchers]
    · simpa [Parts.symbols, Condition.symbols] using s.lt_size_typeTest type
  | untypedHole t hole ellipsis =>
    intro s hs
    rw [compileItem]
    exact share_closes hs ⟨hs,⟨by simp [Parts.matchers, Extraction.matchers],
      by simp [Parts.symbols]⟩,.refl _ s⟩
  | symbolRange t first last hole =>
    intro s hs
    rw [compileItem]
    refine share_closes hs ⟨hs,⟨?_,by simp [Parts.symbols, Condition.symbols]⟩,.refl _ s⟩
    cases hole <;> simp [Parts.matchers, Condition.matchers, Extraction.matchers]
  | anyOf t items ih =>
    intro s hs
    obtain ⟨hclosed,hlt,ha⟩ := compileItems_closes ih
      (fun c hc => Item.length_body_lt (i := .anyOf t items) hc) hs
    rw [compileItem]
    exact share_closes hs ⟨hclosed,inRange_anyOfParts hlt,ha⟩
  | allOf t items ih =>
    intro s hs
    obtain ⟨hclosed,hlt,ha⟩ := compileItems_closes ih
      (fun c hc => Item.length_body_lt (i := .allOf t items) hc) hs
    rw [compileItem]
    exact share_closes hs ⟨hclosed,inRange_allOfParts hlt,ha⟩
  | rest t =>
    intro s hs
    rw [compileItem]
    exact share_closes hs ⟨hs,inRange_nothing s,.refl _ s⟩

end Compilation
end TreeRules
