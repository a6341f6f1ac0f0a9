import TreeRules.Compile.Compilation
import TreeRules.Matcher.Run
import TreeRules.Proofs.Hierarchy.Ancestry
import TreeRules.Proofs.Pattern.Meaning

/-! Type tests under a growing symbol table. A test asks whether the symbol of a type is listed;
the answer is whether the type counts as the one that was named, in every later table. -/
namespace TreeRules
namespace SymbolTable

variable {t u : SymbolTable}

/-- A name keeps its symbol while the table grows. -/
lemma get?_of_isPrefix (h : t.names <+: u.names) {name : String} {symbol : Symbol}
    (hs : t.get? name = some symbol) : u.get? name = some symbol := by
  obtain ⟨rest,hrest⟩ := h
  simp only [get?, List.idxOf?] at hs ⊢
  rw [← hrest, List.findIdx?_append, hs, Option.some_or]

/-- No two names have one symbol. -/
lemma eq_of_get?_eq {a b : String} {symbol : Symbol} (ha : t.get? a = some symbol)
    (hb : t.get? b = some symbol) : a = b :=
  Option.some.inj ((t.name?_of_get? ha).symm.trans (t.name?_of_get? hb))

lemma get?_intern (t : SymbolTable) (name : String) :
    (t.intern name).2.get? name = some (t.intern name).1 := by
  unfold intern
  split
  · next symbol h => exact h
  · next h =>
    simp only [get?, List.idxOf?] at h ⊢
    simp [List.findIdx?_append, h, size]

lemma names_isPrefix_internAll (t : SymbolTable) (names : List String) :
    t.names <+: (t.internAll names).2.names := by
  induction names generalizing t with
  | nil => exact List.prefix_refl _
  | cons name names ih => exact (t.names_isPrefix_intern name).trans (ih _)

/-- Adding names gives the symbols that every later table has for them. -/
lemma map_get?_internAll {names : List String} (h : (t.internAll names).2.names <+: u.names) :
    names.map u.get? = (t.internAll names).1.map some := by
  induction names generalizing t with
  | nil => rfl
  | cons name names ih =>
    have hfirst : (t.intern name).2.names <+: u.names :=
      (names_isPrefix_internAll _ names).trans h
    have hname := get?_of_isPrefix hfirst (t.get?_intern name)
    simp only [internAll, List.map_cons, hname]
    rw [ih (show ((t.intern name).2.internAll names).2.names <+: u.names from h)]

/-- The symbols of added names are listed for these names alone. -/
lemma any_contains_internAll {names : List String}
    (h : (t.internAll names).2.names <+: u.names) (name : String) :
    (u.get? name).any (t.internAll names).1.contains = names.contains name := by
  have hmap := map_get?_internAll h
  rw [Bool.eq_iff_iff, List.contains_iff_mem]
  simp only [Option.any_eq_true, List.contains_iff_mem]
  constructor
  · rintro ⟨symbol,hs,hm⟩
    obtain ⟨other,ho,hos⟩ := List.mem_map.mp
      (hmap ▸ List.mem_map.mpr ⟨symbol,hm,rfl⟩ : some symbol ∈ names.map u.get?)
    rwa [eq_of_get?_eq hs hos]
  · intro hn
    obtain ⟨symbol,hm,hs⟩ := List.mem_map.mp
      (hmap ▸ List.mem_map.mpr ⟨name,hn,rfl⟩ : u.get? name ∈ (t.internAll names).1.map some)
    exact ⟨symbol,hs.symm,hm⟩

end SymbolTable

namespace Compilation

lemma symbols_typeTest_isPrefix (s : Compilation) (name : String) :
    s.symbols.names <+: (s.typeTest name).2.symbols.names := by
  have hi := s.symbols.names_isPrefix_intern name
  unfold typeTest
  split
  · exact hi
  · exact hi.trans (SymbolTable.names_isPrefix_internAll _ _)

/-- Making a test changes nothing but the symbol table. -/
lemma typeTest_eq (s : Compilation) (name : String) :
    (s.typeTest name).2 = { s with symbols := (s.typeTest name).2.symbols } := by
  unfold typeTest
  split <;> rfl

lemma mem_descendants_iff {h : Hierarchy} {sub sup : String} (hs : h.contains sup = true) :
    sub ∈ h.descendants sup ↔ h.isA sub sup = true := by
  simp only [Hierarchy.descendants, List.mem_filter, Hierarchy.mem_names_iff, and_iff_right_iff_imp]
  intro ha
  by_contra hc
  have hc : h.contains sub = false := by simpa using hc
  rw [Hierarchy.isA_of_not_contains_sub hc, beq_iff_eq] at ha
  rw [ha, hs] at hc
  cases hc

/-- A test for a type is passed by the nodes whose type counts as it, however the symbol table
grows. -/
theorem admits_typeTest {s : Compilation} (hp : ∀ h ∈ s.hierarchy, h.ParentsDeclared)
    {name : String} {u : SymbolTable} (hu : (s.typeTest name).2.symbols.names <+: u.names)
    (node : Tree) :
    (s.typeTest name).1.admits u node = countsAs s.hierarchy node.type name := by
  have hexact : ∀ (hu : (s.symbols.intern name).2.names <+: u.names),
      (u.get? node.type).any [(s.symbols.intern name).1].contains = (node.type == name) := by
    intro hu
    have hone := @SymbolTable.any_contains_internAll s.symbols u [name] hu node.type
    rw [List.contains_cons, List.contains_nil, Bool.or_false] at hone
    exact hone
  unfold typeTest at hu ⊢
  cases hh : s.hierarchy with
  | none =>
    simp only [subtypes, hh] at hu ⊢
    exact hexact hu
  | some h =>
    by_cases hc : h.contains name = true
    · simp only [subtypes, hh, hc, if_true] at hu ⊢
      rw [Matcher.TypeTest.admits, SymbolTable.any_contains_internAll hu, Bool.eq_iff_iff,
        List.contains_iff_mem, mem_descendants_iff hc]
      rfl
    · simp only [subtypes, hh, hc] at hu ⊢
      have hc : h.contains name = false := by simpa using hc
      rw [countsAs, Hierarchy.isA_of_not_contains_sup (hp h hh) hc]
      exact hexact hu

/-- A test for a type, made in any session and asked after any names were added, is the question
whether the type of a node is the one that was named or below it: without a hierarchy, whether they
are the same, and with one, what the walk up from the node's type comes to. -/
theorem admits_typeTest_iff_isA {s : Compilation} (hr : ∀ h ∈ s.hierarchy, h.Reachable)
    (name : String) (later : List String) (node : Tree) :
    let test := (s.typeTest name).1
    let symbols := ((s.typeTest name).2.symbols.internAll later).2
    (s.hierarchy = none → (test.admits symbols node = true ↔ node.type = name)) ∧
      ∀ h, s.hierarchy = some h →
        (test.admits symbols node = true ↔ h.isA node.type name = true) ∧
        h.Walk name (some node.type) (test.admits symbols node) := by
  intro test symbols
  have hp : ∀ h ∈ s.hierarchy, h.ParentsDeclared := fun h hh => (hr h hh).parentsDeclared
  have heq : test.admits symbols node = countsAs s.hierarchy node.type name :=
    admits_typeTest hp (SymbolTable.names_isPrefix_internAll _ later) node
  rw [heq]
  constructor
  · intro hh
    rw [hh]
    exact beq_iff_eq
  · intro h hh
    rw [hh]
    exact ⟨Iff.rfl,(hr h hh).sound.walk node.type name⟩

namespace Subtypes

/-- The types `A` and `B`, which extends it, loaded. -/
def loaded : Hierarchy := ⟨[⟨"B",some "A",.ordinary⟩,⟨"A",none,.abstract⟩]⟩

/-- The type `C`, which extends `B`, is added. -/
def types : Hierarchy := ⟨loaded.declarations ++ [⟨"C",some "B",.ordinary⟩]⟩

/-- A session that starts with symbols of other languages. -/
def session : Compilation := start "default" (some types) .default ⟨["D","C"]⟩

end Subtypes

open Subtypes in
/-- A subtype passes the test; a type that is added later does not, nor one that never is. -/
theorem admits_typeTest_subtypes :
    let test := (session.typeTest "A").1
    let symbols := ((session.typeTest "A").2.symbols.internAll ["E"]).2
    test.admits symbols (.node "C" none [] none) = true ∧
      types.Walk "A" (some "E") false ∧ symbols.get? "E" = some 4 ∧
      test.admits symbols (.node "F" none [] none) = false ∧ symbols.get? "F" = none := by
  have hload : Hierarchy.ofDeclarations loaded.declarations = .ok loaded := rfl
  have hadd : loaded.add ⟨"C",some "B",.ordinary⟩ = .ok types := rfl
  have hr : ∀ h ∈ session.hierarchy, h.Reachable := by
    rintro _ ⟨rfl⟩
    exact .add (.load hload) hadd
  have hasked := fun type =>
    (admits_typeTest_iff_isA hr "A" ["E"] (.node type none [] none)).2 types rfl
  refine ⟨(hasked "C").1.mpr (by decide),(hasked "E").2,by decide,?_,by decide⟩
  rw [Bool.eq_false_iff, Ne, (hasked "F").1]
  decide

end Compilation
end TreeRules
