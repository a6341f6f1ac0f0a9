import TreeRules.Proofs.Check.Types
import TreeRules.Proofs.Compile.Program
import TreeRules.Proofs.Program.Linked
import TreeRules.RuleSet

/-! Compiling rules whose types are known keeps the tables linked. The check goes through the types
as they are written, compiling through items, children and templates as they nest; every name that a
table comes to hold is one that the check has seen. -/
namespace TreeRules

/-- Adding names gives symbols that stand for them, one each. -/
lemma SymbolTable.map_name?_internAll (t : SymbolTable) (names : List String) :
    (t.internAll names).1.map (t.internAll names).2.name? = names.map some := by
  induction names generalizing t with
  | nil => rfl
  | cons name names ih =>
    have hname := name?_of_isPrefix (names_isPrefix_internAll (t.intern name).2 names)
      (t.name?_intern name)
    exact congrArg₂ List.cons hname (ih (t.intern name).2)

/-- The type tests of parts. -/
def Matcher.Parts.tests (p : Parts) : List TypeTest :=
  p.conditions.flatMap Condition.tests ++ p.procedure.flatMap ChildCondition.tests

namespace Compilation

open Matcher (Parts TypeTest Condition ChildCondition)

variable {h : Hierarchy} {s t : Compilation} {i : Item}

/-- The session compiles against the hierarchy, and its tables are linked. -/
structure Linked (h : Hierarchy) (s : Compilation) : Prop where
  hierarchy : s.hierarchy = some h
  tables : s.finish.Linked h s.symbols

/-- All tests of the parts are linked. -/
def LinksParts (h : Hierarchy) (s : Compilation) (p : Parts) : Prop :=
  ∀ test ∈ p.tests, test.Linked h s.symbols

lemma LinksParts.mono {p : Parts} (hp : s.LinksParts h p) (hs : s.GrowsTo t) :
    t.LinksParts h p := fun test ht => (hp test ht).mono hs.symbols

lemma linked_start (language : String) (h : Hierarchy) (config : Config) (symbols : SymbolTable) :
    (start language (some h) config symbols).Linked h :=
  ⟨rfl,fun _ hm => (List.not_mem_nil hm).elim,fun _ hb => (List.not_mem_nil hb).elim⟩

/-! Symbols. -/

lemma Linked.withSymbols (hs : s.Linked h) {v : SymbolTable} (hv : s.symbols.names <+: v.names) :
    Linked h { s with symbols := v } := ⟨hs.hierarchy,hs.tables.mono hv⟩

lemma Linked.intern (hs : s.Linked h) (name : String) : (s.intern name).2.Linked h :=
  hs.withSymbols (s.symbols.names_isPrefix_intern name)

/-- The test for a declared type is linked. -/
lemma Linked.typeTest (hs : s.Linked h) {name : String} (hc : h.contains name = true) :
    (s.typeTest name).2.Linked h ∧
      (s.typeTest name).1.Linked h (s.typeTest name).2.symbols := by
  constructor
  · rw [typeTest_eq]
    exact hs.withSymbols (s.symbols_typeTest_isPrefix name)
  · have hsub : s.subtypes name = some (h.descendants name) := by
      rw [subtypes, hs.hierarchy]
      exact if_pos hc
    rw [Compilation.typeTest, hsub]
    refine ⟨name,?_,hc,SymbolTable.map_name?_internAll _ _⟩
    exact SymbolTable.name?_of_isPrefix (SymbolTable.names_isPrefix_internAll _ _)
      (s.symbols.name?_intern name)

/-! Items. -/

lemma Linked.insertItem (hs : s.Linked h) (i : Item) {p : Parts} (hp : s.LinksParts h p) :
    (s.insertItem i p).2.Linked h := by
  refine ⟨hs.hierarchy,fun m hm => ?_,hs.tables.builders⟩
  rcases List.mem_cons.mp hm with rfl | hm
  · -- a negated item loses what it captures, and keeps what it asks
    intro test ht
    apply hp test
    revert ht
    split_ifs <;> exact id
  · exact hs.tables.tests m hm

lemma linked_share {compile : Compilation → Parts × Compilation} (hs : s.Linked h)
    (hc : (compile s).2.Linked h) (hp : (compile s).2.LinksParts h (compile s).1) (i : Item) :
    (s.share i compile).2.Linked h := by
  rw [share]
  split
  · exact hs
  · exact hc.insertItem i hp

/-- What is to be shown of compiling an item whose types are declared. -/
def LinksItem (h : Hierarchy) (i : Item) : Prop :=
  (∀ name ∈ i.typeNames, h.contains name = true) → ∀ s : Compilation, s.Linked h →
    (compileItem i s).2.Linked h

lemma asParts_append (a b : ChildParts) :
    (ChildParts.asParts ⟨a.conditions ++ b.conditions,a.extractions ++ b.extractions⟩).tests =
      a.asParts.tests ++ b.asParts.tests := by
  simp [ChildParts.asParts, Parts.tests, List.flatMap_append]

/-- A child whose role is to stand for the remaining ones names their type. -/
lemma Item.mem_typeNames_of_childRole {type : String} {hole : Hole}
    (hr : i.childRole = .remainingOf type hole) : type ∈ i.typeNames := by
  cases i with
  | typedHole t type' hole' ellipsis =>
    cases ellipsis with
    | true =>
      cases hr
      exact List.mem_singleton_self _
    | false => cases hr
  | untypedHole t hole' ellipsis => cases ellipsis <;> cases hr
  | fixed | symbolRange | anyOf | allOf | rest => cases hr

lemma linked_compileChild (hi : LinksItem h i)
    (hn : ∀ name ∈ i.typeNames, h.contains name = true) (index : Nat) (hs : s.Linked h) :
    (compileChild index i s).2.Linked h ∧
      (compileChild index i s).2.LinksParts h (compileChild index i s).1.asParts := by
  have hitem := hi hn s hs
  unfold compileChild
  cases hr : i.childRole with
  | remainingOf type hole =>
    obtain ⟨hs',htest⟩ := hs.typeTest (hn type (Item.mem_typeNames_of_childRole hr))
    refine ⟨hs',fun test ht => ?_⟩
    have ht : test = (s.typeTest type).1 := by
      simpa [ChildParts.asParts, Parts.tests, ChildCondition.tests] using ht
    exact ht ▸ htest
  | any | remaining | free =>
    exact ⟨hs,by simp [LinksParts, ChildParts.asParts, Parts.tests]⟩
  | captured | nested =>
    exact ⟨hitem,by simp [LinksParts, ChildParts.asParts, Parts.tests, ChildCondition.tests]⟩

lemma linked_compileChildren {items : List Item} (ih : ∀ i ∈ items, LinksItem h i)
    (hn : ∀ name ∈ items.flatMap Item.typeNames, h.contains name = true) (index : Nat)
    (hs : s.Linked h) :
    (compileChildren index items s).2.Linked h ∧
      (compileChildren index items s).2.LinksParts h (compileChildren index items s).1.asParts := by
  induction items generalizing index s with
  | nil => exact ⟨hs,by simp [compileChildren_nil, LinksParts, ChildParts.asParts, Parts.tests]⟩
  | cons i items ihi =>
    rw [List.flatMap_cons, List.forall_mem_append] at hn
    obtain ⟨hfirst,hfp⟩ := linked_compileChild (ih i List.mem_cons_self) hn.1 index hs
    obtain ⟨hrest,hrp⟩ := ihi (fun j hj => ih j (List.mem_cons_of_mem _ hj)) hn.2 (index + 1) hfirst
    have hgrows := growsTo_compileChildren (fun j (_ : j ∈ items) => growsTo_compileItem j)
      (index + 1) (compileChild index i s).2
    rw [compileChildren_cons]
    refine ⟨hrest,fun test ht => ?_⟩
    rw [asParts_append, List.mem_append] at ht
    rcases ht with ht | ht
    · exact hfp.mono hgrows test ht
    · exact hrp test ht

lemma linked_compileItems {items : List Item} (ih : ∀ i ∈ items, LinksItem h i)
    (hn : ∀ name ∈ items.flatMap Item.typeNames, h.contains name = true) (hs : s.Linked h) :
    (compileItems items s).2.Linked h := by
  induction items generalizing s with
  | nil => exact hs
  | cons i items ihi =>
    rw [List.flatMap_cons, List.forall_mem_append] at hn
    rw [compileItems]
    exact ihi (fun j hj => ih j (List.mem_cons_of_mem _ hj)) hn.2
      (ih i List.mem_cons_self hn.1 s hs)

/-- Whether or not the conditions on children make a procedure, the tests are those of the node and
of its children. -/
lemma tests_fixedParts (limit : Nat) (test : TypeTest) (data : Option Datum)
    (children : List Item) (below : ChildParts) :
    (fixedParts limit test data children below).tests = test :: below.asParts.tests := by
  have hcount : (countCondition children).tests = [] := by
    unfold countCondition
    split <;> rfl
  have hdata : (dataConditions data).flatMap Condition.tests = [] := by
    rcases data with _ | (hole | text) <;> rfl
  unfold fixedParts
  split_ifs <;> simp [Parts.tests, ChildParts.asParts, hcount, hdata, List.flatMap_map]

theorem linksItem (i : Item) : LinksItem h i := by
  induction i using Item.ind with
  | fixed t type data children ih =>
    intro hn s hs
    rw [Item.typeNames, Item.listTypeNames_eq_flatMap, List.forall_mem_cons] at hn
    obtain ⟨htype,htest⟩ := hs.typeTest hn.1
    obtain ⟨hbelow,hp⟩ := linked_compileChildren ih hn.2 0 htype
    have hgrows := growsTo_compileChildren (fun j (_ : j ∈ children) => growsTo_compileItem j) 0
      (s.typeTest type).2
    rw [compileItem]
    refine linked_share hs hbelow (fun test ht => ?_) _
    rw [tests_fixedParts, List.mem_cons] at ht
    rcases ht with rfl | ht
    · exact htest.mono hgrows.symbols
    · exact hp test ht
  | typedHole t type hole ellipsis =>
    intro hn s hs
    obtain ⟨htype,htest⟩ := hs.typeTest (hn type (List.mem_singleton_self _))
    rw [compileItem]
    refine linked_share hs htype (fun test ht => ?_) _
    have ht : test = (s.typeTest type).1 := by simpa [Parts.tests, Condition.tests] using ht
    exact ht ▸ htest
  | anyOf t items ih | allOf t items ih =>
    intro hn s hs
    rw [Item.typeNames, Item.listTypeNames_eq_flatMap] at hn
    rw [compileItem]
    exact linked_share hs (linked_compileItems ih hn hs)
      (by simp [LinksParts, Parts.tests, Condition.tests, anyOfParts, allOfParts]) _
  | untypedHole | symbolRange | rest =>
    intro hn s hs
    rw [compileItem]
    exact linked_share hs hs (by simp [LinksParts, Parts.tests, Condition.tests]) _

/-! Right sides. -/

lemma Linked.insertBuilder (hs : s.Linked h) {type : Symbol} {name : String}
    (hname : s.symbols.name? type = some name) (hc : h.contains name = true)
    (ha : h.isAbstract name = false) (data : Option Datum) (children : List Builder.Source)
    (needsCaptures : Bool) : (s.insertBuilder type data children needsCaptures).2.Linked h := by
  refine ⟨hs.hierarchy,hs.tables.tests,fun b hb => ?_⟩
  rcases List.mem_cons.mp hb with rfl | hb
  · exact ⟨name,hname,hc,ha⟩
  · exact hs.tables.builders b hb

lemma linked_compileTemplates {rs : List Template}
    (ih : ∀ r ∈ rs, ∀ s : Compilation, s.Linked h → (compileTemplate r s).2.Linked h)
    (hs : s.Linked h) : (compileTemplates rs s).2.Linked h := by
  induction rs generalizing s with
  | nil => exact hs
  | cons r rs ihr =>
    rw [compileTemplates]
    exact ihr (fun t ht => ih t (List.mem_cons_of_mem _ ht)) (ih r List.mem_cons_self s hs)

lemma linked_compileTemplate {r : Template}
    (hn : ∀ name ∈ r.typeNames, h.contains name = true ∧ h.isAbstract name = false)
    (s : Compilation) (hs : s.Linked h) : (compileTemplate r s).2.Linked h := by
  induction r using Template.ind generalizing s with
  | subtree span type data children ih =>
    rw [Template.typeNames, Template.listTypeNames_eq_flatMap, List.forall_mem_cons] at hn
    obtain ⟨⟨hc,ha⟩,hn⟩ := hn
    have hbelow := linked_compileTemplates (fun r hr => ih r hr fun name hname =>
      hn name (List.mem_flatMap.mpr ⟨r,hr,hname⟩)) hs
    rw [compileTemplate]
    exact (hbelow.intern type).insertBuilder (SymbolTable.name?_intern _ type) hc ha _ _ _
  | hole | null => exact hs

/-! Rules and programs. -/

lemma linked_compileCheckers {items : List Item}
    (hn : ∀ i ∈ items, ∀ name ∈ i.typeNames, h.contains name = true) (names : List String)
    (hs : s.Linked h) : (compileCheckers items names s).2.Linked h := by
  induction items generalizing names s with
  | nil => exact hs
  | cons i items ih =>
    cases names with
    | nil => exact hs
    | cons name names =>
      rw [compileCheckers]
      exact ih (fun j hj => hn j (List.mem_cons_of_mem _ hj)) names
        (linksItem i (hn i List.mem_cons_self) s hs)

lemma linked_compileRule {r : Rule} (hr : r.Known h) (hc : s.compileRule r = .ok t)
    (hs : s.Linked h) : t.Linked h := by
  obtain ⟨strategy,mid,hstrategy,c,rfl⟩ := compileRule_cases hc
  obtain ⟨-,-,rfl⟩ := compileStrategy_cases hstrategy
  have hright := linked_compileTemplate hr.result _
    (linked_compileCheckers hr.pattern Strategy.ordinals hs)
  exact ⟨hright.hierarchy,hright.tables.tests,hright.tables.builders⟩

lemma linked_compileRules {rules : List Rule} (hr : ∀ r ∈ rules, r.Known h)
    (hc : s.compileRules rules = .ok t) (hs : s.Linked h) : t.Linked h := by
  induction rules generalizing s with
  | nil =>
    cases hc
    exact hs
  | cons r rules ih =>
    rw [compileRules] at hc
    cases hfirst : s.compileRule r with
    | error e =>
      rw [hfirst] at hc
      cases hc
    | ok mid =>
      rw [hfirst] at hc
      exact ih (fun q hq => hr q (List.mem_cons_of_mem _ hq)) hc
        (linked_compileRule (hr r List.mem_cons_self) hfirst hs)

end Compilation

namespace RuleFile

variable {f : RuleFile} {h : Hierarchy} {config : Config}

lemma mem_rules_of_mem_rulesOf {language : String} {r : Rule} (hr : r ∈ f.rulesOf language) :
    r ∈ f.rules := by
  obtain ⟨b,hb,hr⟩ := List.mem_flatMap.mp hr
  exact List.mem_flatMap.mpr ⟨b,List.mem_of_mem_filter hb,hr⟩

/-- If the types of all rules are known, the tables of every language are linked. -/
lemma linked_of_known (hf : ∀ r ∈ f.rules, r.Known h) {p : Program}
    (hp : f.compile (some h) config = .ok p) {l : Language} (hl : l ∈ p.languages) :
    l.Linked h p.symbols := by
  obtain ⟨place,hlt,rfl⟩ := List.mem_iff_getElem.mp hl
  obtain ⟨s,⟨before,hc⟩,hfinish,hu⟩ := (compile_sessions hp).get
    (by rwa [(compile_sessions hp).length_eq]) hlt
  have hs := Compilation.linked_compileRules (fun r hr => hf r (mem_rules_of_mem_rulesOf hr)) hc
    (Compilation.linked_start _ h config before)
  rw [List.get_eq_getElem] at hfinish
  exact hfinish ▸ hs.tables.mono hu

end RuleFile

/-- A program that was compiled from checked rules builds nodes of types that are declared and not
abstract, and nothing else; it tests for types that are declared, and such a test accepts the types
that count as the tested one, in the order of their declaration, and no others. -/
theorem RuleSet.linked_of_compile {r : RuleSet} {h : Hierarchy} (hh : r.hierarchy = some h)
    {p : Program} (hp : r.compile = .ok p) : ∀ l ∈ p.languages, l.Linked h p.symbols := by
  intro l hl
  unfold compile at hp
  split_ifs at hp with hsyntax hrules
  have hnone : r.file.check (some h) = [] := by
    rw [← hh]
    simpa [ruleDiagnostics] using hrules
  rw [compileUnchecked, hh] at hp
  exact RuleFile.linked_of_known (fun q hq => RuleFile.known_of_check hnone hq) hp hl

namespace Arithmetic

/-- Expressions: sums and numbers. -/
def types : Hierarchy :=
  ⟨[⟨"Expr",none,.abstract⟩,⟨"Sum",some "Expr",.ordinary⟩,⟨"Num",some "Expr",.literal⟩]⟩

/-- The rule `Sum(Num#1, Expr#2...) -> Sum(#1, Num("0"));`, its conditions on children in a
procedure. -/
def rules : RuleSet :=
  .ofFile ⟨[⟨"default",.none,[⟨[.fixed (.plain .none) "Sum" none
      [.typedHole (.plain .none) "Num" ⟨1⟩ false,.typedHole (.plain .none) "Expr" ⟨2⟩ true]],
    .subtree .none "Sum" none [.hole .none ⟨1⟩,.subtree .none "Num" (some (.literal "0")) []],
    .none⟩]⟩]⟩ (some types) { Config.default with inlineLimit := 0 }

def program : Program := rules.compile.toOption.getD ⟨.empty,[]⟩

end Arithmetic

open Arithmetic in
/-- The test of the remaining children is in the procedure, and lists the abstract type with the
types below it. -/
theorem linked_arithmetic :
    (∀ l ∈ program.languages, l.Linked types program.symbols) ∧
      program.languages.flatMap (·.matchers.flatMap (·.procedure.flatMap
        Matcher.ChildCondition.tests)) = [⟨2,[2,0,1]⟩] ∧
      program.languages.flatMap (·.builders.map Builder.type) = [0,1] :=
  ⟨RuleSet.linked_of_compile (r := rules) rfl rfl,by decide,by decide⟩

end TreeRules
