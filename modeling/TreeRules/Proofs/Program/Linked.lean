import TreeRules.Proofs.Compile.Template

/-! Linked tables: a test is for a declared type and accepts the types that count as it, and what is
built is declared and not abstract. -/
namespace TreeRules

namespace Matcher

def ChildCondition.tests : ChildCondition → List TypeTest
  | child _ _ => []
  | remaining _ types => [types]

def Condition.tests : Condition → List TypeTest
  | type test => [test]
  | children c => c.tests
  | _ => []

@[simp] lemma Condition.tests_type (test : TypeTest) : (Condition.type test).tests = [test] := rfl

@[simp] lemma Condition.tests_children (c : ChildCondition) :
    (Condition.children c).tests = c.tests := rfl

@[simp] lemma Condition.tests_procedure : Condition.procedure.tests = [] := rfl

/-- The type tests of a matcher, inline and in its procedure. -/
def tests (m : Matcher) : List TypeTest :=
  m.conditions.flatMap Condition.tests ++ m.procedure.flatMap ChildCondition.tests

/-- The test names a declared type, and its list is the types that count as it, in the order of
their declaration. -/
def TypeTest.Linked (h : Hierarchy) (u : SymbolTable) (t : TypeTest) : Prop :=
  ∃ name, u.name? t.name = some name ∧ h.contains name = true ∧
    t.accepts.map u.name? = (h.descendants name).map some

end Matcher

/-- The builder makes nodes of a declared type that is not abstract. -/
def Builder.Linked (h : Hierarchy) (u : SymbolTable) (b : Builder) : Prop :=
  ∃ name, u.name? b.type = some name ∧ h.contains name = true ∧ h.isAbstract name = false

/-- All tests and builders of a language are linked. -/
structure Language.Linked (h : Hierarchy) (u : SymbolTable) (l : Language) : Prop where
  tests : ∀ m ∈ l.matchers, ∀ t ∈ m.tests, t.Linked h u
  builders : ∀ b ∈ l.builders, b.Linked h u

/-! Symbols keep their names while the table grows. -/

variable {h : Hierarchy} {u v : SymbolTable}

lemma Matcher.TypeTest.Linked.mono {t : TypeTest} (ht : t.Linked h u) (hv : u.names <+: v.names) :
    t.Linked h v := by
  obtain ⟨name,hname,hc,haccepts⟩ := ht
  refine ⟨name,SymbolTable.name?_of_isPrefix hv hname,hc,?_⟩
  rw [← haccepts]
  refine List.map_congr_left fun x hx => ?_
  obtain ⟨sub,-,hsub⟩ : ∃ sub ∈ h.descendants name, some sub = u.name? x :=
    List.mem_map.mp (haccepts ▸ List.mem_map_of_mem hx)
  rw [← hsub, SymbolTable.name?_of_isPrefix hv hsub.symm]

lemma Builder.Linked.mono {b : Builder} (hb : b.Linked h u) (hv : u.names <+: v.names) :
    b.Linked h v := by
  obtain ⟨name,hname,hknown⟩ := hb
  exact ⟨name,SymbolTable.name?_of_isPrefix hv hname,hknown⟩

lemma Language.Linked.mono {l : Language} (hl : l.Linked h u) (hv : u.names <+: v.names) :
    l.Linked h v :=
  ⟨fun m hm t ht => (hl.tests m hm t ht).mono hv,fun b hb => (hl.builders b hb).mono hv⟩

end TreeRules
