import TreeRules.Engine
import TreeRules.Program.Listing
import TreeRules.Proofs.Builder.Indexed

/-! Listing a language by number: every symbol is looked up in the symbol table, where it may not be
found. For a closed language every run by numbers comes to an end: its matchers, its builders and
its listing. -/
namespace TreeRules
namespace Indexed

open Matcher (TypeTest ChildCondition Condition)

def typeTest (symbols : SymbolTable) (test : TypeTest) : Except Fault String := do
  let name ← entry symbols.names test.name
  if test.accepts = [test.name] then return name
  let accepts ← test.accepts.mapM (entry symbols.names)
  return name ++ ": " ++ " | ".intercalate accepts

def childCondition (symbols : SymbolTable) : ChildCondition → Except Fault String
  | .child index m => .ok (Listing.childCondition symbols (.child index m))
  | .remaining start types => do
    let test ← typeTest symbols types
    return "children[" ++ toString start ++ "..] is-a " ++ test

def condition (symbols : SymbolTable) : Condition → Except Fault String
  | .type test => do
    let text ← typeTest symbols test
    return "is-a " ++ text
  | .children c => childCondition symbols c
  -- the others have no symbols
  | c => .ok (Listing.condition symbols c)

/-- The lines of a matcher. -/
def matcher (symbols : SymbolTable) (m : Matcher) : Except Fault (List String) := do
  let conditions ← m.conditions.mapM (condition symbols)
  let procedure ← m.procedure.mapM (childCondition symbols)
  return ["  " ++ Listing.matcherRef m.id ++ " " ++ m.name ++ " `" ++ m.key ++ "`" ++
      if m.negated then " negated" else ""] ++
    conditions.map ("    " ++ ·) ++ procedure.map ("      " ++ ·) ++
    m.extractions.map (fun e => "    " ++ Listing.extraction e)

/-- The lines of a builder. -/
def builder (symbols : SymbolTable) (b : Builder) : Except Fault (List String) := do
  let type ← entry symbols.names b.type
  return ["  " ++ Listing.builderRef b.id ++ " " ++ type ++
      if b.needsCaptures then " (captures)" else ""] ++
    b.data.toList.map (fun d => "    data <- " ++ Listing.datum d) ++
    if b.children.isEmpty then []
    else ["    children <- " ++ ", ".intercalate (b.children.map Listing.source)]

/-- The listing of a language. -/
def languageText (symbols : SymbolTable) (l : Language) : Except Fault String := do
  let matchers ← l.matcherList.mapM (matcher symbols)
  let builders ← l.builderList.mapM (builder symbols)
  return Listing.unlines (["language " ++ l.name, "matchers:"] ++ matchers.flatten ++
    (if l.builders.isEmpty then [] else "builders:" :: builders.flatten) ++
    ["rules:"] ++ l.rules.flatMap Listing.rule)

/-- The listing of a program. -/
def programText (p : Program) : Except Fault String := do
  let languages ← p.languages.mapM (languageText p.symbols)
  return "\n".intercalate languages

lemma mapM_eq_ok {α β : Type} {f : α → Except Fault β} {g : α → β} {xs : List α}
    (h : ∀ x ∈ xs, f x = .ok (g x)) : xs.mapM f = .ok (xs.map g) := by
  induction xs with
  | nil => rfl
  | cons x xs ih =>
    rw [List.mapM_cons, h x List.mem_cons_self, ih fun y hy => h y (List.mem_cons_of_mem _ hy)]
    rfl

section Symbols

variable {symbols : SymbolTable}

lemma entry_symbol {x : Symbol} (h : x < symbols.size) :
    entry symbols.names x = .ok (Listing.symbol symbols x) := by
  have hx : symbols.names[x]? = some (symbols.names.get ⟨x,h⟩) := List.getElem?_eq_getElem h
  rw [entry_eq hx, Listing.symbol, SymbolTable.name?, hx]
  rfl

lemma typeTest_eq_ok {test : TypeTest} (h : ∀ x ∈ test.symbols, x < symbols.size) :
    typeTest symbols test = .ok (Listing.typeTest symbols test) := by
  have haccepts : test.accepts.mapM (entry symbols.names) =
      .ok (test.accepts.map (Listing.symbol symbols)) :=
    mapM_eq_ok fun x hx => entry_symbol (h x (List.mem_cons_of_mem _ hx))
  rw [typeTest, Listing.typeTest, entry_symbol (h _ List.mem_cons_self), haccepts]
  change (if _ then Except.ok _ else Except.ok _) = _
  split_ifs <;> rfl

lemma childCondition_eq_ok {c : ChildCondition} (h : ∀ x ∈ c.symbols, x < symbols.size) :
    childCondition symbols c = .ok (Listing.childCondition symbols c) := by
  cases c with
  | child index m => rfl
  | remaining start types =>
    rw [childCondition, typeTest_eq_ok h]
    rfl

lemma condition_eq_ok {c : Condition} (h : ∀ x ∈ c.symbols, x < symbols.size) :
    condition symbols c = .ok (Listing.condition symbols c) := by
  cases c with
  | type test =>
    rw [condition, typeTest_eq_ok h]
    rfl
  | children c => exact childCondition_eq_ok h
  | _ => rfl

lemma matcher_eq_ok {m : Matcher} (h : ∀ x ∈ m.symbols, x < symbols.size) :
    matcher symbols m = .ok (Listing.matcher symbols m) := by
  have hconditions : m.conditions.mapM (condition symbols) =
      .ok (m.conditions.map (Listing.condition symbols)) := by
    refine mapM_eq_ok fun c hc => condition_eq_ok fun x hx => h x ?_
    exact List.mem_append_left _ (List.mem_flatMap.mpr ⟨c,hc,hx⟩)
  have hprocedure : m.procedure.mapM (childCondition symbols) =
      .ok (m.procedure.map (Listing.childCondition symbols)) := by
    refine mapM_eq_ok fun c hc => childCondition_eq_ok fun x hx => h x ?_
    exact List.mem_append_right _ (List.mem_flatMap.mpr ⟨c,hc,hx⟩)
  rw [matcher, hconditions, hprocedure, Listing.matcher]
  change Except.ok _ = _
  rw [List.map_map, List.map_map]
  rfl

lemma builder_eq_ok {b : Builder} (h : b.type < symbols.size) :
    builder symbols b = .ok (Listing.builder symbols b) := by
  rw [builder, entry_symbol h]
  rfl

end Symbols

lemma languageText_eq_ok {u : SymbolTable} {l : Language} (hc : l.Closed u) :
    languageText u l = .ok (Listing.languageText u l) := by
  rw [languageText, mapM_eq_ok fun m hm => matcher_eq_ok (hc.matcherSymbols m hm),
    mapM_eq_ok fun b hb => builder_eq_ok (hc.builderSymbols b hb)]
  rfl

theorem programText_eq_ok {p : Program} (hc : ∀ l ∈ p.languages, l.Closed p.symbols) :
    programText p = .ok (Listing.programText p) := by
  rw [programText, mapM_eq_ok fun l hl => languageText_eq_ok (hc l hl)]
  rfl

end Indexed

/-- Every run by numbers comes to an end, and gives what the language gives. The depth of the calls
is bounded by the sizes of the tables alone. -/
structure Language.Runs (u : SymbolTable) (l : Language) : Prop where
  accepts : ∀ id < l.matcherList.length, ∀ node,
    Indexed.accepts u l.matcherList l.matcherList.length id node =
      .ok ((⟨u,l⟩ : Engine).accepts id node)
  extract : ∀ id < l.matcherList.length, ∀ accumulate node c,
    Indexed.extract u accumulate l.matcherList l.matcherList.length id node c =
      .ok ((⟨u,l⟩ : Engine).extract accumulate id node c)
  build : ∀ r ∈ l.rules, ∀ factory m,
    Indexed.replacement u l.builderList factory m.captures m.fragment l.builderList.length
      r.result = .ok ((⟨u,l⟩ : Engine).build factory r m)
  listing : Indexed.programText ⟨u,[l]⟩ = .ok (Listing.programText ⟨u,[l]⟩)

theorem Language.Closed.runs {u : SymbolTable} {l : Language} (hc : l.Closed u) : l.Runs u := by
  have hmatchers : l.matcherList.length = l.matchers.length := List.length_reverse
  have hbuilders : l.builderList.length = l.builders.length := List.length_reverse
  refine ⟨fun id hid node => ?_,fun id hid accumulate node c => ?_,fun r hr factory m => ?_,?_⟩
  · exact Indexed.accepts_eq_ok hc (hmatchers ▸ hid) hid node
  · exact Indexed.extract_eq_ok hc (hmatchers ▸ hid) hid accumulate node c
  · exact Indexed.replacement_eq_ok hc (fun id hid => hbuilders ▸ hc.results r hr id hid)
      (Nat.le_of_eq hbuilders.symm) factory m.captures m.fragment
  · refine Indexed.programText_eq_ok fun o ho => ?_
    rw [List.mem_singleton.mp ho]
    exact hc

end TreeRules
