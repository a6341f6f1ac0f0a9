import TreeRules.Engine
import TreeRules.Proofs.Check.Shape
import TreeRules.Proofs.Compile.Parts

/-! Items are compiled to what they mean, in every session that gave their texts to no other items.
Where all types are named by identifiers, every session is one. -/
namespace TreeRules
namespace Compilation

variable {h : Option Hierarchy} {asked : List Item} {s t : Compilation} {i : Item}

/-- Every item whose text is no other item's is compiled to what it means. -/
theorem compiles (hi : i.ApartFrom asked) : Compiles h asked i := by
  induction i using Item.ind with
  | fixed t type data children ih =>
    have hin : ∀ c ∈ children, c.isTested = true →
        c ∈ (Item.fixed t type data children).testedInner :=
      fun c hc htest => List.mem_filter.mpr ⟨hc,htest⟩
    have ih : ∀ c ∈ children, c.isTested = true → Compiles h asked c :=
      fun c hc htest => ih c hc (hi.inner (hin c hc htest))
    intro s hs
    rw [compileItem]
    exact share_compiles hs hi ⟨(hs.typeTest type).compileChildren ih 0,
      fun ht => partsMean_fixed ih (fun c hc htest => ht.inner (hin c hc htest)) hs⟩
  | typedHole t type hole ellipsis =>
    intro s hs
    rw [compileItem]
    exact share_compiles hs hi ⟨hs.typeTest type,fun _ => partsMean_typedHole hs⟩
  | untypedHole t hole ellipsis =>
    intro s hs
    rw [compileItem]
    exact share_compiles hs hi ⟨hs,fun _ => partsMean_untypedHole s⟩
  | symbolRange t first last hole =>
    intro s hs
    rw [compileItem]
    exact share_compiles hs hi ⟨hs,fun _ => partsMean_symbolRange s⟩
  | anyOf t items ih =>
    intro s hs
    rw [compileItem]
    have hall := compileItems_compiles (fun c hc => ih c hc (hi.inner hc)) hs
    exact share_compiles hs hi ⟨hall.1,fun ht => partsMean_anyOf (hall.2 fun c hc => ht.inner hc)⟩
  | allOf t items ih =>
    intro s hs
    rw [compileItem]
    have hall := compileItems_compiles (fun c hc => ih c hc (hi.inner hc)) hs
    exact share_compiles hs hi ⟨hall.1,fun ht => partsMean_allOf (hall.2 fun c hc => ht.inner hc)⟩
  | rest t =>
    intro s hs
    rw [compileItem]
    exact share_compiles hs hi ⟨hs,fun _ => partsMean_rest s⟩

/-- Identifiers as type names make the texts tell items apart. -/
lemma apartFrom_of_hasIdentifiers (ha : ∀ j ∈ asked, j.HasIdentifiers) (hi : i.HasIdentifiers) :
    i.ApartFrom asked := by
  intro j hj k hk hbody
  obtain ⟨top,htop,hk⟩ := List.mem_flatMap.mp hk
  exact Item.core_eq_of_body_eq ((ha top htop).testedPart hk) (hi.testedPart hj) hbody

/-! Whole sessions. -/

lemma sound_start (hp : ∀ k ∈ h, k.ParentsDeclared) (language : String) (config : Config)
    (symbols : SymbolTable) : (start language h config symbols).Sound h asked :=
  ⟨rfl,hp,trivial,fun m hm => by cases hm⟩

/-- A checker for each item, in order: the item's mode, and a matcher that does what the item
means. -/
def CheckerMeans (h : Option Hierarchy) (s : Compilation) (c : Checker) (i : Item) : Prop :=
  c.mode = i.mode ∧ s.Means h c.matcher i

lemma compileCheckers_compiles {items : List Item} (hi : ∀ i ∈ items, i.ApartFrom asked)
    {names : List String} (hn : items.length ≤ names.length) (hs : s.Sound h asked) :
    (compileCheckers items names s).2.Sound h asked ∧
      ((∀ i ∈ items, i.TestedIn asked) →
        List.Forall₂ (CheckerMeans h (compileCheckers items names s).2)
          (compileCheckers items names s).1 items) := by
  induction items generalizing names s with
  | nil => exact ⟨hs,fun _ => .nil⟩
  | cons i items ih =>
    cases names with
    | nil => simp at hn
    | cons name names =>
      have hfirst := compiles (hi i List.mem_cons_self) s hs
      have hrest := ih (fun j hj => hi j (List.mem_cons_of_mem _ hj)) (by simpa using hn) hfirst.1
      rw [compileCheckers]
      refine ⟨hrest.1,fun ht => ?_⟩
      obtain ⟨hi,hitems⟩ := List.forall_mem_cons.mp ht
      exact .cons ⟨rfl,(hfirst.2 hi).mono (growsTo_compileCheckers items names _)⟩
        (hrest.2 hitems)

lemma Sound.compileStrategy (hs : s.Sound h asked) {r : Rule}
    (hr : ∀ i ∈ r.pattern, i.ApartFrom asked) {strategy : Strategy}
    (hc : s.compileStrategy r = .ok (strategy,t)) : t.Sound h asked := by
  obtain ⟨hl,-,rfl⟩ := compileStrategy_cases hc
  exact (compileCheckers_compiles hr hl hs).1

/-- The checkers of a left side whose parts have texts of their own. -/
lemma compileStrategy_compiles {r : Rule} (hr : ∀ i ∈ r.pattern, i.ApartFrom r.pattern)
    {strategy : Strategy} (hc : s.compileStrategy r = .ok (strategy,t))
    (hs : s.Sound h r.pattern) :
    ∃ cs, strategy = .select cs ∧ List.Forall₂ (CheckerMeans h t) cs r.pattern := by
  obtain ⟨hl,rfl,rfl⟩ := compileStrategy_cases hc
  exact ⟨_,rfl,(compileCheckers_compiles hr hl hs).2 fun i hi => Item.testedIn_of_mem hi⟩

section Sessions

variable {P : Item → Prop} (hP : ∀ i, P i → i.ApartFrom asked)
include hP

lemma Step.sound (ht : Step P s t) (hs : s.Sound h asked) : t.Sound h asked := by
  have hresult : ∀ (r : Template) {s : Compilation}, s.Sound h asked →
      (s.compileResult r).2.Sound h asked :=
    fun r s hs => hs.of_matchers_eq (compileResult_adds r s).1 (compileResult_adds r s).2
  cases ht with
  | item hi => exact (compiles (hP _ hi) s hs).1
  | result r => exact hresult r hs
  | strategy hr hc => exact hs.compileStrategy (fun i hi => hP i (hr i hi)) hc
  | rule hr hc =>
    obtain ⟨strategy,s',hst,c,rfl⟩ := compileRule_cases hc
    exact (hresult _ (hs.compileStrategy (fun i hi => hP i (hr i hi)) hst)).of_matchers_eq
      (growsTo_insertRule _ c) rfl

/-- Whatever is compiled, matchers do what is asked of them. -/
theorem Reaches.sound {language : String} {config : Config} {symbols : SymbolTable}
    (hs : (start language h config symbols).Reaches P s) (hh : ∀ k ∈ h, k.Reachable) :
    s.Sound h asked := by
  induction hs with
  | refl => exact sound_start (fun k hk => (hh k hk).parentsDeclared) language config symbols
  | tail _ ht ih => exact ht.sound hP ih

end Sessions

/-- What a matcher accepts that is compiled in a session over identifiers, at any later time. -/
lemma accepts_of_orderly (hh : ∀ k ∈ h, k.Reachable) {language : String} {config : Config}
    {symbols : SymbolTable}
    (hs : (start language h config symbols).Reaches Item.HasIdentifiers s) (ho : i.Orderly)
    (hid : i.HasIdentifiers) {later : Compilation}
    (hl : (compileItem i s).2.Reaches (fun _ => True) later) {u : SymbolTable}
    (hu : later.symbols.names <+: u.names) (node : Tree) :
    Engine.accepts ⟨u,later.finish⟩ (compileItem i s).1 node = i.plainDots.sat h node := by
  have hapart : ∀ j : Item, j.HasIdentifiers → j.ApartFrom [i] :=
    fun j hj => apartFrom_of_hasIdentifiers (by simpa using hid) hj
  obtain ⟨hs',hm⟩ := compiles (hapart i hid) s (hs.sound hapart hh)
  exact (hm (Item.testedIn_of_mem List.mem_cons_self)).accepts ho
    (hl.growsTo.seenByLater hs'.numbered hu) node

/-- The matcher of an item accepts the nodes that the item describes: in whatever session it is
compiled, and whatever is compiled after it. -/
theorem accepts_compileItem (hh : ∀ k ∈ h, k.Reachable) {language : String} {config : Config}
    {symbols : SymbolTable}
    (hs : (start language h config symbols).Reaches Item.HasIdentifiers s) {r : Rule}
    (hr : r.shapeDiagnostics = []) (hi : i ∈ Item.listParts r.pattern)
    (hid : i.HasIdentifiers) (hd : i.DotsNotNegated) {later : Compilation}
    (hl : (compileItem i s).2.Reaches (fun _ => True) later) {u : SymbolTable}
    (hu : later.symbols.names <+: u.names) (node : Tree) :
    Engine.accepts ⟨u,later.finish⟩ (compileItem i s).1 node = i.sat h node := by
  have ha := accepts_of_orderly hh hs (Rule.orderly_of_shapeDiagnostics hr hi) hid hl hu node
  rwa [Item.plainDots_eq_self hd] at ha

namespace Sample

def types : Hierarchy := ⟨[⟨"B",none,.abstract⟩,⟨"C",some "B",.ordinary⟩]⟩

/-- The item `A<"x">(B#1, B#2...)`. -/
def item : Item :=
  .fixed (.plain .none) "A" (some (.literal "x"))
    [.typedHole (.plain .none) "B" ⟨1⟩ false,.typedHole (.plain .none) "B" ⟨2⟩ true]

def rule : Rule := ⟨[item],.hole .none ⟨1⟩,.none⟩

def node : Tree := .node "A" (some "x") [.node "C" none [] none,.node "C" none [] none] none

lemma hasIdentifiers_item : item.HasIdentifiers := by
  simp [Item.HasIdentifiers, item, Item.parts, Item.listParts, Item.type?, Item.IsIdentifier,
    Lexer.isIdStart]

/-- A session in which the item was compiled once already. -/
def session : Compilation := (compileItem item (start "default" (some types) .default .empty)).2

end Sample

open Sample in
theorem accepts_compileItem_again :
    Engine.accepts ⟨(compileItem item session).2.symbols,(compileItem item session).2.finish⟩
      (compileItem item session).1 node = true := by
  have hh : ∀ k ∈ some types, k.Reachable := by
    rintro k ⟨⟩
    exact @Hierarchy.Reachable.load types.declarations _ rfl
  have hs : (start "default" (some types) .default .empty).Reaches Item.HasIdentifiers session :=
    .single (.item hasIdentifiers_item _)
  have hi : item ∈ Item.listParts rule.pattern := by
    simp [rule, Item.listParts, Item.self_mem_parts]
  have hd : item.DotsNotNegated := by
    unfold Item.DotsNotNegated
    decide
  rw [accepts_compileItem hh hs (r := rule) rfl hi hasIdentifiers_item hd .refl
    (List.prefix_refl _) node]
  decide

end Compilation
end TreeRules
