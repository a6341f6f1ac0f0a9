import TreeRules.Proofs.Compile.Closed
import TreeRules.Proofs.Program.Alike

/-! Sessions in step. Two sessions that compile the same rules make tables that are alike, whatever
symbols were there when they began, and wherever their limits put the conditions on children. -/
namespace TreeRules
namespace Compilation

open Matcher (Id Parts Condition ChildCondition Extraction TypeTest)
open SymbolTable (SameName)

/-- Sessions for one language whose tables are alike. With `sameLimit` conditions also stand in the
same places, with `sameTable` symbols also have the same numbers. -/
structure Alike (name : String) (sameLimit sameTable : Prop) (s t : Compilation) : Prop where
  language : s.language = name ∧ t.language = name
  hierarchy : s.hierarchy = t.hierarchy
  limit : sameLimit → s.inlineLimit = t.inlineLimit
  table : sameTable → s.symbols = t.symbols
  matchers : List.Forall₂ (Matcher.Alike sameLimit (SameName s.symbols t.symbols)) s.matchers
    t.matchers
  builders : List.Forall₂ (Builder.Alike (SameName s.symbols t.symbols)) s.builders t.builders
  rules : s.rules = t.rules
  names : s.names = t.names

variable {name : String} {sameLimit sameTable : Prop} {s t : Compilation}

lemma alike_start (h : Option Hierarchy) {config config' : Config}
    (hlimit : sameLimit → config.inlineLimit = config'.inlineLimit) {u v : SymbolTable}
    (htable : sameTable → u = v) :
    Alike name sameLimit sameTable (start name h config u) (start name h config' v) :=
  ⟨⟨rfl,rfl⟩,rfl,hlimit,htable,.nil,.nil,rfl,rfl⟩

namespace Alike

lemma finish (h : Alike name sameLimit sameTable s t) :
    s.finish.Alike sameLimit s.symbols t.symbols t.finish :=
  ⟨h.language.1.trans h.language.2.symm,h.matchers,h.builders,h.rules⟩

/-! Symbols. -/

lemma withSymbols (h : Alike name sameLimit sameTable s t) {u v : SymbolTable}
    (hu : s.symbols.names <+: u.names) (hv : t.symbols.names <+: v.names)
    (huv : sameTable → u = v) :
    Alike name sameLimit sameTable { s with symbols := u } { t with symbols := v } := by
  have hmono : ∀ x y, SameName s.symbols t.symbols x y → SameName u v x y :=
    fun _ _ hxy => hxy.mono hu hv
  exact { h with
    table := huv
    matchers := h.matchers.imp fun _ _ hab => hab.mono hmono
    builders := h.builders.imp fun _ _ hab => hab.mono hmono }

lemma intern (h : Alike name sameLimit sameTable s t) (type : String) :
    Alike name sameLimit sameTable (s.intern type).2 (t.intern type).2 := by
  apply h.withSymbols (s.symbols.names_isPrefix_intern type) (t.symbols.names_isPrefix_intern type)
  intro ht
  rw [h.table ht]

lemma subtypes (h : Alike name sameLimit sameTable s t) (type : String) :
    s.subtypes type = t.subtypes type := by
  unfold Compilation.subtypes
  rw [h.hierarchy]

lemma typeTest (h : Alike name sameLimit sameTable s t) (type : String) :
    Alike name sameLimit sameTable (s.typeTest type).2 (t.typeTest type).2 ∧
      (s.typeTest type).1.Alike
        (SameName (s.typeTest type).2.symbols (t.typeTest type).2.symbols)
        (t.typeTest type).1 := by
  have hname := SymbolTable.sameName_intern s.symbols t.symbols type
  unfold Compilation.typeTest
  rw [h.subtypes type]
  cases t.subtypes type with
  | none => exact ⟨h.intern type,hname,.cons hname .nil⟩
  | some types =>
    have hs := SymbolTable.names_isPrefix_internAll (s.symbols.intern type).2 types
    have ht := SymbolTable.names_isPrefix_internAll (t.symbols.intern type).2 types
    refine ⟨(h.intern type).withSymbols hs ht fun heq => ?_,hname.mono hs ht,
      SymbolTable.sameName_internAll _ _ types⟩
    rw [(h.intern type).table heq]

/-! Matchers that are there. -/

lemma find? (h : Alike name sameLimit sameTable s t) {p : Matcher → Bool}
    (hp : ∀ a b : Matcher, a.id = b.id → a.key = b.key → p a = p b) :
    Option.Rel (Matcher.Alike sameLimit (SameName s.symbols t.symbols)) (s.matchers.find? p)
      (t.matchers.find? p) := by
  have hmatchers := h.matchers
  generalize s.matchers = as at hmatchers ⊢
  generalize t.matchers = bs at hmatchers ⊢
  induction hmatchers with
  | nil => exact .none
  | @cons a b as bs hab _ ih =>
    rw [List.find?_cons, List.find?_cons, hp a b hab.id hab.key]
    cases p b with
    | true => exact .some hab
    | false => exact ih

lemma lookup? (h : Alike name sameLimit sameTable s t) (key : String) :
    s.lookup? key = t.lookup? key := by
  have hfind := h.find? (p := (·.key == key)) fun a b _ hk => by rw [hk]
  unfold Compilation.lookup?
  generalize s.matchers.find? (·.key == key) = x at hfind ⊢
  generalize t.matchers.find? (·.key == key) = y at hfind ⊢
  cases hfind with
  | none => rfl
  | some hab => exact congrArg some hab.id

lemma extracts (h : Alike name sameLimit sameTable s t) : s.extracts = t.extracts := by
  funext id
  have hfind := h.find? (p := (·.id == id)) fun a b hid _ => by rw [hid]
  unfold Compilation.extracts
  generalize s.matchers.find? (·.id == id) = x at hfind ⊢
  generalize t.matchers.find? (·.id == id) = y at hfind ⊢
  cases hfind with
  | none => rfl
  | some hab => simp only [Option.any_some, Matcher.extracts, hab.extractions]

/-! Matchers that are added. -/

lemma insertMatcher (h : Alike name sameLimit sameTable s t) (key base : String)
    (negated : Bool) {p q : Parts}
    (hpq : p.Alike sameLimit (SameName s.symbols t.symbols) q) :
    (s.insertMatcher key base negated p).1 = (t.insertMatcher key base negated q).1 ∧
      Alike name sameLimit sameTable (s.insertMatcher key base negated p).2
        (t.insertMatcher key base negated q).2 := by
  have hid : s.matchers.length = t.matchers.length := h.matchers.length_eq
  refine ⟨hid,{ h with matchers := .cons ⟨hid,?_,rfl,rfl,hpq⟩ h.matchers, names := ?_ }⟩
  · change (s.names.take base).1 = (t.names.take base).1
    rw [h.names]
  · change (s.names.take base).2 = (t.names.take base).2
    rw [h.names]

lemma insertItem (h : Alike name sameLimit sameTable s t) (i : Item) {p q : Parts}
    (hpq : p.Alike sameLimit (SameName s.symbols t.symbols) q) :
    (s.insertItem i p).1 = (t.insertItem i q).1 ∧
      Alike name sameLimit sameTable (s.insertItem i p).2 (t.insertItem i q).2 := by
  apply h.insertMatcher
  split_ifs
  · exact ⟨hpq.asked,hpq.placed,hpq.asks,rfl⟩
  · exact hpq

lemma share (h : Alike name sameLimit sameTable s t) {i : Item}
    {compile : Compilation → Parts × Compilation}
    (hc : Alike name sameLimit sameTable (compile s).2 (compile t).2 ∧
      (compile s).1.Alike sameLimit (SameName (compile s).2.symbols (compile t).2.symbols)
        (compile t).1) :
    (s.share i compile).1 = (t.share i compile).1 ∧
      Alike name sameLimit sameTable (s.share i compile).2 (t.share i compile).2 := by
  unfold Compilation.share
  rw [h.lookup? i.body]
  cases t.lookup? i.body with
  | some id => exact ⟨rfl,h⟩
  | none => exact hc.1.insertItem i hc.2

end Alike

/-- The same matcher is given for the item, and the sessions stay alike. -/
def CompilesAlike (i : Item) : Prop := ∀ (name : String) (sameLimit sameTable : Prop)
  (s t : Compilation), Alike name sameLimit sameTable s t →
    (compileItem i s).1 = (compileItem i t).1 ∧
      Alike name sameLimit sameTable (compileItem i s).2 (compileItem i t).2

/-! Children and lists of items. -/

structure ChildParts.Alike (R : Symbol → Symbol → Prop) (a b : ChildParts) : Prop where
  conditions : List.Forall₂ (ChildCondition.Alike R) a.conditions b.conditions
  extractions : a.extractions = b.extractions

section Children

variable (h : Alike name sameLimit sameTable s t)
include h

lemma compileChild_alike {i : Item} (hi : CompilesAlike i) (index : Nat) :
    Alike name sameLimit sameTable (compileChild index i s).2 (compileChild index i t).2 ∧
      (compileChild index i s).1.Alike
        (SameName (compileChild index i s).2.symbols (compileChild index i t).2.symbols)
        (compileChild index i t).1 := by
  unfold compileChild
  cases i.childRole with
  | any hole | remaining hole | free => exact ⟨h,.nil,rfl⟩
  | remainingOf type hole =>
    obtain ⟨hnext,htest⟩ := h.typeTest type
    exact ⟨hnext,.cons (.remaining index htest) .nil,rfl⟩
  | captured hole =>
    obtain ⟨hid,hnext⟩ := hi _ _ _ s t h
    dsimp only
    rw [hid]
    exact ⟨hnext,.cons (.child _ _) .nil,rfl⟩
  | nested =>
    obtain ⟨hid,hnext⟩ := hi _ _ _ s t h
    dsimp only
    rw [hid, hnext.extracts]
    exact ⟨hnext,.cons (.child _ _) .nil,rfl⟩

lemma compileChildren_alike {items : List Item} (hi : ∀ i ∈ items, CompilesAlike i)
    (index : Nat) :
    Alike name sameLimit sameTable (compileChildren index items s).2
        (compileChildren index items t).2 ∧
      (compileChildren index items s).1.Alike
        (SameName (compileChildren index items s).2.symbols
          (compileChildren index items t).2.symbols)
        (compileChildren index items t).1 := by
  induction items generalizing index s t with
  | nil => exact ⟨h,.nil,rfl⟩
  | cons i items ih =>
    obtain ⟨hfirst,hparts⟩ := compileChild_alike h (hi i List.mem_cons_self) index
    obtain ⟨hrest,hothers⟩ := ih hfirst (fun j hj => hi j (List.mem_cons_of_mem _ hj)) (index + 1)
    have hgrows : ∀ r : Compilation, (compileChild index i r).2.GrowsTo
        (compileChildren (index + 1) items (compileChild index i r).2).2 :=
      fun r => growsTo_compileChildren (fun j _ => growsTo_compileItem j) _ _
    rw [compileChildren_cons, compileChildren_cons]
    refine ⟨hrest,?_,?_⟩
    · -- the first child was compiled over smaller tables
      have hmono := hparts.conditions.imp fun _ _ hab =>
        hab.mono fun _ _ hxy => hxy.mono (hgrows s).symbols (hgrows t).symbols
      exact List.rel_append hmono hothers.conditions
    · change _ ++ _ = _ ++ _
      rw [hparts.extractions, hothers.extractions]

lemma compileItems_alike {items : List Item} (hi : ∀ i ∈ items, CompilesAlike i) :
    (compileItems items s).1 = (compileItems items t).1 ∧
      Alike name sameLimit sameTable (compileItems items s).2 (compileItems items t).2 := by
  induction items generalizing s t with
  | nil => exact ⟨rfl,h⟩
  | cons i items ih =>
    obtain ⟨hid,hfirst⟩ := hi i List.mem_cons_self _ _ _ s t h
    obtain ⟨hids,hrest⟩ := ih hfirst (fun j hj => hi j (List.mem_cons_of_mem _ hj))
    rw [compileItems, compileItems]
    exact ⟨congrArg₂ List.cons hid hids,hrest⟩

end Children

/-! The parts of the kinds of items. -/

section Parts

variable {R : Symbol → Symbol → Prop}

/-- Parts without procedure whose conditions look at no symbol. -/
lemma parts_alike_refl {conditions : List Condition} (hc : ∀ c ∈ conditions, c.symbols = [])
    (extractions : List Extraction) :
    Parts.Alike sameLimit R ⟨conditions,[],extractions⟩ ⟨conditions,[],extractions⟩ := by
  have hsame : List.Forall₂ (Condition.Alike R) conditions conditions :=
    List.forall₂_same.mpr fun c hm => .same (hc c hm)
  refine ⟨List.forall₂_same.mpr fun d hd => ?_,fun _ => ⟨hsame,.nil⟩,rfl,rfl⟩
  obtain ⟨c,hm,hd⟩ := List.mem_flatMap.mp hd
  cases c with
  | procedure => cases hd
  | _ =>
    rw [List.mem_singleton.mp hd]
    exact .same (hc _ hm)

/-- Wherever the conditions on children stand, all are asked. -/
lemma asked_fixedParts (limit : Nat) (test : TypeTest) (data : Option Datum)
    (children : List Item) (below : ChildParts) :
    (fixedParts limit test data children below).asked =
      [.type test,countCondition children] ++ dataConditions data ++
        below.conditions.map .children := by
  have hown : ∀ proc, ([.type test,countCondition children] ++ dataConditions data).flatMap
      (Condition.spread proc) = [.type test,countCondition children] ++ dataConditions data := by
    intro proc
    unfold countCondition
    rcases data with _ | _ | _ <;> split <;> rfl
  have hbelow : (below.conditions.map Condition.children).flatMap (Condition.spread []) =
      below.conditions.map Condition.children := by
    rw [List.flatMap_map, List.map_eq_flatMap]
    rfl
  unfold fixedParts
  dsimp only
  split_ifs
  · rw [Parts.asked, List.flatMap_append, hown]
    simp [Condition.spread]
  · rw [Parts.asked, List.flatMap_append, hown, hbelow]

/-- Wherever the conditions on children stand, they refer to the same matchers. -/
lemma asks_fixedParts (limit : Nat) (test : TypeTest) (data : Option Datum)
    (children : List Item) (below : ChildParts) :
    (fixedParts limit test data children below).asks =
      below.conditions.flatMap ChildCondition.matchers := by
  obtain ⟨hown,-⟩ := ownConditions test data children
  have hbelow : (below.conditions.map Condition.children).flatMap Condition.matchers =
      below.conditions.flatMap ChildCondition.matchers := List.flatMap_map _ _ _
  unfold fixedParts
  dsimp only
  split_ifs
  · rw [Parts.asks, List.flatMap_append, hown]
    rfl
  · rw [Parts.asks, List.flatMap_append, hown, hbelow]
    simp

lemma symbols_ownConditions (data : Option Datum) (children : List Item) :
    ∀ c ∈ countCondition children :: dataConditions data, c.symbols = [] := by
  unfold countCondition
  rcases data with _ | _ | _ <;> split <;> simp [dataConditions, Condition.symbols]

lemma fixedParts_alike {limit limit' : Nat} (hlimit : sameLimit → limit = limit')
    {test test' : TypeTest} (htest : test.Alike R test') (data : Option Datum)
    (children : List Item) {below below' : ChildParts} (hbelow : below.Alike R below') :
    Parts.Alike sameLimit R (fixedParts limit test data children below)
      (fixedParts limit' test' data children below') := by
  have hown : List.Forall₂ (Condition.Alike R)
      ([.type test,countCondition children] ++ dataConditions data)
      ([.type test',countCondition children] ++ dataConditions data) :=
    .cons (.type htest) (List.forall₂_same.mpr fun c hc =>
      .same (symbols_ownConditions data children c hc))
  have hinline : List.Forall₂ (Condition.Alike R) (below.conditions.map .children)
      (below'.conditions.map .children) := by
    rw [List.forall₂_map_left_iff, List.forall₂_map_right_iff]
    exact hbelow.conditions.imp fun _ _ hab => .children hab
  have hasks : below.conditions.flatMap ChildCondition.matchers =
      below'.conditions.flatMap ChildCondition.matchers := by
    rw [List.flatMap_def, List.flatMap_def, map_eq_of_forall₂ hbelow.conditions]
    rintro a b (_ | _) <;> rfl
  refine ⟨?_,fun hl => ?_,?_,?_⟩
  · rw [asked_fixedParts, asked_fixedParts]
    exact List.rel_append hown hinline
  · cases hlimit hl
    unfold fixedParts
    dsimp only
    rw [hbelow.conditions.length_eq]
    split_ifs
    · exact ⟨List.rel_append hown (.cons (.same rfl) .nil),hbelow.conditions⟩
    · exact ⟨List.rel_append hown hinline,.nil⟩
  · rw [asks_fixedParts, asks_fixedParts, hasks]
  · unfold fixedParts
    dsimp only
    rw [hbelow.extractions]
    split_ifs <;> rfl

end Parts

/-- Compiling an item keeps sessions alike. -/
theorem compilesAlike (i : Item) : CompilesAlike i := by
  induction i using Item.ind with
  | fixed tag type data children ih =>
    intro name sameLimit sameTable s t h
    obtain ⟨htest,htests⟩ := h.typeTest type
    obtain ⟨hbelow,hparts⟩ := compileChildren_alike htest ih 0
    have hgrows : ∀ r : Compilation, r.GrowsTo (compileChildren 0 children r).2 :=
      growsTo_compileChildren (fun j _ => growsTo_compileItem j) 0
    rw [compileItem, compileItem]
    refine h.share ⟨hbelow,fixedParts_alike h.limit (htests.mono fun _ _ hxy => ?_) data children
      hparts⟩
    exact hxy.mono (hgrows _).symbols (hgrows _).symbols
  | typedHole tag type hole ellipsis =>
    intro name sameLimit sameTable s t h
    obtain ⟨htest,htests⟩ := h.typeTest type
    rw [compileItem, compileItem]
    have hone := List.Forall₂.cons (Condition.Alike.type htests) .nil
    exact h.share ⟨htest,hone,fun _ => ⟨hone,.nil⟩,rfl,rfl⟩
  | anyOf tag items ih =>
    intro name sameLimit sameTable s t h
    obtain ⟨hids,hall⟩ := compileItems_alike h ih
    rw [compileItem, compileItem]
    refine h.share ⟨hall,?_⟩
    dsimp only
    unfold anyOfParts extracting
    rw [hids, hall.extracts]
    exact parts_alike_refl (by simp [Condition.symbols]) _
  | allOf tag items ih =>
    intro name sameLimit sameTable s t h
    obtain ⟨hids,hall⟩ := compileItems_alike h ih
    rw [compileItem, compileItem]
    refine h.share ⟨hall,?_⟩
    dsimp only
    unfold allOfParts extracting
    rw [hids, hall.extracts]
    exact parts_alike_refl (by simp [Condition.symbols]) _
  | untypedHole | symbolRange | rest =>
    intro name sameLimit sameTable s t h
    rw [compileItem, compileItem]
    exact h.share ⟨h,parts_alike_refl (by simp [Condition.symbols]) _⟩

/-! Right sides. -/

lemma Alike.insertBuilder (h : Alike name sameLimit sameTable s t) {x y : Symbol}
    (hxy : SameName s.symbols t.symbols x y) (data : Option Datum)
    (children : List Builder.Source) (needsCaptures : Bool) :
    (s.insertBuilder x data children needsCaptures).1 =
        (t.insertBuilder y data children needsCaptures).1 ∧
      Alike name sameLimit sameTable (s.insertBuilder x data children needsCaptures).2
        (t.insertBuilder y data children needsCaptures).2 := by
  have hid : s.builders.length = t.builders.length := h.builders.length_eq
  exact ⟨hid,{ h with builders := .cons ⟨hid,hxy,rfl,rfl,rfl⟩ h.builders }⟩

mutual

lemma compileTemplate_alike : ∀ (r : Template) {s t : Compilation},
    Alike name sameLimit sameTable s t →
      (compileTemplate r s).1 = (compileTemplate r t).1 ∧
        Alike name sameLimit sameTable (compileTemplate r s).2 (compileTemplate r t).2
  | .null _, s, t, h => ⟨rfl,h⟩
  | .hole _ _, s, t, h => ⟨rfl,h⟩
  | .subtree _ type data children, s, t, h => by
    obtain ⟨hsupply,hbelow⟩ := compileTemplates_alike children h
    rw [compileTemplate, compileTemplate]
    dsimp only
    rw [hsupply]
    obtain ⟨hid,hnext⟩ := (hbelow.intern type).insertBuilder
      (SymbolTable.sameName_intern _ _ type) data (compileTemplates children t).1.source
      (readsHole data || (compileTemplates children t).1.needsCaptures)
    exact ⟨congrArg (fun id => Supply.mk (Builder.Source.builder id) _) hid,hnext⟩

lemma compileTemplates_alike : ∀ (rs : List Template) {s t : Compilation},
    Alike name sameLimit sameTable s t →
      (compileTemplates rs s).1 = (compileTemplates rs t).1 ∧
        Alike name sameLimit sameTable (compileTemplates rs s).2 (compileTemplates rs t).2
  | [], s, t, h => ⟨rfl,h⟩
  | r :: rs, s, t, h => by
    obtain ⟨hsupply,hfirst⟩ := compileTemplate_alike r h
    obtain ⟨hothers,hrest⟩ := compileTemplates_alike rs hfirst
    rw [compileTemplates, compileTemplates]
    dsimp only
    rw [hsupply, hothers]
    exact ⟨rfl,hrest⟩

end

/-! Rules. -/

lemma compileCheckers_alike (items : List Item) (names : List String)
    (h : Alike name sameLimit sameTable s t) :
    (compileCheckers items names s).1 = (compileCheckers items names t).1 ∧
      Alike name sameLimit sameTable (compileCheckers items names s).2
        (compileCheckers items names t).2 := by
  induction items generalizing names s t with
  | nil => exact ⟨rfl,h⟩
  | cons i items ih =>
    cases names with
    | nil => exact ⟨rfl,h⟩
    | cons position names =>
      obtain ⟨hid,hfirst⟩ := compilesAlike i _ _ _ s t h
      obtain ⟨hothers,hrest⟩ := ih names hfirst
      rw [compileCheckers, compileCheckers]
      dsimp only
      rw [hid, hothers]
      exact ⟨rfl,hrest⟩

/-- Two results that are related, or one error. -/
inductive SameResult {α : Type} (R : α → α → Prop) :
    Except CompileError α → Except CompileError α → Prop
  | ok {a b : α} (h : R a b) : SameResult R (.ok a) (.ok b)
  | error (e : CompileError) : SameResult R (.error e) (.error e)

lemma compileRule_alike (r : Rule) (h : Alike name sameLimit sameTable s t) :
    SameResult (Alike name sameLimit sameTable) (s.compileRule r) (t.compileRule r) := by
  unfold compileRule compileStrategy
  split_ifs
  · exact .error _
  · obtain ⟨hcheckers,hleft⟩ := compileCheckers_alike r.pattern Strategy.ordinals h
    obtain ⟨hsupply,hright⟩ := compileTemplate_alike r.result hleft
    dsimp only [compileResult]
    rw [hcheckers, hsupply]
    refine .ok { hright with rules := ?_ }
    change _ ++ _ = _ ++ _
    rw [hright.rules, nextRule, nextRule, hright.rules]

/-- Sessions that compile the same rules stay alike, and break off alike. -/
theorem compileRules_alike (rules : List Rule) (h : Alike name sameLimit sameTable s t) :
    SameResult (Alike name sameLimit sameTable) (s.compileRules rules) (t.compileRules rules) := by
  induction rules generalizing s t with
  | nil => exact .ok h
  | cons r rules ih =>
    have hr := compileRule_alike r h
    rw [compileRules, compileRules]
    generalize s.compileRule r = a at hr ⊢
    generalize t.compileRule r = b at hr ⊢
    cases hr with
    | error e => exact .error e
    | ok h => exact ih h

end Compilation
end TreeRules
