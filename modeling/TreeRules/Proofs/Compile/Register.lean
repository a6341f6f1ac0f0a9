import TreeRules.Proofs.Capture.Store
import TreeRules.Proofs.Compile.Session

/-! What is kept by key while a file is compiled. The rules of its blocks are gathered by language,
and the number of each matcher is registered by the matcher's text, beside the table that holds the
matchers. The one gives what is read off the blocks, the other what is read off the table. -/
namespace TreeRules

/-! Entries by key, in the order in which their keys came first. -/
namespace Keyed

variable {β : Type}

/-- Changes what is kept by `key`. A new key comes last. -/
def update (key : String) (change : Option β → β) : List (String × β) → List (String × β)
  | [] => [(key,change none)]
  | e :: es => if e.1 = key then (key,change (some e.2)) :: es else e :: update key change es

def get? (key : String) : List (String × β) → Option β
  | [] => none
  | e :: es => if e.1 = key then some e.2 else get? key es

lemma get?_update (key k : String) (change : Option β → β) (es : List (String × β)) :
    get? k (update key change es) =
      if key = k then some (change (get? key es)) else get? k es := by
  induction es with
  | nil => rfl
  | cons e es ih =>
    rw [update]
    by_cases he : e.1 = key
    · by_cases hk : key = k <;> simp [get?, he, hk]
    · rw [if_neg he, get?, get?, get?, if_neg he, ih]
      by_cases hk : key = k
      · rw [if_neg (fun h => he (h.trans hk.symm)), if_pos hk, if_pos hk]
      · rw [if_neg hk, if_neg hk]

/-- The change of one of several entries, which are told by their keys. -/
lemma update_map {keys : List String} (hkeys : keys.Nodup) (key : String)
    (change : Option β → β) (value : String → β) :
    update key change (keys.map fun k => (k,value k)) =
      if key ∈ keys then keys.map fun k => (k,if k = key then change (some (value k)) else value k)
      else keys.map (fun k => (k,value k)) ++ [(key,change none)] := by
  induction keys with
  | nil => rfl
  | cons first keys ih =>
    obtain ⟨hfirst,hkeys⟩ := List.nodup_cons.mp hkeys
    rw [List.map_cons, update]
    by_cases hk : first = key
    · subst hk
      have hrest : keys.map (fun k => (k,if k = first then change (some (value k)) else value k)) =
          keys.map fun k => (k,value k) := by
        refine List.map_congr_left fun k hmem => ?_
        have hne : k ≠ first := fun h => hfirst (h ▸ hmem)
        rw [if_neg hne]
      simp [hrest]
    · rw [if_neg hk, ih hkeys]
      by_cases hmem : key ∈ keys <;> simp [hmem, hk, Ne.symm hk]

end Keyed

namespace RuleFile

/-- The rules of blocks by language, gathered block after block. -/
def gather (blocks : List Block) : List (String × List Rule) :=
  blocks.foldl (fun groups b => Keyed.update b.name (fun old => old.getD [] ++ b.rules) groups) []

/-- Compiles gathered rules, one language after the other. -/
def compileGroups (h : Option Hierarchy) (config : Config) :
    List (String × List Rule) → SymbolTable → Except CompileError Program
  | [], symbols => .ok ⟨symbols,[]⟩
  | group :: groups, symbols => do
    let s ← (Compilation.start group.1 h config symbols).compileRules group.2
    let p ← compileGroups h config groups s.symbols
    return { p with languages := s.finish :: p.languages }

lemma nodup_languageNames (f : RuleFile) : f.languageNames.Nodup := nodup_eraseDups _

lemma languageNames_append_singleton (blocks : List Block) (b : Block) :
    languageNames ⟨blocks ++ [b]⟩ = if b.name ∈ languageNames ⟨blocks⟩ then
      languageNames ⟨blocks⟩ else languageNames ⟨blocks⟩ ++ [b.name] := by
  simp only [languageNames, List.map_append, List.map_singleton, eraseDups_append_singleton,
    List.mem_eraseDups]

lemma rulesOf_append_singleton (blocks : List Block) (b : Block) (name : String) :
    rulesOf ⟨blocks ++ [b]⟩ name =
      rulesOf ⟨blocks⟩ name ++ if name = b.name then b.rules else [] := by
  by_cases hn : name = b.name
  · simp [rulesOf, hn]
  · simp [rulesOf, hn, Ne.symm hn]

lemma rulesOf_eq_nil {blocks : List Block} {name : String} (h : name ∉ languageNames ⟨blocks⟩) :
    rulesOf ⟨blocks⟩ name = [] := by
  have hall : ∀ b ∈ blocks, b.name ≠ name := by
    intro b hb hname
    exact h (List.mem_eraseDups.mpr (hname ▸ List.mem_map_of_mem hb))
  rw [rulesOf, List.filter_eq_nil_iff.mpr (by simpa using hall), List.flatMap_nil]

/-- Gathering finds the languages in the order of their first mention, each with its rules. -/
theorem gather_eq (blocks : List Block) :
    gather blocks = (languageNames ⟨blocks⟩).map fun name => (name,rulesOf ⟨blocks⟩ name) := by
  induction blocks using List.reverseRecOn with
  | nil => rfl
  | append_singleton blocks b ih =>
    have hfold : gather (blocks ++ [b]) =
        Keyed.update b.name (fun old => old.getD [] ++ b.rules) (gather blocks) := by
      simp [gather]
    rw [hfold, ih, Keyed.update_map (nodup_languageNames _), languageNames_append_singleton]
    by_cases hmem : b.name ∈ languageNames ⟨blocks⟩
    · rw [if_pos hmem, if_pos hmem]
      refine List.map_congr_left fun name _ => ?_
      by_cases hn : name = b.name <;> simp [rulesOf_append_singleton, hn]
    · rw [if_neg hmem, if_neg hmem, List.map_append]
      congr 1
      · refine List.map_congr_left fun name hname => ?_
        have hn : name ≠ b.name := fun h => hmem (h ▸ hname)
        rw [rulesOf_append_singleton, if_neg hn, List.append_nil]
      · -- A new language has no rules in the blocks before.
        simp [rulesOf_append_singleton, rulesOf_eq_nil hmem]

/-- A file is compiled as its gathered rules are. -/
theorem compile_eq_compileGroups (f : RuleFile) (h : Option Hierarchy) (config : Config) :
    f.compile h config = compileGroups h config (gather f.blocks) .empty := by
  have hgroups : ∀ names symbols, f.compileLanguages h config names symbols =
      compileGroups h config (names.map fun name => (name,f.rulesOf name)) symbols := by
    intro names
    induction names with
    | nil => exact fun _ => rfl
    | cons name names ih =>
      intro symbols
      simp only [compileLanguages, List.map_cons, compileGroups, ih]
      cases (Compilation.start name h config symbols).compileRules (f.rulesOf name) with
      | error e => rfl
      | ok s =>
        cases hrest : compileGroups h config (names.map fun name => (name,f.rulesOf name))
            s.symbols <;>
          simp [bind, Except.bind, pure, Except.pure, hrest]
  rw [compile, hgroups, gather_eq]

end RuleFile

/-- A session with a register of its matchers: their numbers, by their texts. -/
structure Registered where
  session : Compilation
  byKey : List (String × Matcher.Id)

namespace Registered

open Compilation (ChildParts fixedParts)
open Matcher (Id Parts)

def start (language : String) (h : Option Hierarchy) (config : Config) (symbols : SymbolTable) :
    Registered := ⟨.start language h config symbols,[]⟩

/-- The matcher of a canonical text. -/
def lookup? (r : Registered) (key : String) : Option Id := Keyed.get? key r.byKey

/-- Adds the matcher of an item, to the table and to the register. -/
def insertItem (r : Registered) (item : Item) (parts : Parts) : Id × Registered :=
  let made := r.session.insertItem item parts
  (made.1,⟨made.2,Keyed.update item.body (fun _ => made.1) r.byKey⟩)

/-- The matcher of `item`: the one that is registered, or a new one from `compile`. -/
def share (r : Registered) (item : Item) (compile : Registered → Parts × Registered) :
    Id × Registered :=
  match r.lookup? item.body with
  | some id => (id,r)
  | none =>
    let made := compile r
    made.2.insertItem item made.1

/-- The test for a type. -/
def typeTest (r : Registered) (name : String) : Matcher.TypeTest × Registered :=
  let test := r.session.typeTest name
  (test.1,{ r with session := test.2 })

mutual

/-- The matcher of an item, with the register. -/
def compileItem : Item → Registered → Id × Registered
  | .fixed t type data children, r =>
    r.share (.fixed t type data children) fun r =>
      let test := r.typeTest type
      let below := compileChildren 0 children test.2
      (fixedParts r.session.inlineLimit test.1 data children below.1,below.2)
  | .typedHole t type hole ellipsis, r =>
    r.share (.typedHole t type hole ellipsis) fun r =>
      let test := r.typeTest type
      (⟨[.type test.1],[],[.node hole]⟩,test.2)
  | .untypedHole t hole ellipsis, r =>
    r.share (.untypedHole t hole ellipsis) fun r => (⟨[],[],[.node hole]⟩,r)
  | .symbolRange t first last hole, r =>
    r.share (.symbolRange t first last hole) fun r =>
      (⟨[.charRange first last],[],hole.toList.map .data⟩,r)
  | .anyOf t items, r =>
    r.share (.anyOf t items) fun r =>
      let all := compileItems items r
      (all.2.session.anyOfParts all.1,all.2)
  | .allOf t items, r =>
    r.share (.allOf t items) fun r =>
      let all := compileItems items r
      (all.2.session.allOfParts all.1,all.2)
  | .rest t, r => r.share (.rest t) fun r => (⟨[],[],[]⟩,r)

def compileItems : List Item → Registered → List Id × Registered
  | [], r => ([],r)
  | i :: items, r =>
    let first := compileItem i r
    let others := compileItems items first.2
    (first.1 :: others.1,others.2)

def compileChildren (index : Nat) : List Item → Registered → ChildParts × Registered
  | [], r => (⟨[],[]⟩,r)
  | i :: items, r =>
    let first : ChildParts × Registered :=
      match i.childRole with
      | .any h => (⟨[],[.child h index]⟩,r)
      | .remaining h => (⟨[],[.remaining h index]⟩,r)
      | .remainingOf type h =>
        let test := r.typeTest type
        (⟨[.remaining index test.1],[.remaining h index]⟩,test.2)
      | .captured h =>
        let m := compileItem i r
        (⟨[.child index m.1],[.child h index]⟩,m.2)
      | .free => (⟨[],[]⟩,r)
      | .nested =>
        let m := compileItem i r
        (⟨[.child index m.1],if m.2.session.extracts m.1 then [.nested index m.1] else []⟩,m.2)
    let others := compileChildren (index + 1) items first.2
    (⟨first.1.conditions ++ others.1.conditions,first.1.extractions ++ others.1.extractions⟩,
      others.2)

end

/-- Register and table find the same matchers. -/
def Agrees (r : Registered) : Prop := ∀ key, r.lookup? key = r.session.lookup? key

/-- The same comes out with the register as without it, and the register still agrees. -/
def Same {α : Type} (made : α × Registered) (made' : α × Compilation) : Prop :=
  ∃ byKey, made = (made'.1,⟨made'.2,byKey⟩) ∧ Agrees ⟨made'.2,byKey⟩

lemma agrees_start (language : String) (h : Option Hierarchy) (config : Config)
    (symbols : SymbolTable) : (start language h config symbols).Agrees := fun _ => rfl

variable {r : Registered}

/-- What adds no matcher needs no register. -/
lemma Agrees.withSession (hr : r.Agrees) {s : Compilation}
    (hs : s.matchers = r.session.matchers) : Agrees ⟨s,r.byKey⟩ := by
  intro key
  rw [Compilation.lookup?, hs]
  exact hr key

lemma Agrees.typeTest (hr : r.Agrees) (name : String) :
    Agrees ⟨(r.session.typeTest name).2,r.byKey⟩ :=
  hr.withSession (by rw [Compilation.typeTest_eq])

/-- One matcher more, in both. -/
lemma Agrees.insertItem (hr : r.Agrees) (i : Item) (parts : Parts) :
    Same (r.insertItem i parts) (r.session.insertItem i parts) := by
  refine ⟨_,rfl,fun key => ?_⟩
  have hregister : (r.insertItem i parts).2.lookup? key =
      if i.body = key then some (r.insertItem i parts).1 else r.lookup? key :=
    Keyed.get?_update _ _ _ _
  refine hregister.trans ?_
  rw [hr key, Compilation.lookup?, Compilation.lookup?]
  by_cases hk : i.body = key
  · rw [if_pos hk, Compilation.insertItem, Compilation.insertMatcher,
      List.find?_cons_of_pos (by simpa using hk)]
    rfl
  · rw [if_neg hk, Compilation.insertItem, Compilation.insertMatcher,
      List.find?_cons_of_neg (by simpa using hk)]

lemma Agrees.share (hr : r.Agrees) (i : Item) {compile : Registered → Parts × Registered}
    {compile' : Compilation → Parts × Compilation} (hc : Same (compile r) (compile' r.session)) :
    Same (r.share i compile) (r.session.share i compile') := by
  rw [Registered.share, Compilation.share, hr i.body]
  cases r.session.lookup? i.body with
  | some id => exact ⟨r.byKey,rfl,hr⟩
  | none =>
    obtain ⟨byKey,hmade,hagrees⟩ := hc
    simp only [hmade]
    exact hagrees.insertItem i _

/-- Compiling the item with the register makes what compiling it without makes. -/
def Follows (i : Item) : Prop :=
  ∀ r : Registered, r.Agrees → Same (compileItem i r) (Compilation.compileItem i r.session)

lemma same_compileItems {items : List Item} (ih : ∀ i ∈ items, Follows i) (hr : r.Agrees) :
    Same (compileItems items r) (Compilation.compileItems items r.session) := by
  induction items generalizing r with
  | nil => exact ⟨r.byKey,rfl,hr⟩
  | cons i items ihi =>
    obtain ⟨hi,hitems⟩ := List.forall_mem_cons.mp ih
    obtain ⟨byKey,hfirst,hr⟩ := hi r hr
    obtain ⟨byKey,hrest,hr⟩ := ihi hitems hr
    exact ⟨byKey,by simp only [compileItems, Compilation.compileItems, hfirst, hrest],hr⟩

lemma same_compileChildren {items : List Item} (ih : ∀ i ∈ items, Follows i) (hr : r.Agrees)
    (index : Nat) :
    Same (compileChildren index items r) (Compilation.compileChildren index items r.session) := by
  induction items generalizing r index with
  | nil => exact ⟨r.byKey,rfl,hr⟩
  | cons i items ihi =>
    obtain ⟨hi,hitems⟩ := List.forall_mem_cons.mp ih
    rw [compileChildren, Compilation.compileChildren]
    cases i.childRole with
    | any hole | remaining hole | free =>
      obtain ⟨byKey,hrest,hr⟩ := ihi hitems hr (index + 1)
      exact ⟨byKey,by simp only [hrest],hr⟩
    | remainingOf type hole =>
      obtain ⟨byKey,hrest,hr⟩ := ihi hitems (hr.typeTest type) (index + 1)
      exact ⟨byKey,by simp only [typeTest, hrest],hr⟩
    | captured hole | nested =>
      obtain ⟨byKey,hfirst,hr⟩ := hi r hr
      obtain ⟨byKey,hrest,hr⟩ := ihi hitems hr (index + 1)
      exact ⟨byKey,by simp only [hfirst, hrest],hr⟩

theorem follows (i : Item) : Follows i := by
  induction i using Item.ind with
  | fixed t type data children ih =>
    intro r hr
    rw [compileItem, Compilation.compileItem]
    obtain ⟨byKey,hbelow,hagrees⟩ := same_compileChildren ih (hr.typeTest type) 0
    exact hr.share _ ⟨byKey,by simp only [typeTest, hbelow],hagrees⟩
  | typedHole t type hole ellipsis =>
    intro r hr
    rw [compileItem, Compilation.compileItem]
    exact hr.share _ ⟨r.byKey,rfl,hr.typeTest type⟩
  | anyOf t items ih =>
    intro r hr
    rw [compileItem, Compilation.compileItem]
    obtain ⟨byKey,hall,hagrees⟩ := same_compileItems ih hr
    exact hr.share _ ⟨byKey,by simp only [hall],hagrees⟩
  | allOf t items ih =>
    intro r hr
    rw [compileItem, Compilation.compileItem]
    obtain ⟨byKey,hall,hagrees⟩ := same_compileItems ih hr
    exact hr.share _ ⟨byKey,by simp only [hall],hagrees⟩
  | untypedHole | symbolRange | rest =>
    intro r hr
    rw [compileItem, Compilation.compileItem]
    exact hr.share _ ⟨r.byKey,rfl,hr⟩

/-- From a session where nothing is registered yet, items are compiled with the register as they are
without it, and each matcher is registered under the text that the table has it by. -/
theorem same_of_start (language : String) (h : Option Hierarchy) (config : Config)
    (symbols : SymbolTable) (items : List Item) :
    Same (compileItems items (start language h config symbols))
      (Compilation.compileItems items (.start language h config symbols)) :=
  same_compileItems (fun i _ => follows i) (agrees_start language h config symbols)

end Registered

end TreeRules
