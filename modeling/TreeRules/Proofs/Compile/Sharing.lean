import TreeRules.Check
import TreeRules.Proofs.Compile.Program
import TreeRules.Proofs.Pattern.Key
import TreeRules.Proofs.Pattern.Tested

/-! What shares a matcher. Compiling rules asks for the matchers of many items, one after the other;
each is either made or one that was made before. Items share a matcher if they have one canonical
text, which conflates no different items exactly if the canonical texts of the rules tell their
items apart. Type names that are identifiers make sure of that; other type names do not. -/
namespace TreeRules
namespace Compilation

/-- The matchers that are there, by their numbers, with their texts. -/
def entries (s : Compilation) : List (Matcher.Id × String) :=
  s.finish.matcherList.map fun m => (m.id,m.key)

/-- An item whose matcher is asked for, and the session at that time. -/
structure ItemCall where
  item : Item
  session : Compilation

namespace ItemCall

/-- The matcher that is returned. -/
def given (c : ItemCall) : Matcher.Id := (compileItem c.item c.session).1

/-- Whether that matcher is made from this item; otherwise it was there. -/
def makes (c : ItemCall) : Bool := (c.session.lookup? c.item.body).isNone

def entry (c : ItemCall) : Matcher.Id × String := (c.given,c.item.body)

end ItemCall

/-- The calls for an item, after those for the items inside, which are made only if the item has no
matcher yet. -/
def sharedCalls (s : Compilation) (i : Item) (inside : List ItemCall) : List ItemCall :=
  if (s.lookup? i.body).isNone then inside ++ [⟨i,s⟩] else [⟨i,s⟩]

mutual

/-- The calls that compiling an item makes, in the order in which they return. -/
def itemCalls : Item → Compilation → List ItemCall
  | .fixed t type data children, s =>
    sharedCalls s (.fixed t type data children) (childCalls 0 children (s.typeTest type).2)
  | .anyOf t items, s => sharedCalls s (.anyOf t items) (itemsCalls items s)
  | .allOf t items, s => sharedCalls s (.allOf t items) (itemsCalls items s)
  | i, s => sharedCalls s i []

def itemsCalls : List Item → Compilation → List ItemCall
  | [], _ => []
  | i :: items, s => itemCalls i s ++ itemsCalls items (compileItem i s).2

def childCalls (index : Nat) : List Item → Compilation → List ItemCall
  | [], _ => []
  | i :: items, s =>
    (if i.isTested then itemCalls i s else []) ++
      childCalls (index + 1) items (compileChild index i s).2

end

/-- The calls that compiling rules makes, up to the first rule that fails. -/
def rulesCalls : List Rule → Compilation → List ItemCall
  | [], _ => []
  | r :: rules, s =>
    match s.compileRule r with
    | .error _ => []
    | .ok t => itemsCalls r.pattern s ++ rulesCalls rules t

/-- The items of the rules before the first that has too many. -/
def patternItems (rules : List Rule) : List Item :=
  (rules.takeWhile fun r => r.pattern.length ≤ Strategy.ordinals.length).flatMap Rule.pattern

/-- What the calls for `items`, from session `s` to session `t`, come to. -/
structure Traced (items : List Item) (s t : Compilation) (calls : List ItemCall) : Prop where
  made : t.entries = s.entries ++ (calls.filter ItemCall.makes).map ItemCall.entry
  given : ∀ c ∈ calls, c.entry ∈ t.entries
  called : items ⊆ calls.map ItemCall.item
  inside : ∀ c ∈ calls, c.makes = true → c.item.testedInner ⊆ calls.map ItemCall.item
  tested : calls.map ItemCall.item ⊆ items.flatMap Item.testedParts

variable {s t u : Compilation} {items more : List Item} {calls rest : List ItemCall}

lemma entries_eq_of_matchers_eq (h : t.matchers = s.matchers) : t.entries = s.entries := by
  rw [entries, entries, Language.matcherList, Language.matcherList, finish, finish, h]

lemma entries_typeTest (s : Compilation) (name : String) :
    (s.typeTest name).2.entries = s.entries := by
  apply entries_eq_of_matchers_eq
  rw [typeTest_eq]

lemma entries_insertItem (s : Compilation) (i : Item) (parts : Matcher.Parts) :
    (s.insertItem i parts).2.entries = s.entries ++ [((s.insertItem i parts).1,i.body)] := by
  simp [entries, Language.matcherList, finish, insertItem, insertMatcher]

lemma mem_entries_of_lookup? {key : String} {id : Matcher.Id} (h : s.lookup? key = some id) :
    (id,key) ∈ s.entries := by
  obtain ⟨m,hm,rfl⟩ := Option.map_eq_some_iff.mp h
  have hkey : m.key = key := by simpa using List.find?_some hm
  exact List.mem_map.mpr ⟨m,List.mem_reverse.mpr (List.mem_of_find?_eq_some hm),by rw [hkey]⟩

namespace Traced

lemma nil (h : t.entries = s.entries) : Traced [] s t [] :=
  ⟨by simpa using h,by simp,by simp,by simp,by simp⟩

lemma append (h : Traced items s t calls) (h' : Traced more t u rest) :
    Traced (items ++ more) s u (calls ++ rest) := by
  have hleft := List.subset_append_left (calls.map ItemCall.item) (rest.map ItemCall.item)
  have hright := List.subset_append_right (calls.map ItemCall.item) (rest.map ItemCall.item)
  refine ⟨?_,fun c hc => ?_,?_,fun c hc hm => ?_,?_⟩
  · rw [h'.made, h.made, List.filter_append, List.map_append, List.append_assoc]
  · rcases List.mem_append.mp hc with hc | hc
    · rw [h'.made]
      exact List.mem_append_left _ (h.given c hc)
    · exact h'.given c hc
  · rw [List.map_append]
    exact List.append_subset.mpr
      ⟨List.Subset.trans h.called hleft,List.Subset.trans h'.called hright⟩
  · rw [List.map_append]
    rcases List.mem_append.mp hc with hc | hc
    · exact List.Subset.trans (h.inside c hc hm) hleft
    · exact List.Subset.trans (h'.inside c hc hm) hright
  · rw [List.map_append, List.flatMap_append]
    exact List.append_subset.mpr ⟨List.Subset.trans h.tested (List.subset_append_left _ _),
      List.Subset.trans h'.tested (List.subset_append_right _ _)⟩

lemma of_entries_eq (h : Traced items s t calls) (hu : u.entries = t.entries) :
    Traced items s u calls := by
  simpa using h.append (.nil hu)

/-- An item whose text is there gets the matcher that is there. -/
lemma found {i : Item} {id : Matcher.Id} (hl : s.lookup? i.body = some id)
    (hi : compileItem i s = (id,s)) : Traced [i] s s [⟨i,s⟩] := by
  have hmakes : ItemCall.makes ⟨i,s⟩ = false := by
    rw [ItemCall.makes, hl]
    rfl
  refine ⟨by simp [hmakes],fun c hc => ?_,by simp,fun c hc hm => ?_,?_⟩
  · obtain rfl := List.mem_singleton.mp hc
    rw [ItemCall.entry, ItemCall.given, hi]
    exact mem_entries_of_lookup? hl
  · obtain rfl := List.mem_singleton.mp hc
    rw [hmakes] at hm
    cases hm
  · simpa using i.self_mem_testedParts

/-- An item whose text is not there gets a new matcher, after the items inside have got theirs. -/
lemma insert {i : Item} {parts : Matcher.Parts} (hl : s.lookup? i.body = none)
    (hi : compileItem i s = t.insertItem i parts) (h : Traced i.testedInner s t calls) :
    Traced [i] s (compileItem i s).2 (calls ++ [⟨i,s⟩]) := by
  have hmakes : ItemCall.makes ⟨i,s⟩ = true := by
    rw [ItemCall.makes, hl]
    rfl
  have hentries : (compileItem i s).2.entries = t.entries ++ [ItemCall.entry ⟨i,s⟩] := by
    rw [ItemCall.entry, ItemCall.given, hi]
    exact entries_insertItem t i parts
  have hbelow : i.testedInner.flatMap Item.testedParts ⊆ [i].flatMap Item.testedParts := by
    intro j hj
    obtain ⟨k,hk,hj⟩ := List.mem_flatMap.mp hj
    simpa using Item.mem_testedParts.mpr (Or.inr ⟨k,hk,hj⟩)
  refine ⟨?_,fun c hc => ?_,by simp,fun c hc hm => ?_,?_⟩
  · rw [hentries, h.made]
    simp [hmakes]
  · rw [hentries]
    rcases List.mem_append.mp hc with hc | hc
    · exact List.mem_append_left _ (h.given c hc)
    · obtain rfl := List.mem_singleton.mp hc
      exact List.mem_append_right _ List.mem_cons_self
  · rw [List.map_append]
    refine List.Subset.trans ?_ (List.subset_append_left _ _)
    rcases List.mem_append.mp hc with hc | hc
    · exact h.inside c hc hm
    · obtain rfl := List.mem_singleton.mp hc
      exact h.called
  · rw [List.map_append]
    refine List.append_subset.mpr ⟨List.Subset.trans h.tested hbelow,?_⟩
    simpa using i.self_mem_testedParts

lemma share {i : Item} {compile : Compilation → Matcher.Parts × Compilation}
    (hi : compileItem i s = s.share i compile) (h : Traced i.testedInner s (compile s).2 calls) :
    Traced [i] s (compileItem i s).2 (sharedCalls s i calls) := by
  rw [Compilation.share] at hi
  cases hl : s.lookup? i.body with
  | some id =>
    rw [hl] at hi
    have hcalls : sharedCalls s i calls = [⟨i,s⟩] := by
      rw [sharedCalls, hl]
      rfl
    rw [hcalls, hi]
    exact found hl hi
  | none =>
    rw [hl] at hi
    have hcalls : sharedCalls s i calls = calls ++ [⟨i,s⟩] := by
      rw [sharedCalls, hl]
      rfl
    rw [hcalls]
    exact insert hl hi h

end Traced

/-- Compiling the item makes the calls that are listed for it, in whatever session. -/
def TracesItem (i : Item) : Prop :=
  ∀ s : Compilation, Traced [i] s (compileItem i s).2 (itemCalls i s)

lemma traced_items (ih : ∀ i ∈ items, TracesItem i) (s : Compilation) :
    Traced items s (compileItems items s).2 (itemsCalls items s) := by
  induction items generalizing s with
  | nil => exact .nil rfl
  | cons i items ihi =>
    obtain ⟨hi,hrest⟩ := List.forall_mem_cons.mp ih
    rw [compileItems, itemsCalls]
    exact (hi s).append (ihi hrest _)

/-- A child makes calls only if it is tested. -/
lemma traced_child {i : Item} (ih : TracesItem i) (index : Nat) (s : Compilation) :
    Traced ([i].filter Item.isTested) s (compileChild index i s).2
      (if i.isTested then itemCalls i s else []) := by
  rw [compileChild, List.filter_singleton, Item.isTested]
  cases i.childRole with
  | captured hole | nested => exact ih s
  | any hole | remaining hole | free => exact .nil rfl
  | remainingOf type hole => exact .nil (entries_typeTest s type)

lemma traced_children (ih : ∀ i ∈ items, TracesItem i) (index : Nat) (s : Compilation) :
    Traced (items.filter Item.isTested) s (compileChildren index items s).2
      (childCalls index items s) := by
  induction items generalizing index s with
  | nil => exact .nil rfl
  | cons i items ihi =>
    obtain ⟨hi,hrest⟩ := List.forall_mem_cons.mp ih
    have hfilter : (i :: items).filter Item.isTested =
      [i].filter Item.isTested ++ items.filter Item.isTested := List.filter_append [i] items
    rw [compileChildren_cons, childCalls, hfilter]
    exact (traced_child hi index s).append (ihi hrest _ _)

theorem tracesItem (i : Item) : TracesItem i := by
  induction i using Item.ind with
  | fixed t type data children ih =>
    intro s
    rw [itemCalls]
    refine .share (by rw [compileItem]) ?_
    exact (Traced.nil (entries_typeTest s type)).append (traced_children ih 0 _)
  | anyOf t items ih =>
    intro s
    rw [itemCalls]
    refine .share (by rw [compileItem]) ?_
    exact traced_items ih s
  | allOf t items ih =>
    intro s
    rw [itemCalls]
    refine .share (by rw [compileItem]) ?_
    exact traced_items ih s
  | typedHole t type hole ellipsis =>
    intro s
    exact .share (by rw [compileItem]) (.nil (entries_typeTest s type))
  | untypedHole | symbolRange | rest =>
    intro s
    exact .share (by rw [compileItem]) (.nil rfl)

/-! Rules. -/

/-- With names enough, the items of a left side are compiled one after the other. -/
lemma compileCheckers_session {names : List String} (h : items.length ≤ names.length)
    (s : Compilation) : (compileCheckers items names s).2 = (compileItems items s).2 := by
  induction items generalizing names s with
  | nil => rfl
  | cons i items ih =>
    cases names with
    | nil => cases h
    | cons name names =>
      rw [compileCheckers, compileItems]
      exact ih (Nat.le_of_succ_le_succ h) _

lemma traced_rule {r : Rule} (h : s.compileRule r = .ok t) :
    r.pattern.length ≤ Strategy.ordinals.length ∧
      Traced r.pattern s t (itemsCalls r.pattern s) := by
  obtain ⟨strategy,mid,hmid,c,rfl⟩ := compileRule_cases h
  obtain ⟨hl,-,rfl⟩ := compileStrategy_cases hmid
  refine ⟨hl,(traced_items (fun i _ => tracesItem i) s).of_entries_eq ?_⟩
  rw [compileCheckers_session hl]
  exact entries_eq_of_matchers_eq (compileResult_adds _ _).2

lemma lt_length_of_compileRule_error {r : Rule} {e : CompileError}
    (h : s.compileRule r = .error e) : Strategy.ordinals.length < r.pattern.length := by
  by_contra hl
  rw [compileRule, compileStrategy, if_neg hl] at h
  cases h

/-- Compiling rules makes the calls that are listed for them, whether or not a rule fails. -/
theorem traced_rules (rules : List Rule) (hs : s.Closed) :
    ∃ t, t.Closed ∧ Traced (patternItems rules) s t (rulesCalls rules s) ∧
      ∀ u, s.compileRules rules = .ok u → u = t := by
  induction rules generalizing s with
  | nil =>
    refine ⟨s,hs,.nil rfl,fun u hu => ?_⟩
    cases hu
    rfl
  | cons r rules ih =>
    rw [rulesCalls, compileRules]
    cases hr : s.compileRule r with
    | error e =>
      have hitems : patternItems (r :: rules) = [] := by
        rw [patternItems, List.takeWhile_cons_of_neg]
        · rfl
        · simpa using lt_length_of_compileRule_error hr
      rw [hitems]
      exact ⟨s,hs,.nil rfl,fun u hu => by cases hu⟩
    | ok mid =>
      obtain ⟨hl,hmid⟩ := traced_rule hr
      obtain ⟨t,ht,htraced,hu⟩ := ih (compileRule_closes hr hs).1
      have hitems : patternItems (r :: rules) = r.pattern ++ patternItems rules := by
        rw [patternItems, List.takeWhile_cons_of_pos (by simpa using hl)]
        rfl
      rw [hitems]
      exact ⟨t,ht,hmid.append htraced,hu⟩

/-! Sharing. -/

/-- A matcher that is returned again was made from an item that is the same up to places and the
item's own mode. -/
def ItemCall.Faithful (calls : List ItemCall) : Prop :=
  ∀ c ∈ calls, c.makes = false → ∀ m ∈ calls, m.makes = true → m.given = c.given →
    m.item.core = c.item.core

lemma Closed.nodup_entries (ht : t.Closed) : (t.entries.map Prod.snd).Nodup := by
  have hkeys : t.entries.map Prod.snd = (t.matchers.map Matcher.key).reverse := by
    rw [entries, List.map_map, ← List.map_reverse]
    rfl
  rw [hkeys, List.nodup_reverse]
  exact ht.keys

lemma Closed.getElem?_of_mem_entries (ht : t.Closed) {a : Matcher.Id × String}
    (ha : a ∈ t.entries) : ∃ m, t.finish.matcherList[a.1]? = some m ∧ m.key = a.2 := by
  obtain ⟨m,hm,rfl⟩ := List.mem_map.mp ha
  obtain ⟨place,hplace⟩ := List.mem_iff_getElem?.mp hm
  have hid : m.id = place := ht.matcherIds place m hplace
  exact ⟨m,hid ▸ hplace,rfl⟩

/-- Numbers and texts determine each other. -/
lemma Closed.entries_inj (ht : t.Closed) {a b : Matcher.Id × String} (ha : a ∈ t.entries)
    (hb : b ∈ t.entries) : a.1 = b.1 ↔ a.2 = b.2 := by
  have hma := ht.getElem?_of_mem_entries ha
  have hmb := ht.getElem?_of_mem_entries hb
  constructor
  · intro hid
    obtain ⟨m,hm,hkey⟩ := hma
    obtain ⟨n,hn,hkey'⟩ := hmb
    rw [hid, hn] at hm
    cases hm
    exact hkey.symm.trans hkey'
  · intro hkey
    have hfound := ht.lookup?_eq_some.mpr hma
    rw [hkey, ht.lookup?_eq_some.mpr hmb] at hfound
    exact (Option.some.inj hfound).symm

namespace Traced

variable (h : Traced items s t calls)
include h

/-- Calls return one matcher exactly for one text. -/
lemma given_eq_iff (ht : t.Closed) {c d : ItemCall} (hc : c ∈ calls) (hd : d ∈ calls) :
    c.given = d.given ↔ c.item.body = d.item.body :=
  ht.entries_inj (h.given c hc) (h.given d hd)

lemma exists_maker (hs : s.entries = []) {c : ItemCall} (hc : c ∈ calls) :
    ∃ m ∈ calls, m.makes = true ∧ m.given = c.given := by
  have hmem := h.given c hc
  rw [h.made, hs, List.nil_append] at hmem
  obtain ⟨m,hm,hentry⟩ := List.mem_map.mp hmem
  obtain ⟨hm,hmakes⟩ := List.mem_filter.mp hm
  exact ⟨m,hm,hmakes,(Prod.mk.inj hentry).1⟩

lemma maker_unique (ht : t.Closed) {m n : ItemCall} (hm : m ∈ calls) (hn : n ∈ calls)
    (hmade : m.makes = true) (hmade' : n.makes = true) (hgiven : m.given = n.given) : m = n := by
  have hnodup := ht.nodup_entries
  rw [h.made, List.map_append, List.map_map] at hnodup
  exact List.inj_on_of_nodup_map (List.Nodup.of_append_right hnodup)
    (List.mem_filter.mpr ⟨hm,hmade⟩) (List.mem_filter.mpr ⟨hn,hmade'⟩)
    ((h.given_eq_iff ht hm hn).mp hgiven)

/-- If nothing is conflated, the maker of any returned matcher has the item that was asked for. -/
lemma core_maker (ht : t.Closed) (hf : ItemCall.Faithful calls) {c m : ItemCall} (hc : c ∈ calls)
    (hm : m ∈ calls) (hmade : m.makes = true) (hgiven : m.given = c.given) :
    m.item.core = c.item.core := by
  cases hmakes : c.makes with
  | false => exact hf c hc hmakes m hm hmade hgiven
  | true => rw [h.maker_unique ht hm hc hmade hmakes hgiven]

/-- If nothing is conflated, every tested part of an item that is asked for is asked for too, though
perhaps as a part of another item: the parts of an item whose matcher is there are not looked at,
but those of the item that the matcher was made from were. -/
lemma exists_call (hs : s.entries = []) (ht : t.Closed) (hf : ItemCall.Faithful calls)
    {c : ItemCall} (hc : c ∈ calls) {k : Item} (hk : k ∈ c.item.testedParts) :
    ∃ d ∈ calls, d.item.core = k.core := by
  induction hn : c.item.body.length using Nat.strongRecOn generalizing c k with
  | ind n ih =>
    obtain ⟨m,hm,hmade,hgiven⟩ := h.exists_maker hs hc
    have hcore := h.core_maker ht hf hc hm hmade hgiven
    obtain ⟨l,hl,hlk⟩ := Item.mem_testedParts_of_core_eq hcore.symm hk
    rcases Item.mem_testedParts.mp hl with rfl | ⟨j,hj,hl⟩
    · exact ⟨m,hm,hlk⟩
    · obtain ⟨d,hd,rfl⟩ := List.mem_map.mp (h.inside m hm hmade hj)
      have hlt : d.item.body.length < n := by
        rw [← hn, ← (h.given_eq_iff ht hm hc).mp hgiven]
        exact Item.length_body_lt (Item.mem_inner_of_mem_testedInner hj)
      obtain ⟨e,he,hel⟩ := ih _ hlt hd hl rfl
      exact ⟨e,he,hel.trans hlk⟩

/-- Sharing conflates nothing exactly if the texts of the tested parts tell them apart. -/
theorem faithful_iff (hs : s.entries = []) (ht : t.Closed) :
    ItemCall.Faithful calls ↔ Item.TextsTell (items.flatMap Item.testedParts) := by
  constructor
  · intro hf
    have hcall : ∀ i ∈ items.flatMap Item.testedParts, ∃ d ∈ calls, d.item.core = i.core := by
      intro i hi
      obtain ⟨top,htop,hi⟩ := List.mem_flatMap.mp hi
      obtain ⟨c,hc,rfl⟩ := List.mem_map.mp (h.called htop)
      exact h.exists_call hs ht hf hc hi
    intro i hi j hj hbody
    obtain ⟨c,hc,hci⟩ := hcall i hi
    obtain ⟨d,hd,hdj⟩ := hcall j hj
    have hgiven : c.given = d.given := by
      rw [h.given_eq_iff ht hc hd, ← c.item.body_core, hci, ← d.item.body_core, hdj,
        i.body_core, j.body_core, hbody]
    obtain ⟨m,hm,hmade,hmc⟩ := h.exists_maker hs hc
    calc i.core = c.item.core := hci.symm
      _ = m.item.core := (h.core_maker ht hf hc hm hmade hmc).symm
      _ = d.item.core := h.core_maker ht hf hd hm hmade (hmc.trans hgiven)
      _ = j.core := hdj
  · intro htell c hc _ m hm _ hgiven
    exact htell _ (h.tested (List.mem_map_of_mem hm)) _ (h.tested (List.mem_map_of_mem hc))
      ((h.given_eq_iff ht hm hc).mp hgiven)

end Traced

/-- Every matcher of a language is made by one call, and returned for every item of its text. It is
returned only for the item that it was made from, up to places and the item's own mode, exactly if
the texts of the tested parts of all left sides tell these apart. They do if types are named by
identifiers. -/
theorem rulesCalls_faithful_iff (f : RuleFile) (h : Option Hierarchy) (config : Config)
    (symbols : SymbolTable) (name : String) :
    let s := start name h config symbols
    let calls := rulesCalls (f.rulesOf name) s
    let parts := (patternItems (f.rulesOf name)).flatMap Item.testedParts
    (∀ t, s.compileRules (f.rulesOf name) = .ok t →
      t.finish.matcherList.map (fun m => (m.id,m.key)) =
        (calls.filter ItemCall.makes).map ItemCall.entry) ∧
      (∀ c ∈ calls, ∃! m, m ∈ calls ∧ m.makes = true ∧ m.given = c.given) ∧
      (∀ c ∈ calls, ∀ d ∈ calls, c.given = d.given ↔ c.item.body = d.item.body) ∧
      (ItemCall.Faithful calls ↔ Item.TextsTell parts) ∧
      ((∀ r ∈ f.rulesOf name, ∀ i ∈ r.pattern, i.HasIdentifiers) → ItemCall.Faithful calls) := by
  intro s calls parts
  obtain ⟨t,ht,htraced,hend⟩ := traced_rules (f.rulesOf name) (closed_start name h config symbols)
  have hiff : ItemCall.Faithful calls ↔ Item.TextsTell parts := htraced.faithful_iff rfl ht
  refine ⟨fun u hu => ?_,fun c hc => ?_,fun c hc d hd => htraced.given_eq_iff ht hc hd,hiff,
    fun hident => hiff.mpr fun i hi j hj hbody => ?_⟩
  · rw [hend u hu]
    exact htraced.made
  · obtain ⟨m,hm,hmade,hgiven⟩ := htraced.exists_maker rfl hc
    refine ⟨m,⟨hm,hmade,hgiven⟩,fun n hn => ?_⟩
    exact htraced.maker_unique ht hn.1 hm hn.2.1 hmade (hn.2.2.trans hgiven.symm)
  · have hparts : ∀ i ∈ parts, i.HasIdentifiers := by
      intro i hi
      obtain ⟨top,htop,hi⟩ := List.mem_flatMap.mp hi
      obtain ⟨r,hr,htop⟩ := List.mem_flatMap.mp htop
      exact (hident r (List.takeWhile_subset _ hr) top htop).testedPart hi
    exact Item.core_eq_of_body_eq (hparts i hi) (hparts j hj) hbody

namespace Sample

/-- Two rules, for nodes of type `A#1` and of type `A`: both left sides read `A#1`. -/
def oneText : RuleFile :=
  ⟨[⟨"default",none,
    [⟨[.fixed (.plain .none) "A#1" none []],.null .none,.none⟩,
    ⟨[.typedHole (.plain .none) "A" ⟨1⟩ false],.hole .none ⟨1⟩,.none⟩]⟩]⟩

/-- The rule `A#1, [A#1] -> #1;`, both items of type `A`. -/
def oneItem : RuleFile :=
  ⟨[⟨"default",none,
    [⟨[.typedHole (.plain .none) "A" ⟨1⟩ false,.typedHole ⟨.optional,false,.none⟩ "A" ⟨1⟩ false],
      .hole .none ⟨1⟩,.none⟩]⟩]⟩

/-- The calls of a file with one language and no declared types. -/
def callsOf (f : RuleFile) : List ItemCall :=
  rulesCalls (f.rulesOf "default") (start "default" none .default .empty)

end Sample

open Sample in
/-- The checks find nothing in the first file, but its second rule gets the matcher of the first and
does not apply to a node of its type. In the other file one item stands twice and rightly shares its
matcher. -/
theorem oneText_conflated :
    oneText.check none = [] ∧ (callsOf oneText).map ItemCall.makes = [true,false] ∧
      ¬ ItemCall.Faithful (callsOf oneText) ∧
      (∃ p e, oneText.compile none .default = .ok p ∧ Engine.ofProgram? p "default" = some e ∧
        e.applyAt .free [.node "A" none [] none] 0 = none) ∧
      (callsOf oneItem).map ItemCall.makes = [true,false] ∧
      ItemCall.Faithful (callsOf oneItem) := by
  refine ⟨rfl,rfl,?_,⟨_,_,rfl,rfl,rfl⟩,rfl,?_⟩
  · obtain ⟨-,-,-,hiff,-⟩ := rulesCalls_faithful_iff oneText none .default .empty "default"
    intro hf
    have hcore := hiff.mp hf (.fixed (.plain .none) "A#1" none []) (.head _)
      (.typedHole (.plain .none) "A" ⟨1⟩ false) (.tail _ (.head _)) rfl
    cases hcore
  · obtain ⟨-,-,-,-,hident⟩ := rulesCalls_faithful_iff oneItem none .default .empty "default"
    apply hident
    simp [oneItem, RuleFile.rulesOf, Item.HasIdentifiers, Item.parts, Item.type?,
      Item.IsIdentifier, Lexer.isIdStart]

end Compilation
end TreeRules
