import TreeRules.Proofs.Compile.Closed
import TreeRules.Proofs.Program.Indexed
import TreeRules.Proofs.Strategy.Division
import Mathlib.Data.List.Nodup

/-! Every call on a session keeps the tables closed, and keeps the entries that are there where they
are. -/
namespace TreeRules
namespace Compilation

variable {s t u : Compilation}

/-- The entries of all tables stay, with their numbers. -/
structure KeepsTo (s t : Compilation) : Prop where
  matchers : s.finish.matcherList <+: t.finish.matcherList
  builders : s.finish.builderList <+: t.finish.builderList
  rules : s.finish.rules <+: t.finish.rules
  symbols : s.symbols.names <+: t.symbols.names

namespace KeepsTo

lemma refl (s : Compilation) : s.KeepsTo s :=
  ⟨List.prefix_refl _,List.prefix_refl _,List.prefix_refl _,List.prefix_refl _⟩

lemma trans (h : s.KeepsTo t) (h' : t.KeepsTo u) : s.KeepsTo u :=
  ⟨h.matchers.trans h'.matchers,h.builders.trans h'.builders,h.rules.trans h'.rules,
    h.symbols.trans h'.symbols⟩

lemma suffix_builders (h : s.KeepsTo t) : s.builders <:+ t.builders :=
  List.reverse_prefix.mp h.builders

/-- Steps that add symbols only. -/
lemma withSymbols (s : Compilation) {v : SymbolTable} (hv : s.symbols.names <+: v.names) :
    s.KeepsTo { s with symbols := v } :=
  ⟨List.prefix_refl _,List.prefix_refl _,List.prefix_refl _,hv⟩

end KeepsTo

lemma Adds.keepsTo {n : Nat} (h : Adds n s t) : s.KeepsTo t := by
  refine ⟨List.reverse_prefix.mpr h.matchers,?_,?_,h.symbols⟩
  · change s.builders.reverse <+: t.builders.reverse
    exact h.builders ▸ List.prefix_refl _
  · change s.rules <+: t.rules
    exact h.rules ▸ List.prefix_refl _

/-! Right sides. -/

lemma Closed.insertBuilder (hs : s.Closed) {type : Symbol} (ht : type < s.symbols.size)
    (data : Option Datum) {children : List Builder.Source}
    (hc : ∀ id, .builder id ∈ children → id < s.builders.length) (needsCaptures : Bool) :
    (s.insertBuilder type data children needsCaptures).2.Closed := by
  refine ⟨hs.matcherIds,byPlace_reverse_cons.mpr ⟨hs.builderIds,rfl⟩,hs.ruleIds,hs.keys,
    hs.dependencies,hs.matcherSymbols,?_,?_,hs.checkers,fun r hr id hid => ?_⟩
  · intro b hb
    rcases List.mem_cons.mp (List.mem_reverse.mp hb) with rfl | hb
    · exact hc
    · exact hs.sources b (List.mem_reverse.mpr hb)
  · intro b hb
    rcases List.mem_cons.mp (List.mem_reverse.mp hb) with rfl | hb
    · exact ht
    · exact hs.builderSymbols b (List.mem_reverse.mpr hb)
  · have hlt := hs.results r hr id hid
    rw [Language.builderList, List.length_reverse] at hlt ⊢
    exact Nat.lt_succ_of_lt hlt

lemma keepsTo_insertBuilder (s : Compilation) (type : Symbol) (data : Option Datum)
    (children : List Builder.Source) (needsCaptures : Bool) :
    s.KeepsTo (s.insertBuilder type data children needsCaptures).2 :=
  ⟨List.prefix_refl _,List.reverse_prefix.mpr (List.suffix_cons _ _),List.prefix_refl _,
    List.prefix_refl _⟩

mutual

/-- A right side keeps the tables closed, and the builder that it comes to is there. -/
lemma compileTemplate_closes : ∀ (r : Template) (s : Compilation), s.Closed →
    (compileTemplate r s).2.Closed ∧ s.KeepsTo (compileTemplate r s).2 ∧
      ∀ id, (compileTemplate r s).1.source = .builder id →
        id < (compileTemplate r s).2.builders.length
  | .null _, s, hs => ⟨hs,.refl s,fun id h => by cases h⟩
  | .hole _ _, s, hs => ⟨hs,.refl s,fun id h => by cases h⟩
  | .subtree _ type data children, s, hs => by
    obtain ⟨hbelow,hkeep,hlt⟩ := compileTemplates_closes children s hs
    have hsize := (compileTemplates children s).2.symbols.lt_size_intern type
    have hintern := KeepsTo.withSymbols (compileTemplates children s).2
      (SymbolTable.names_isPrefix_intern _ type)
    rw [compileTemplate]
    refine ⟨(hbelow.intern type).insertBuilder hsize data hlt _,
      (hkeep.trans hintern).trans (keepsTo_insertBuilder _ _ _ _ _),fun id hid => ?_⟩
    cases hid
    exact Nat.lt_succ_self _

lemma compileTemplates_closes : ∀ (rs : List Template) (s : Compilation), s.Closed →
    (compileTemplates rs s).2.Closed ∧ s.KeepsTo (compileTemplates rs s).2 ∧
      ∀ id, .builder id ∈ (compileTemplates rs s).1.source →
        id < (compileTemplates rs s).2.builders.length
  | [], s, hs => ⟨hs,.refl s,fun id h => by cases h⟩
  | r :: rs, s, hs => by
    obtain ⟨hfirst,hkeep,hlt⟩ := compileTemplate_closes r s hs
    obtain ⟨hrest,hkeep',hlt'⟩ := compileTemplates_closes rs _ hfirst
    rw [compileTemplates]
    refine ⟨hrest,hkeep.trans hkeep',fun id hid => ?_⟩
    rcases List.mem_cons.mp hid with hid | hid
    · exact Nat.lt_of_lt_of_le (hlt id hid.symm) hkeep'.suffix_builders.length_le
    · exact hlt' id hid

end

lemma compileResult_closes (r : Template) (hs : s.Closed) :
    (s.compileResult r).2.Closed ∧ s.KeepsTo (s.compileResult r).2 ∧
      ∀ id, (s.compileResult r).1 = .subtree id → id < (s.compileResult r).2.builders.length := by
  obtain ⟨hclosed,hkeep,hlt⟩ := compileTemplate_closes r s hs
  refine ⟨hclosed,hkeep,fun id hid => hlt id ?_⟩
  change rightSide (compileTemplate r s).1.source = .subtree id at hid
  cases hsource : (compileTemplate r s).1.source with
  | hole h | null =>
    rw [hsource] at hid
    cases hid
  | builder id' =>
    rw [hsource] at hid
    cases hid
    rfl

/-! Rules. -/

lemma compileCheckers_closes (items : List Item) (names : List String) (hs : s.Closed) :
    (compileCheckers items names s).2.Closed ∧ s.KeepsTo (compileCheckers items names s).2 ∧
      ∀ c ∈ (compileCheckers items names s).1,
        c.matcher < (compileCheckers items names s).2.finish.matcherList.length := by
  induction items generalizing names s with
  | nil => exact ⟨hs,.refl s,fun _ h => (List.not_mem_nil h).elim⟩
  | cons i items ih =>
    cases names with
    | nil => exact ⟨hs,.refl s,fun _ h => (List.not_mem_nil h).elim⟩
    | cons name names =>
      obtain ⟨hfirst,hlt,hadds⟩ := closesItem i s hs
      obtain ⟨hrest,hkeep,hlts⟩ := ih names hfirst
      rw [compileCheckers]
      refine ⟨hrest,hadds.keepsTo.trans hkeep,fun c hc => ?_⟩
      rcases List.mem_cons.mp hc with rfl | hc
      · have hle := hkeep.matchers.length_le
        rw [Language.matcherList, List.length_reverse] at hle
        exact Nat.lt_of_lt_of_le hlt hle
      · exact hlts c hc

lemma Closed.insertRule (hs : s.Closed) {c : CompiledRule} (hid : c.id = s.nextRule)
    (hc : ∀ k ∈ c.strategy.checkers, k.matcher < s.finish.matcherList.length)
    (hr : ∀ id, c.result = .subtree id → id < s.finish.builderList.length) :
    (s.insertRule c).Closed := by
  refine ⟨hs.matcherIds,hs.builderIds,byPlace_append_singleton.mpr ⟨hs.ruleIds,hid⟩,hs.keys,
    hs.dependencies,hs.matcherSymbols,hs.sources,hs.builderSymbols,fun r hmem => ?_,
    fun r hmem => ?_⟩
  · rcases List.mem_append.mp hmem with hmem | hmem
    · exact hs.checkers r hmem
    · obtain rfl := List.mem_singleton.mp hmem
      exact hc
  · rcases List.mem_append.mp hmem with hmem | hmem
    · exact hs.results r hmem
    · obtain rfl := List.mem_singleton.mp hmem
      exact hr

lemma keepsTo_insertRule (s : Compilation) (c : CompiledRule) : s.KeepsTo (s.insertRule c) :=
  ⟨List.prefix_refl _,List.prefix_refl _,List.prefix_append _ _,List.prefix_refl _⟩

lemma compileRule_closes {r : Rule} (h : s.compileRule r = .ok t) (hs : s.Closed) :
    t.Closed ∧ s.KeepsTo t := by
  unfold compileRule at h
  cases hc : s.compileStrategy r with
  | error e =>
    rw [hc] at h
    cases h
  | ok made =>
    obtain ⟨strategy,mid⟩ := made
    rw [hc] at h
    cases h
    obtain ⟨-,rfl,rfl⟩ := compileStrategy_cases hc
    obtain ⟨hleft,hkeep,hlt⟩ := compileCheckers_closes r.pattern Strategy.ordinals hs
    obtain ⟨hright,hkeep',hres⟩ := compileResult_closes r.result hleft
    refine ⟨hright.insertRule rfl (fun k hk => ?_) (fun id hid => ?_),
      (hkeep.trans hkeep').trans (keepsTo_insertRule _ _)⟩
    · rw [Strategy.checkers_select] at hk
      exact Nat.lt_of_lt_of_le (hlt k hk) hkeep'.matchers.length_le
    · rw [Language.builderList, List.length_reverse]
      exact hres id hid

lemma compileStrategy_closes {r : Rule} {strategy : Strategy}
    (h : s.compileStrategy r = .ok (strategy,t)) (hs : s.Closed) : t.Closed ∧ s.KeepsTo t := by
  obtain ⟨-,-,rfl⟩ := compileStrategy_cases h
  obtain ⟨hclosed,hkeep,-⟩ := compileCheckers_closes r.pattern Strategy.ordinals hs
  exact ⟨hclosed,hkeep⟩

/-- Whatever is compiled, the tables stay closed and their entries stay. -/
lemma Reaches.closes {P : Item → Prop} (h : s.Reaches P t) (hs : s.Closed) :
    t.Closed ∧ s.KeepsTo t := by
  induction h with
  | refl => exact ⟨hs,.refl s⟩
  | tail _ hstep ih =>
    obtain ⟨hmid,hkeep⟩ := ih
    cases hstep with
    | @item i _ =>
      obtain ⟨hclosed,-,hadds⟩ := closesItem i _ hmid
      exact ⟨hclosed,hkeep.trans hadds.keepsTo⟩
    | result r =>
      obtain ⟨hclosed,hkeep',-⟩ := compileResult_closes r hmid
      exact ⟨hclosed,hkeep.trans hkeep'⟩
    | strategy _ hc =>
      obtain ⟨hclosed,hkeep'⟩ := compileStrategy_closes hc hmid
      exact ⟨hclosed,hkeep.trans hkeep'⟩
    | rule _ hc =>
      obtain ⟨hclosed,hkeep'⟩ := compileRule_closes hc hmid
      exact ⟨hclosed,hkeep.trans hkeep'⟩

/-! Calls. -/

lemma after_closes (hs : s.Closed) (call : Call) :
    (s.after call).Closed ∧ s.KeepsTo (s.after call) := by
  cases call with
  | intern name => exact ⟨hs.intern name,.withSymbols s (s.symbols.names_isPrefix_intern name)⟩
  | typeTest name => exact ⟨hs.typeTest name,(adds_typeTest 0 s name).keepsTo⟩
  | lookup key => exact ⟨hs,.refl s⟩
  | item i =>
    obtain ⟨hclosed,-,hadds⟩ := closesItem i s hs
    exact ⟨hclosed,hadds.keepsTo⟩
  | result r =>
    obtain ⟨hclosed,hkeep,-⟩ := compileResult_closes r hs
    exact ⟨hclosed,hkeep⟩
  | rule r =>
    change ((ruleSteps r).run.run s).2.Closed ∧ s.KeepsTo ((ruleSteps r).run.run s).2
    rw [run_ruleSteps]
    cases hc : s.compileRule r with
    | ok t => exact compileRule_closes hc hs
    | error e => exact ⟨hs,.refl s⟩

/-- Whatever calls are made, the tables stay closed and their entries stay. -/
theorem afterAll_closes (hs : s.Closed) (calls : List Call) :
    (s.afterAll calls).Closed ∧ s.KeepsTo (s.afterAll calls) := by
  induction calls generalizing s with
  | nil => exact ⟨hs,.refl s⟩
  | cons call calls ih =>
    obtain ⟨hfirst,hkeep⟩ := after_closes hs call
    obtain ⟨hrest,hkeep'⟩ := ih hfirst
    exact ⟨hrest,hkeep.trans hkeep'⟩

lemma closed_start (language : String) (h : Option Hierarchy) (config : Config)
    (symbols : SymbolTable) : (start language h config symbols).Closed := by
  refine ⟨byPlace_nil,byPlace_nil,byPlace_nil,List.nodup_nil,?_,?_,?_,?_,?_,?_⟩ <;>
    exact fun _ h => (List.not_mem_nil h).elim

/-- Keys differ, so a text is found where its matcher is. -/
lemma Closed.lookup?_eq_some (hs : s.Closed) {key : String} {id : Matcher.Id} :
    s.lookup? key = some id ↔ ∃ m, s.finish.matcherList[id]? = some m ∧ m.key = key := by
  unfold lookup?
  constructor
  · intro h
    obtain ⟨m,hm,rfl⟩ := Option.map_eq_some_iff.mp h
    obtain ⟨place,hplace⟩ := List.mem_iff_getElem?.mp
      (List.mem_reverse.mpr (List.mem_of_find?_eq_some hm))
    have hid : m.id = place := hs.matcherIds place m hplace
    exact ⟨m,hid ▸ hplace,by simpa using List.find?_some hm⟩
  · rintro ⟨m,hm,rfl⟩
    have hmem : m ∈ s.matchers := List.mem_reverse.mp (List.mem_of_getElem? hm)
    obtain ⟨found,hfound⟩ : ∃ found, s.matchers.find? (·.key == m.key) = some found :=
      Option.isSome_iff_exists.mp (List.find?_isSome.mpr ⟨m,hmem,beq_self_eq_true _⟩)
    have hkey : found.key = m.key := by simpa using List.find?_some hfound
    rw [hfound, List.inj_on_of_nodup_map hs.keys (List.mem_of_find?_eq_some hfound) hmem hkey]
    exact congrArg some (hs.matcherIds id m hm)

/-- Whatever calls are made on a session, its tables are closed, a text is found where its matcher
is, the entries stay when more calls are made, a rule that is refused changes nothing, and every run
by numbers comes to an end, over the symbols of any later time. -/
theorem afterAll_closed_runs (language : String) (h : Option Hierarchy) (config : Config)
    (symbols : SymbolTable) (calls more : List Call) :
    let s := (start language h config symbols).afterAll calls
    s.finish.Closed s.symbols ∧
      (∀ key id, s.lookup? key = some id ↔
        ∃ m, s.finish.matcherList[id]? = some m ∧ m.key = key) ∧
      s.KeepsTo (s.afterAll more) ∧
      (∀ r e, s.compileRule r = .error e → s.after (.rule r) = s) ∧
      ∀ u, (s.afterAll more).symbols.names <+: u.names → s.finish.Runs u := by
  intro s
  obtain ⟨hs,-⟩ := afterAll_closes (closed_start language h config symbols) calls
  obtain ⟨-,hmore⟩ := afterAll_closes hs more
  refine ⟨hs,fun key id => hs.lookup?_eq_some,hmore,fun r e he => ?_,fun u hu => ?_⟩
  · rw [after, run_ruleSteps, he]
  · exact (Language.Closed.mono hs (hmore.symbols.trans hu)).runs

/-- A rule of as many items as are wanted, that makes a node of a new type. -/
def Sample.ruleOf (items : Nat) : Rule :=
  ⟨List.replicate items (.fixed (.plain .none) "A" none []),.subtree .none "B" none [],.none⟩

/-- One rule is compiled, the next has more items than there are names for. -/
theorem tooLong_changes_nothing :
    let s := (start "default" none .default .empty).afterAll [.rule (Sample.ruleOf 1)]
    s.finish.rules.length = 1 ∧ s.after (.rule (Sample.ruleOf 21)) = s ∧
      s.finish.Runs s.symbols := by
  obtain ⟨-,-,-,hrefused,hruns⟩ := afterAll_closed_runs "default" none .default .empty
    [.rule (Sample.ruleOf 1)] []
  exact ⟨rfl,hrefused (Sample.ruleOf 21) _ rfl,hruns _ (List.prefix_refl _)⟩

end Compilation
end TreeRules
