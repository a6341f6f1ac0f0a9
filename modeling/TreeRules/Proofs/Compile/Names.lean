import TreeRules.Proofs.Compile.Calls
import TreeRules.Proofs.Rule.Words
import TreeRules.Proofs.Text.Quote
import Mathlib.Data.List.Nodup

/-! Names of matchers. A name tells its base and its number: what stands behind the last letter is
the number, and what stands before the fixed word is the base, whatever the base looks like. No base
gets a number twice, so no two matchers of a session have one name. -/
namespace TreeRules

namespace NamePool

/-- The number in a name; the first matcher of a base has none. -/
def numeral (count : Nat) : List Char := if count = 1 then [] else Nat.toDigits 10 count

lemma toList_matcherName (base : String) (count : Nat) :
    (matcherName base count).toList = base.toList ++ "Matcher".toList ++ numeral count := by
  rw [matcherName, numeral, String.toList_append, String.toList_append]
  split_ifs
  · rfl
  · rw [Nat.toString_eq_repr, Nat.toList_repr]

lemma isDigit_of_mem_numeral {count : Nat} : ∀ c ∈ numeral count, c.isDigit = true := by
  intro c hc
  unfold numeral at hc
  split_ifs at hc
  · cases hc
  · exact Nat.isDigit_of_mem_toDigits (by omega) (by omega) hc

lemma numeral_inj {m n : Nat} (h : numeral m = numeral n) : m = n := by
  have hdigits : ∀ k, Nat.toDigits 10 k ≠ [] := fun k =>
    List.ne_nil_of_length_pos Nat.length_toDigits_pos
  unfold numeral at h
  split_ifs at h with hm hn hn
  · rw [hm, hn]
  · exact absurd h.symm (hdigits n)
  · exact absurd h (hdigits m)
  · exact Text.toDigits_inj (by omega) (by omega) h

/-- A name determines its base and its number. -/
theorem matcherName_inj {base base' : String} {m n : Nat}
    (h : matcherName base m = matcherName base' n) : base = base' ∧ m = n := by
  have hlist := congrArg (fun name => name.toList.reverse) h
  simp only [toList_matcherName, List.reverse_append] at hlist
  -- read from its end, a name is a run of digits up to a letter
  have hdigits : ∀ k, ∀ c ∈ (numeral k).reverse, c.isDigit = true :=
    fun k c hc => isDigit_of_mem_numeral c (List.mem_reverse.mp hc)
  have hstop : ∀ rest, Text.StopsAt Char.isDigit ("Matcher".toList.reverse ++ rest) := by
    rintro rest c ⟨rfl⟩
    decide
  obtain ⟨hnumeral,hfront⟩ :=
    Text.run_append_inj (hdigits m) (hdigits n) (hstop _) (hstop _) hlist
  have hbase : base.toList = base'.toList :=
    List.reverse_injective (List.append_cancel_left hfront)
  exact ⟨String.toList_inj.mp hbase,numeral_inj (List.reverse_injective hnumeral)⟩

/-- The names that are still to be taken have higher numbers than those of their bases before. -/
lemma exists_of_mem_takeAll {p : NamePool} {bases : List String} {name : String}
    (h : name ∈ p.takeAll bases) :
    ∃ base count, p.used.count base < count ∧ name = matcherName base count := by
  induction bases generalizing p with
  | nil => cases h
  | cons base bases ih =>
    rcases List.mem_cons.mp h with rfl | h
    · exact ⟨base,_,Nat.lt_succ_self _,rfl⟩
    · obtain ⟨other,count,hcount,rfl⟩ := ih h
      exact ⟨other,count,Nat.lt_of_le_of_lt List.count_le_count_cons hcount,rfl⟩

/-- Names that are taken from one pool differ. -/
theorem nodup_takeAll (p : NamePool) (bases : List String) : (p.takeAll bases).Nodup := by
  induction bases generalizing p with
  | nil => exact List.nodup_nil
  | cons base bases ih =>
    refine List.nodup_cons.mpr ⟨fun hmem => ?_,ih _⟩
    obtain ⟨other,count,hcount,hname⟩ := exists_of_mem_takeAll hmem
    obtain ⟨rfl,rfl⟩ := matcherName_inj hname
    rw [take, List.count_cons_self] at hcount
    exact Nat.lt_irrefl _ hcount

lemma takeAll_append_singleton (p : NamePool) (bases : List String) (base : String) :
    p.takeAll (bases ++ [base]) =
      p.takeAll bases ++ [matcherName base (p.used.count base + bases.count base + 1)] := by
  induction bases generalizing p with
  | nil => simp [takeAll, take]
  | cons other bases ih =>
    simp only [List.cons_append, takeAll, ih, take, List.count_cons]
    congr 4
    omega

end NamePool

namespace Compilation

open Matcher (Parts)

variable {P : Compilation → Prop}

/-- What holds of a session however its tables grow by one entry. -/
structure Kept (P : Compilation → Prop) : Prop where
  symbols : ∀ {s : Compilation} (v : SymbolTable), P s → P { s with symbols := v }
  insertItem : ∀ {s : Compilation} (i : Item) (parts : Parts), P s → P (s.insertItem i parts).2
  insertBuilder : ∀ {s : Compilation} (type : Symbol) (data : Option Datum)
    (children : List Builder.Source) (needsCaptures : Bool),
    P s → P (s.insertBuilder type data children needsCaptures).2
  insertRule : ∀ {s : Compilation} (r : CompiledRule), P s → P (s.insertRule r)

namespace Kept

variable (hP : Kept P) {s : Compilation}
include hP

lemma typeTest (name : String) (hs : P s) : P (s.typeTest name).2 := by
  rw [typeTest_eq]
  exact hP.symbols _ hs

lemma share {compile : Compilation → Parts × Compilation} (hc : P s → P (compile s).2) (i : Item)
    (hs : P s) : P (s.share i compile).2 := by
  rw [Compilation.share]
  split
  · exact hs
  · exact hP.insertItem i _ (hc hs)

lemma compileChildren {items : List Item}
    (ih : ∀ i ∈ items, ∀ s : Compilation, P s → P (compileItem i s).2) (index : Nat) (hs : P s) :
    P (compileChildren index items s).2 := by
  induction items generalizing index s with
  | nil => exact hs
  | cons i items ihi =>
    rw [List.forall_mem_cons] at ih
    rw [compileChildren_cons]
    refine ihi ih.2 _ ?_
    rw [compileChild]
    cases i.childRole with
    | any h | remaining h | free => exact hs
    | remainingOf type h => exact hP.typeTest type hs
    | captured h | nested => exact ih.1 s hs

omit hP in
lemma compileItems {items : List Item}
    (ih : ∀ i ∈ items, ∀ s : Compilation, P s → P (compileItem i s).2) (hs : P s) :
    P (compileItems items s).2 := by
  induction items generalizing s with
  | nil => exact hs
  | cons i items ihi =>
    rw [List.forall_mem_cons] at ih
    rw [Compilation.compileItems]
    exact ihi ih.2 (ih.1 s hs)

lemma compileItem (i : Item) : ∀ s : Compilation, P s → P (compileItem i s).2 := by
  induction i using Item.ind with
  | fixed t type data children ih =>
    intro s
    rw [Compilation.compileItem]
    exact hP.share (fun hs => hP.compileChildren ih 0 (hP.typeTest type hs)) _
  | typedHole t type hole ellipsis =>
    intro s
    rw [Compilation.compileItem]
    exact hP.share (hP.typeTest type) _
  | anyOf t items ih | allOf t items ih =>
    intro s
    rw [Compilation.compileItem]
    exact hP.share (compileItems ih) _
  | untypedHole | symbolRange | rest =>
    intro s
    rw [Compilation.compileItem]
    exact hP.share (fun hs => hs) _

omit hP in
lemma compileTemplates {templates : List Template}
    (ih : ∀ t ∈ templates, ∀ s : Compilation, P s → P (compileTemplate t s).2) (hs : P s) :
    P (compileTemplates templates s).2 := by
  induction templates generalizing s with
  | nil => exact hs
  | cons t templates iht =>
    rw [List.forall_mem_cons] at ih
    rw [Compilation.compileTemplates]
    exact iht ih.2 (ih.1 s hs)

lemma compileTemplate (t : Template) : ∀ s : Compilation, P s → P (compileTemplate t s).2 := by
  induction t using Template.ind with
  | subtree span type data children ih =>
    intro s hs
    rw [Compilation.compileTemplate]
    exact hP.insertBuilder _ _ _ _ (hP.symbols _ (compileTemplates ih hs))
  | hole | null => exact fun s hs => hs

lemma compileCheckers (items : List Item) (names : List String) (hs : P s) :
    P (compileCheckers items names s).2 := by
  induction items generalizing names s with
  | nil => exact hs
  | cons i items ih =>
    cases names with
    | nil => exact hs
    | cons name names =>
      rw [Compilation.compileCheckers]
      exact ih names (hP.compileItem i s hs)

lemma compileRule {r : Rule} {t : Compilation} (h : s.compileRule r = .ok t) (hs : P s) : P t := by
  obtain ⟨strategy,mid,hstrategy,c,rfl⟩ := compileRule_cases h
  obtain ⟨-,-,rfl⟩ := compileStrategy_cases hstrategy
  apply hP.insertRule
  apply hP.compileTemplate
  exact hP.compileCheckers _ _ hs

/-- A call keeps it; a rule that is refused changes nothing. -/
lemma after (call : Call) (hs : P s) : P (s.after call) := by
  cases call with
  | intern name => exact hP.symbols _ hs
  | typeTest name => exact hP.typeTest name hs
  | lookup key => exact hs
  | item i => exact hP.compileItem i s hs
  | result t => exact hP.compileTemplate t s hs
  | rule r =>
    change P ((ruleSteps r).run.run s).2
    rw [run_ruleSteps]
    cases hc : s.compileRule r with
    | ok t => exact hP.compileRule hc hs
    | error e => exact hs

/-- Whatever calls are made, it is kept. -/
theorem afterAll (calls : List Call) (hs : P s) : P (s.afterAll calls) := by
  induction calls generalizing s with
  | nil => exact hs
  | cons call calls ih => exact ih (hP.after call hs)

end Kept

/-- The names of the matchers, by number, are drawn in turn for the items that they are made of. -/
structure Drawn (s : Compilation) (items : List Item) : Prop where
  keys : s.finish.matcherList.map Matcher.key = items.map Item.body
  names : s.finish.matcherList.map Matcher.name = NamePool.empty.takeAll (items.map Item.baseName)
  used : s.names.used = (items.map Item.baseName).reverse

lemma drawn_start (language : String) (h : Option Hierarchy) (config : Config)
    (symbols : SymbolTable) : (start language h config symbols).Drawn [] := ⟨rfl,rfl,rfl⟩

/-- One more item takes the next name of its base. -/
lemma Drawn.insertItem {s : Compilation} {items : List Item} (hs : s.Drawn items) (i : Item)
    (parts : Parts) : (s.insertItem i parts).2.Drawn (items ++ [i]) := by
  have hlist : ∃ m : Matcher, (s.insertItem i parts).2.finish.matcherList =
      s.finish.matcherList ++ [m] ∧ m.key = i.body ∧
      m.name = NamePool.matcherName i.baseName (s.names.used.count i.baseName + 1) :=
    ⟨_,List.reverse_cons,rfl,rfl⟩
  obtain ⟨m,hm,hkey,hname⟩ := hlist
  refine ⟨?_,?_,?_⟩
  · rw [hm, List.map_append, List.map_append, hs.keys, List.map_singleton, hkey,
      List.map_singleton]
  · rw [hm, List.map_append, List.map_append, hs.names, List.map_singleton, hname, hs.used,
      List.count_reverse, List.map_singleton, NamePool.takeAll_append_singleton]
    simp [NamePool.empty]
  · rw [List.map_append, List.reverse_append, ← hs.used]
    rfl

lemma kept_drawn : Kept fun s => ∃ items, s.Drawn items where
  symbols _ := fun ⟨items,hs⟩ => ⟨items,hs.keys,hs.names,hs.used⟩
  insertItem i parts := fun ⟨items,hs⟩ => ⟨items ++ [i],hs.insertItem i parts⟩
  insertBuilder _ _ _ _ := fun ⟨items,hs⟩ => ⟨items,hs.keys,hs.names,hs.used⟩
  insertRule _ := fun ⟨items,hs⟩ => ⟨items,hs.keys,hs.names,hs.used⟩

/-- Whatever calls are made on a session, the names of its matchers are drawn in turn for the items
that they are made of, and no two of them are alike. -/
theorem nodup_names_afterAll (language : String) (h : Option Hierarchy) (config : Config)
    (symbols : SymbolTable) (calls : List Call) :
    let matchers := ((start language h config symbols).afterAll calls).finish.matcherList
    (matchers.map Matcher.name).Nodup ∧
      ∃ items : List Item, matchers.map Matcher.key = items.map Item.body ∧
        matchers.map Matcher.name = NamePool.empty.takeAll (items.map Item.baseName) := by
  intro matchers
  obtain ⟨items,hs⟩ := kept_drawn.afterAll calls ⟨[],drawn_start language h config symbols⟩
  refine ⟨?_,items,hs.keys,hs.names⟩
  rw [hs.names]
  exact NamePool.nodup_takeAll _ _

end Compilation
end TreeRules
