import TreeRules.Proofs.Compile.Program
import TreeRules.Proofs.Strategy.Division

/-! One pass over siblings. The loop goes by places in the whole list; what happens at a place
depends on the siblings from there on only, and every turn moves on, so the pass is a recursion on
what is left of the list. -/
namespace TreeRules

namespace Strategy

variable {symbols : SymbolTable} {table : List Matcher} {strategy : Strategy}
  {siblings : List Tree} {index : Nat} {c : Consumption}

/-- A run sees the siblings from its place on only. -/
lemma run_drop (symbols : SymbolTable) (table : List Matcher) (strategy : Strategy)
    (siblings : List Tree) (index : Nat) :
    strategy.run symbols table (siblings.drop index) 0 =
      strategy.run symbols table siblings index := by
  cases strategy <;> simp only [run, List.drop_zero]

lemma consumed_runSimple {cs : List Checker} (h : runSimple symbols table cs siblings = some c) :
    1 ≤ c.consumed ∧ c.consumed ≤ siblings.length := by
  unfold runSimple at h
  split_ifs at h with he
  dsimp only at h
  split_ifs at h
  cases h
  simp only [Bool.or_eq_true, List.isEmpty_iff, decide_eq_true_eq, not_or, Nat.not_lt] at he
  exact ⟨List.length_pos_iff.mpr he.1,he.2⟩

lemma consumed_runRepeated {k : Checker}
    (h : runRepeated symbols table k siblings = some c) :
    1 ≤ c.consumed ∧ c.consumed ≤ siblings.length := by
  unfold runRepeated at h
  simp only [List.isEmpty_iff] at h
  split_ifs at h with he
  cases h
  exact ⟨List.length_pos_iff.mpr he,(List.takeWhile_prefix _).length_le⟩

lemma consumed_runComplex {cs : List Checker}
    (h : runComplex symbols table cs siblings = some c) :
    1 ≤ c.consumed ∧ c.consumed ≤ siblings.length := by
  rw [runComplex_eq, runOn] at h
  obtain ⟨shares,hd,h⟩ := Option.bind_eq_some_iff.mp h
  split_ifs at h with h0
  cases h
  have hle := consumed_le hd
  change 1 ≤ consumed shares ∧ consumed shares ≤ siblings.length
  omega

/-- Every strategy takes one sibling at least, and no more than there are from its place on. -/
theorem consumed_run (h : strategy.run symbols table siblings index = some c) :
    1 ≤ c.consumed ∧ index + c.consumed ≤ siblings.length := by
  have hdrop : 1 ≤ c.consumed ∧ c.consumed ≤ (siblings.drop index).length := by
    cases strategy with
    | simple cs => exact consumed_runSimple h
    | repeated k => exact consumed_runRepeated h
    | complex cs => exact consumed_runComplex h
  rw [List.length_drop] at hdrop
  omega

end Strategy

namespace Engine

variable {e : Engine} {factory : Factory} {siblings : List Tree} {index : Nat} {a : Applied}

lemma coverOf_drop (siblings : List Tree) (index count : Nat) :
    coverOf (siblings.drop index) 0 count = coverOf siblings index count := by
  rw [coverOf, coverOf, List.drop_zero]

lemma tryMatch_drop (e : Engine) (r : CompiledRule) (h : index ≤ siblings.length) :
    e.tryMatch r (siblings.drop index) 0 = e.tryMatch r siblings index := by
  have hleft : 0 + r.minConsumed > (siblings.drop index).length ↔
      index + r.minConsumed > siblings.length := by
    rw [List.length_drop]
    omega
  simp only [tryMatch, hleft, runStrategy, Strategy.run_drop, coverOf_drop]

lemma applyRule_drop (e : Engine) (factory : Factory) (r : CompiledRule)
    (h : index ≤ siblings.length) :
    e.applyRule factory (siblings.drop index) 0 r = e.applyRule factory siblings index r := by
  simp only [applyRule, tryMatch_drop e r h]

/-- What is applied at a place depends on the siblings from there on only. -/
theorem applyAt_drop (e : Engine) (factory : Factory) (h : index ≤ siblings.length) :
    e.applyAt factory (siblings.drop index) 0 = e.applyAt factory siblings index := by
  unfold applyAt
  congr 1
  funext r
  exact applyRule_drop e factory r h

/-- Places may be counted from any place before. -/
lemma applyAt_of_drop (e : Engine) (factory : Factory) {start : Nat}
    (h : start + index ≤ siblings.length) :
    e.applyAt factory (siblings.drop start) index = e.applyAt factory siblings (start + index) := by
  have hi : index ≤ (siblings.drop start).length := by
    rw [List.length_drop]
    omega
  rw [← applyAt_drop e factory h, ← List.drop_drop, applyAt_drop e factory hi]

/-- What applying a rule can come to. -/
lemma applyRule_cases {r : CompiledRule} (h : e.applyRule factory siblings index r = some a) :
    ∃ m, e.tryMatch r siblings index = some m ∧
      e.build factory r m = some a.replacement ∧ a.rule = r.id ∧ a.consumed = m.consumed := by
  obtain ⟨m,hm,h⟩ := Option.bind_eq_some_iff.mp h
  obtain ⟨replacement,hb,h⟩ := Option.bind_eq_some_iff.mp h
  cases h
  exact ⟨m,hm,hb,rfl,rfl⟩

lemma applyRule_eq_none {r : CompiledRule} (h : e.applyRule factory siblings index r = none) :
    ∀ m, e.tryMatch r siblings index = some m → e.build factory r m = none := by
  intro m hm
  cases hb : e.build factory r m with
  | none => rfl
  | some replacement => simp [applyRule, hm, hb] at h

lemma consumed_tryMatch {r : CompiledRule} {m : Match}
    (h : e.tryMatch r siblings index = some m) :
    1 ≤ m.consumed ∧ index + m.consumed ≤ siblings.length := by
  unfold tryMatch at h
  split at h
  · cases h
  · split at h
    · cases h
    · next c hc =>
      cases h
      exact Strategy.consumed_run hc

/-- A rule that is applied moves on, and not past the end. -/
lemma consumed_applyAt (h : e.applyAt factory siblings index = some a) :
    1 ≤ a.consumed ∧ index + a.consumed ≤ siblings.length := by
  obtain ⟨r,-,hr⟩ := List.exists_of_findSome?_eq_some h
  obtain ⟨m,hm,-,-,hc⟩ := applyRule_cases hr
  rw [hc]
  exact consumed_tryMatch hm

/-- The rule with the lowest number that matches at a place and builds there; it is what `a` says
was applied. -/
structure LowestAt (e : Engine) (factory : Factory) (siblings : List Tree) (index : Nat)
    (a : Applied) : Prop where
  applies : ∃ r m, e.language.rule? a.rule = some r ∧ r.id = a.rule ∧
    e.tryMatch r siblings index = some m ∧ m.consumed = a.consumed ∧
    e.build factory r m = some a.replacement
  lowest : ∀ id < a.rule, ∀ r, e.language.rule? id = some r →
    ∀ m, e.tryMatch r siblings index = some m → e.build factory r m = none

/-- Rules are tried in the order of their numbers. -/
lemma lowestAt_of_applyAt (hids : ByPlace CompiledRule.id e.language.rules)
    (h : e.applyAt factory siblings index = some a) : e.LowestAt factory siblings index a := by
  obtain ⟨before,r,behind,hrules,hr,hbefore⟩ := List.findSome?_eq_some_iff.mp h
  obtain ⟨m,hm,hb,hid,hc⟩ := applyRule_cases hr
  have hplace : e.language.rules[before.length]? = some r := by
    rw [hrules, List.getElem?_append_right (Nat.le_refl _), Nat.sub_self]
    rfl
  have hnumber : a.rule = before.length := hid.trans (hids before.length r hplace)
  refine ⟨⟨r,m,hnumber ▸ hplace,hid.symm,hm,hc.symm,hb⟩,fun id hlt k hk => ?_⟩
  rw [hnumber] at hlt
  have hmem : k ∈ before := by
    rw [Language.rule?, hrules, List.getElem?_append_left hlt] at hk
    exact List.mem_of_getElem? hk
  exact applyRule_eq_none (hbefore k hmem)

/-- Where nothing is applied, every rule either does not match or does not build. -/
lemma refuses_of_applyAt (h : e.applyAt factory siblings index = none) :
    ∀ r ∈ e.language.rules, ∀ m, e.tryMatch r siblings index = some m →
      e.build factory r m = none :=
  fun r hr => applyRule_eq_none (List.findSome?_eq_none_iff.mp h r hr)

/-! The loop. -/

/-- The siblings that one turn of the loop deals with: one that is kept, or those that a rule
consumes. -/
structure Window where
  start : Nat
  count : Nat
  kept : Bool

/-- The places of the siblings of a window. -/
def Window.places (w : Window) : List Nat := List.range' w.start w.count

/-- The loop from a place on to its end: the windows of its turns, and what it puts out. -/
inductive Pass (e : Engine) (factory : Factory) (siblings : List Tree) :
    Nat → List Window → List Tree → Prop
  | stop {index : Nat} (ended : siblings.length ≤ index) : Pass e factory siblings index [] []
  | keep {index : Nat} {node : Tree} {windows : List Window} {out : List Tree}
      (here : siblings[index]? = some node) (refused : e.applyAt factory siblings index = none)
      (tail : Pass e factory siblings (index + 1) windows out) :
      Pass e factory siblings index (⟨index,1,true⟩ :: windows) (node :: out)
  | apply {index : Nat} {a : Applied} {windows : List Window} {out : List Tree}
      (here : index < siblings.length) (applied : e.applyAt factory siblings index = some a)
      (tail : Pass e factory siblings (index + a.consumed) windows out) :
      Pass e factory siblings index (⟨index,a.consumed,false⟩ :: windows)
        (a.replacement.toList ++ out)

/-- From every place on the loop comes to its end, within as many turns as there are siblings. -/
lemma pass_sweepFrom {turns : Nat} (h : siblings.length ≤ index + turns) :
    ∃ windows, Pass e factory siblings index windows
      (e.sweepFrom factory siblings index turns) := by
  induction turns generalizing index with
  | zero => exact ⟨[],.stop h⟩
  | succ turns ih =>
    rw [sweepFrom]
    cases hn : siblings[index]? with
    | none => exact ⟨[],.stop (List.getElem?_eq_none_iff.mp hn)⟩
    | some node =>
      have hlt : index < siblings.length := (List.getElem?_eq_some_iff.mp hn).1
      cases ha : e.applyAt factory siblings index with
      | none =>
        obtain ⟨windows,hpass⟩ := @ih (index + 1) (by omega)
        exact ⟨_,.keep hn ha hpass⟩
      | some a =>
        obtain ⟨hpos,-⟩ := consumed_applyAt ha
        obtain ⟨windows,hpass⟩ := @ih (index + a.consumed) (by omega)
        exact ⟨_,.apply hlt ha hpass⟩

namespace Pass

variable {windows windows' : List Window} {out out' : List Tree}

/-- The loop can go one way only. -/
lemma unique (h : Pass e factory siblings index windows out)
    (h' : Pass e factory siblings index windows' out') : windows = windows' ∧ out = out' := by
  induction h generalizing windows' out' with
  | stop ended =>
    cases h' with
    | stop => exact ⟨rfl,rfl⟩
    | keep here =>
      have hlt := (List.getElem?_eq_some_iff.mp here).1
      omega
    | apply here => omega
  | keep here refused tail ih =>
    have hlt := (List.getElem?_eq_some_iff.mp here).1
    cases h' with
    | stop ended => omega
    | keep here' refused' tail' =>
      rw [here] at here'
      cases here'
      obtain ⟨rfl,rfl⟩ := ih tail'
      exact ⟨rfl,rfl⟩
    | apply here' applied' tail' =>
      rw [refused] at applied'
      cases applied'
  | apply here applied tail ih =>
    cases h' with
    | stop ended => omega
    | keep here' refused' tail' =>
      rw [applied] at refused'
      cases refused'
    | apply here' applied' tail' =>
      rw [applied] at applied'
      cases applied'
      obtain ⟨rfl,rfl⟩ := ih tail'
      exact ⟨rfl,rfl⟩

/-- The windows of a pass lie one behind the other and leave no sibling out. -/
lemma places (h : Pass e factory siblings index windows out) (hi : index ≤ siblings.length) :
    windows.flatMap Window.places = List.range' index (siblings.length - index) := by
  induction h with
  | stop ended =>
    have h0 : siblings.length - _ = 0 := Nat.sub_eq_zero_of_le ended
    rw [h0]
    rfl
  | @keep index node windows out here refused tail ih =>
    have hlt := (List.getElem?_eq_some_iff.mp here).1
    have hsum : siblings.length - index = 1 + (siblings.length - (index + 1)) := by omega
    rw [List.flatMap_cons, ih hlt, hsum, ← List.range'_append_1]
    rfl
  | @apply index a windows out here applied tail ih =>
    obtain ⟨-,hle⟩ := consumed_applyAt applied
    have hsum : siblings.length - index =
        a.consumed + (siblings.length - (index + a.consumed)) := by omega
    rw [List.flatMap_cons, ih hle, hsum, ← List.range'_append_1]
    rfl

/-- A pass over the siblings from a place on is the rest of a pass over all. -/
lemma exists_of_drop {start : Nat} (hs : start ≤ siblings.length)
    (h : Pass e factory (siblings.drop start) index windows out) :
    ∃ windows', Pass e factory siblings (start + index) windows' out := by
  induction h with
  | stop ended =>
    rw [List.length_drop] at ended
    exact ⟨[],.stop (by omega)⟩
  | @keep index node windows out here refused tail ih =>
    have hlt := (List.getElem?_eq_some_iff.mp here).1
    rw [List.length_drop] at hlt
    rw [List.getElem?_drop] at here
    rw [applyAt_of_drop e factory (by omega)] at refused
    obtain ⟨windows',hpass⟩ := ih
    exact ⟨_,.keep here refused hpass⟩
  | @apply index a windows out here applied tail ih =>
    rw [List.length_drop] at here
    rw [applyAt_of_drop e factory (by omega)] at applied
    obtain ⟨windows',hpass⟩ := ih
    rw [← Nat.add_assoc] at hpass
    exact ⟨_,.apply (by omega) applied hpass⟩

/-- Whatever the loop puts out from a place on, a pass over the siblings from there on puts out. -/
lemma out_eq_sweep (h : Pass e factory siblings index windows out)
    (hi : index ≤ siblings.length) : out = e.sweep factory (siblings.drop index) := by
  obtain ⟨rest,hrest⟩ := @pass_sweepFrom e factory (siblings.drop index) 0
    (siblings.drop index).length (by omega)
  obtain ⟨windows',hpass⟩ := exists_of_drop hi hrest
  exact (h.unique hpass).2

end Pass

lemma pass_sweep (e : Engine) (factory : Factory) (siblings : List Tree) :
    ∃ windows, Pass e factory siblings 0 windows (e.sweep factory siblings) :=
  pass_sweepFrom (by omega)

lemma sweep_of_applyAt (h : e.applyAt factory siblings 0 = some a) :
    e.sweep factory siblings =
      a.replacement.toList ++ e.sweep factory (siblings.drop a.consumed) := by
  obtain ⟨hpos,hle⟩ := consumed_applyAt h
  obtain ⟨windows,hpass⟩ := pass_sweep e factory siblings
  generalize e.sweep factory siblings = out at hpass
  cases hpass with
  | stop ended => omega
  | keep here refused =>
    rw [h] at refused
    cases refused
  | apply here applied tail =>
    rw [h] at applied
    cases applied
    rw [tail.out_eq_sweep hle, Nat.zero_add]

lemma sweep_of_refused {node : Tree} (h : e.applyAt factory (node :: siblings) 0 = none) :
    e.sweep factory (node :: siblings) = node :: e.sweep factory siblings := by
  obtain ⟨windows,hpass⟩ := pass_sweep e factory (node :: siblings)
  generalize e.sweep factory (node :: siblings) = out at hpass
  cases hpass with
  | stop ended => simp at ended
  | keep here refused tail =>
    cases here
    rw [tail.out_eq_sweep (by simp)]
    rfl
  | apply here applied =>
    rw [h] at applied
    cases applied

/-- A pass is the recursion on what is left of the list, and it always ends: the first rule that
matches and builds at the front is applied there, or the first sibling stays, and the pass goes on
behind. What is applied at a place depends on the siblings from there on only, and every sibling is
in one window of the loop and in no other. -/
theorem sweep_suffix_recursion {f : RuleFile} {h : Option Hierarchy} {config : Config}
    {p : Program} (hp : f.compile h config = .ok p) {name : String} {e : Engine}
    (he : ofProgram? p name = some e) (factory : Factory) :
    e.sweep factory [] = [] ∧
      (∀ xs a, e.applyAt factory xs 0 = some a →
        1 ≤ a.consumed ∧ a.consumed ≤ xs.length ∧ e.LowestAt factory xs 0 a ∧
          e.sweep factory xs = a.replacement.toList ++ e.sweep factory (xs.drop a.consumed)) ∧
      (∀ x xs, e.applyAt factory (x :: xs) 0 = none →
        (∀ r ∈ e.language.rules, ∀ m, e.tryMatch r (x :: xs) 0 = some m →
          e.build factory r m = none) ∧
          e.sweep factory (x :: xs) = x :: e.sweep factory xs) ∧
      (∀ xs i, i ≤ xs.length → e.applyAt factory xs i = e.applyAt factory (xs.drop i) 0) ∧
      ∀ xs, ∃ windows, windows.flatMap Window.places = List.range xs.length ∧
        ∀ ws out, Pass e factory xs 0 ws out ↔ ws = windows ∧ out = e.sweep factory xs := by
  obtain ⟨hsymbols,hmem⟩ := mem_of_ofProgram? he
  have hids := (RuleFile.closed_of_compile hp hmem).ruleIds
  refine ⟨rfl,fun xs a ha => ?_,fun x xs ha => ⟨refuses_of_applyAt ha,sweep_of_refused ha⟩,
    fun xs i hi => (applyAt_drop e factory hi).symm,fun xs => ?_⟩
  · obtain ⟨hpos,hle⟩ := consumed_applyAt ha
    exact ⟨hpos,by omega,lowestAt_of_applyAt hids ha,sweep_of_applyAt ha⟩
  · obtain ⟨windows,hpass⟩ := pass_sweep e factory xs
    refine ⟨windows,?_,fun ws out => ⟨fun h => h.unique hpass,?_⟩⟩
    · rw [hpass.places (Nat.zero_le _), Nat.sub_zero, List.range_eq_range']
    · rintro ⟨rfl,rfl⟩
      exact hpass

namespace Sample

def leaf (type : String) : Tree := .node type none [] none

/-- The rules `A, {B} -> C;` and `A -> null;`. -/
def file : RuleFile :=
  ⟨[⟨"default",none,
    [⟨[.fixed (.plain .none) "A" none [],.fixed ⟨.repeated,false,.none⟩ "B" none []],
      .subtree .none "C" none [],.none⟩,
    ⟨[.fixed (.plain .none) "A" none []],.null .none,.none⟩]⟩]⟩

end Sample

open Sample in
theorem sweep_falls_through :
    ∃ p e, file.compile none .default = .ok p ∧ ofProgram? p "default" = some e ∧
      e.sweep .free [leaf "A",leaf "B",leaf "B",leaf "D"] = [leaf "C",leaf "D"] ∧
      e.sweep (Factory.free.reject "C") [leaf "A",leaf "B"] = [leaf "B"] := by
  have hp : file.compile none .default = .ok _ := rfl
  have hrec := sweep_suffix_recursion hp (by rfl : ofProgram? _ "default" = some _)
  refine ⟨_,_,hp,rfl,?_,?_⟩
  · obtain ⟨hnil,happly,hkeep,-⟩ := hrec .free
    rw [(happly _ ⟨0,3,.node (leaf "C")⟩ rfl).2.2.2]
    change _ ++ Engine.sweep _ _ [leaf "D"] = _
    rw [(hkeep _ _ rfl).2, hnil]
    rfl
  · obtain ⟨hnil,happly,hkeep,-⟩ := hrec (Factory.free.reject "C")
    rw [(happly _ ⟨1,1,.delete⟩ rfl).2.2.2]
    change _ ++ Engine.sweep _ _ [leaf "B"] = _
    rw [(hkeep _ _ rfl).2, hnil]
    rfl

end Engine
end TreeRules
