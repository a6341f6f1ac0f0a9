import TreeRules.Compile.File
import TreeRules.Proofs.Strategy.Division

/-! How far a match looks. What it consumes, and the sibling behind that if there is one, decide the
whole match: whatever else stands there, before or behind, the same siblings are consumed and the
same captures made. -/
namespace TreeRules
namespace Strategy

/-- Queues that agree on their first `n` siblings and on the next, or on their first `n` where both
end. -/
def AgreePast (n : Nat) (as bs : List Tree) : Prop :=
  n < as.length ∧ n < bs.length ∧ as.take (n + 1) = bs.take (n + 1) ∨
    as.length = n ∧ bs.length = n ∧ as.take n = bs.take n

/-- Such queues have a front in common, and behind it the same sibling or none. -/
lemma AgreePast.exists_front {n : Nat} {as bs : List Tree} (h : AgreePast n as bs) :
    ∃ front rest rest', front.length = n ∧ as = front ++ rest ∧ bs = front ++ rest' ∧
      rest.head? = rest'.head? := by
  refine ⟨as.take n,as.drop n,bs.drop n,?_,(List.take_append_drop n as).symm,?_,?_⟩
  · rw [List.length_take]
    rcases h with ⟨ha,-,-⟩ | ⟨ha,-,-⟩ <;> omega
  · have hfront : as.take n = bs.take n := by
      rcases h with ⟨-,-,htake⟩ | ⟨-,-,htake⟩
      · have hshort := congrArg (List.take n) htake
        simpa [List.take_take] using hshort
      · exact htake
    rw [hfront, List.take_append_drop]
  · rw [List.head?_drop, List.head?_drop]
    rcases h with ⟨ha,hb,htake⟩ | ⟨ha,hb,-⟩
    · have hnext := congrArg (·[n]?) htake
      simpa using hnext
    · rw [List.getElem?_eq_none (by omega), List.getElem?_eq_none (by omega)]

/-! One item looks no further than the sibling behind its share. -/

lemma takeWhile_eq_nil_of_head? {p : Tree → Bool} {rest rest' : List Tree}
    (hh : rest.head? = rest'.head?) (h : rest.takeWhile p = []) : rest'.takeWhile p = [] := by
  cases rest with
  | nil =>
    cases rest' with
    | nil => rfl
    | cons n ns => cases hh
  | cons m ms =>
    cases rest' with
    | nil => rfl
    | cons n ns =>
      obtain rfl : m = n := Option.some.inj hh
      by_cases hp : p m = true
      · simp [hp] at h
      · simp [hp]

lemma taken_congr {mode : Mode} {accepts : Tree → Bool} {share rest rest' : List Tree}
    (h : taken mode accepts (share ++ rest) = some share) (hh : rest.head? = rest'.head?) :
    taken mode accepts (share ++ rest') = some share := by
  cases mode with
  | normal =>
    cases share with
    | nil =>
      cases rest with
      | nil => cases h
      | cons n ns => simp [taken] at h
    | cons n ns => exact h
  | optional =>
    cases share with
    | nil => simpa [taken, List.take_one, hh] using h
    | cons n ns => simpa [taken] using h
  | repeated =>
    have hrun : (share ++ rest).takeWhile accepts = share := Option.some.inj h
    have hall : ∀ n ∈ share, accepts n = true := by
      rw [← hrun]
      exact List.all_eq_true.mp List.all_takeWhile
    rw [List.takeWhile_append_of_pos hall, List.append_right_eq_self] at hrun
    have hstop := takeWhile_eq_nil_of_head? hh hrun
    simp [taken, List.takeWhile_append_of_pos hall, hstop]

/-! Hence all items together look no further than the sibling behind all shares. -/

section Items

variable {α : Type} {mode : α → Mode} {accepts : α → Tree → Bool}
  {stored : α → Tree → List (Hole × Capture)} {as : List α}

lemma divide_congr_front {front rest rest' : List Tree} {shares : List (α × List Tree)}
    (h : divide mode accepts as (front ++ rest) = some shares)
    (hc : consumed shares = front.length) (hh : rest.head? = rest'.head?) :
    divide mode accepts as (front ++ rest') = some shares := by
  induction as generalizing front shares with
  | nil => exact h
  | cons a as ih =>
    obtain ⟨share,others,ht,ho,rfl⟩ := divide_cases h
    simp only [consumed_cons] at hc
    -- the share is the first part of the front, and the others take what is left of it
    obtain ⟨left,rfl⟩ : share <+: front :=
      List.prefix_of_prefix_length_le (taken_isPrefix ht) (List.prefix_append front rest) (by omega)
    have hleft : (left ++ rest).head? = (left ++ rest').head? := by
      rw [List.head?_append, List.head?_append, hh]
    rw [List.append_assoc] at ht ho ⊢
    rw [List.drop_left] at ho
    rw [divide, taken_congr ht hleft]
    simp only [List.drop_left]
    rw [ih ho (by rw [List.length_append] at hc; omega)]
    rfl

lemma runOn_congr_front {queue queue' : List Tree} {m : Consumption}
    (h : runOn mode accepts stored as queue = some m)
    (ha : AgreePast m.consumed queue queue') :
    runOn mode accepts stored as queue' = some m := by
  obtain ⟨shares,hd,hm⟩ := Option.bind_eq_some_iff.mp h
  split_ifs at hm with hnone
  cases hm
  obtain ⟨front,rest,rest',hlength,rfl,rfl,hh⟩ := ha.exists_front
  rw [runOn, divide_congr_front hd hlength.symm hh, Option.bind_some, if_neg hnone]

end Items

/-! Every strategy runs on a division, its checkers in the modes that it gives them. -/

section Run

variable (symbols : SymbolTable) (table : List Matcher)

/-- The checkers of a strategy in the modes in which it runs them. -/
def moded : Strategy → List Checker
  | simple cs => cs.map fun c => { c with mode := .normal }
  | repeated c => [{ c with mode := .repeated }]
  | complex cs => cs

/-- A simple strategy does not ask for modes. -/
lemma runSimple_moded (cs : List Checker) (queue : List Tree) :
    runSimple symbols table (simple cs).moded queue = runSimple symbols table cs queue := by
  have hzip : (simple cs).moded.zip queue =
      (cs.zip queue).map fun p => ({ p.1 with mode := .normal },p.2) := List.zip_map_left
  simp only [runSimple, hzip, List.all_map, List.foldl_map]
  simp only [moded, List.isEmpty_map, List.length_map]
  rfl

lemma run_eq_runOn (strategy : Strategy) (siblings : List Tree) (index : Nat) :
    strategy.run symbols table siblings index =
      runOn Checker.mode (accepts symbols table) (stored symbols table) strategy.moded
        (siblings.drop index) := by
  cases strategy with
  | simple cs =>
    have hn : ∀ c ∈ (simple cs).moded, c.mode = .normal := by simp [moded]
    rw [← runSimple_eq symbols table hn, runSimple_moded]
    rfl
  | repeated c =>
    rw [moded, ← runRepeated_eq symbols table rfl]
    rfl
  | complex cs => exact runComplex_eq symbols table cs _

/-- A match looks at most one sibling past what it consumes. -/
theorem run_of_agreePast (strategy : Strategy) {siblings siblings' : List Tree}
    {index index' : Nat} {m : Consumption}
    (h : strategy.run symbols table siblings index = some m)
    (ha : AgreePast m.consumed (siblings.drop index) (siblings'.drop index')) :
    strategy.run symbols table siblings' index' = some m := by
  rw [run_eq_runOn] at h ⊢
  exact runOn_congr_front h ha

end Run

namespace Sample

def leaf (type : String) : Tree := .node type none [] none

/-- The items `{A#1}, [B#2]`, compiled. -/
def made : List Checker × Compilation :=
  Compilation.compileCheckers
    [.typedHole ⟨.repeated,false,.none⟩ "A" ⟨1⟩ false,
      .typedHole ⟨.optional,false,.none⟩ "B" ⟨2⟩ false]
    ordinals (.start "default" none .default .empty)

def outcome (siblings : List Tree) (index : Nat) : Option Consumption :=
  (select made.1).run made.2.symbols made.2.matchers siblings index

end Sample

open Sample in
/-- Both items test the sibling of type `C` and leave it; what stands behind it has no part. -/
theorem run_past_refused :
    ∃ m, outcome [leaf "A",leaf "A",leaf "C",leaf "B"] 0 = some m ∧ m.consumed = 2 ∧
      outcome [leaf "B",leaf "A",leaf "A",leaf "C"] 1 = some m := by
  have hcount : (outcome [leaf "A",leaf "A",leaf "C",leaf "B"] 0).map Consumption.consumed =
      some 2 := by decide
  obtain ⟨m,hm,hc⟩ := Option.map_eq_some_iff.mp hcount
  refine ⟨m,hm,hc,run_of_agreePast _ _ _ hm ?_⟩
  rw [hc]
  exact Or.inl ⟨by decide,by decide,rfl⟩

end Strategy
end TreeRules
