import TreeRules.Strategy.Run
import TreeRules.Proofs.Matcher.Stores

/-! How siblings are divided among the items of a left side, for whatever stands for items. Every
kind of strategy runs on the same division: it takes the siblings of all shares and stores what
the items store of them, one sibling after the other. -/
namespace TreeRules
namespace Strategy

/-- What an item of a mode takes from the front of a queue. -/
def taken (mode : Mode) (accepts : Tree → Bool) (queue : List Tree) : Option (List Tree) :=
  match mode with
  | .normal =>
    match queue with
    | [] => none
    | n :: _ => if accepts n then some [n] else none
  | .optional => some ((queue.take 1).filter accepts)
  | .repeated => some (queue.takeWhile accepts)

section Divide

variable {α β : Type} (mode : α → Mode) (accepts : α → Tree → Bool)

/-- The share of each item, taken in turn from the front of the queue. -/
def divide : List α → List Tree → Option (List (α × List Tree))
  | [], _ => some []
  | a :: as, queue =>
    match taken (mode a) (accepts a) queue with
    | none => none
    | some share => (divide as (queue.drop share.length)).map ((a,share) :: ·)

end Divide

/-- The number of siblings in all shares. -/
def consumed {α : Type} (shares : List (α × List Tree)) : Nat :=
  (shares.flatMap Prod.snd).length

@[simp] lemma consumed_nil {α : Type} : consumed ([] : List (α × List Tree)) = 0 := rfl

@[simp] lemma consumed_cons {α : Type} (p : α × List Tree) (shares : List (α × List Tree)) :
    consumed (p :: shares) = p.2.length + consumed shares := by
  simp [consumed]

/-- The stores of all shares; `stored` says what an item stores of a node. -/
def steps {α : Type} (mode : α → Mode) (stored : α → Tree → List (Hole × Capture))
    (shares : List (α × List Tree)) : List Store :=
  shares.flatMap fun p =>
    p.2.flatMap fun n => Matcher.asStores (mode p.1 == .repeated) (stored p.1 n)

/-- A run on the division of a queue; one that takes nothing is none. -/
def runOn {α : Type} (mode : α → Mode) (accepts : α → Tree → Bool)
    (stored : α → Tree → List (Hole × Capture)) (as : List α) (queue : List Tree) :
    Option Consumption :=
  (divide mode accepts as queue).bind fun shares =>
    if consumed shares = 0 then none
    else some ⟨consumed shares,Captures.empty.replay (steps mode stored shares)⟩

/-- The stores of such a run, one after the other. -/
def traceOn {α : Type} (mode : α → Mode) (accepts : α → Tree → Bool)
    (stored : α → Tree → List (Hole × Capture)) (as : List α) (queue : List Tree) : List Store :=
  (divide mode accepts as queue).elim [] (steps mode stored)

section Congr

variable {α β : Type} {mode : α → Mode} {mode' : β → Mode} {accepts : α → Tree → Bool}
  {accepts' : β → Tree → Bool} {stored : α → Tree → List (Hole × Capture)}
  {stored' : β → Tree → List (Hole × Capture)} {R : α → β → Prop}

/-- Items that accept the same nodes take the same shares. -/
lemma divide_congr (hR : ∀ a b, R a b → mode a = mode' b ∧ ∀ n, accepts a n = accepts' b n)
    {as : List α} {bs : List β} (h : List.Forall₂ R as bs) (queue : List Tree) :
    Option.Rel (List.Forall₂ fun p q => R p.1 q.1 ∧ p.2 = q.2) (divide mode accepts as queue)
      (divide mode' accepts' bs queue) := by
  induction h generalizing queue with
  | nil => exact .some .nil
  | @cons a b as bs hab h ih =>
    obtain ⟨hm,ha⟩ := hR a b hab
    rw [divide, divide, hm, funext ha]
    cases taken (mode' b) (accepts' b) queue with
    | none => exact .none
    | some share =>
      have hr := ih (queue.drop share.length)
      dsimp only
      generalize divide mode accepts as (queue.drop share.length) = x at hr ⊢
      generalize divide mode' accepts' bs (queue.drop share.length) = y at hr ⊢
      cases hr with
      | none => exact .none
      | some hr => exact .some (.cons ⟨hab,rfl⟩ hr)

/-- Items that store the same store the same of their shares. -/
lemma shares_congr (hR : ∀ a b, R a b → mode a = mode' b ∧ ∀ n, stored a n = stored' b n)
    {shares : List (α × List Tree)} {shares' : List (β × List Tree)}
    (hs : List.Forall₂ (fun p q => R p.1 q.1 ∧ p.2 = q.2) shares shares') :
    consumed shares = consumed shares' ∧
      steps mode stored shares = steps mode' stored' shares' := by
  induction hs with
  | nil => exact ⟨rfl,rfl⟩
  | @cons p q shares shares' hpq hs ih =>
    obtain ⟨a,share⟩ := p
    obtain ⟨b,share'⟩ := q
    obtain ⟨hab,rfl⟩ : R a b ∧ share = share' := hpq
    obtain ⟨hm,hst⟩ := hR a b hab
    refine ⟨by rw [consumed_cons, consumed_cons, ih.1],?_⟩
    rw [steps, List.flatMap_cons, ← steps, ih.2, hm, funext hst]
    rfl

/-- Runs of items that accept and store the same are the same, store by store. -/
lemma runOn_congr (hR : ∀ a b, R a b → mode a = mode' b ∧ (∀ n, accepts a n = accepts' b n) ∧
      ∀ n, stored a n = stored' b n)
    {as : List α} {bs : List β} (h : List.Forall₂ R as bs) (queue : List Tree) :
    runOn mode accepts stored as queue = runOn mode' accepts' stored' bs queue ∧
      traceOn mode accepts stored as queue = traceOn mode' accepts' stored' bs queue := by
  have hd := divide_congr (fun a b hab => ⟨(hR a b hab).1,(hR a b hab).2.1⟩) h queue
  rw [runOn, runOn, traceOn, traceOn]
  generalize divide mode accepts as queue = x at hd ⊢
  generalize divide mode' accepts' bs queue = y at hd ⊢
  cases hd with
  | none => exact ⟨rfl,rfl⟩
  | some hd =>
    obtain ⟨hc,hst⟩ := shares_congr (fun a b hab => ⟨(hR a b hab).1,(hR a b hab).2.2⟩) hd
    exact ⟨by rw [Option.bind_some, Option.bind_some, hc, hst],hst⟩

end Congr

lemma taken_isPrefix {mode : Mode} {accepts : Tree → Bool} {queue share : List Tree}
    (h : taken mode accepts queue = some share) : share <+: queue := by
  cases mode with
  | normal =>
    cases queue with
    | nil => cases h
    | cons n rest =>
      simp only [taken, Option.ite_none_right_eq_some, Option.some.injEq] at h
      rw [← h.2]
      exact ⟨rest,rfl⟩
  | optional =>
    cases h
    cases queue with
    | nil => exact List.nil_prefix
    | cons n rest =>
      by_cases ha : accepts n = true
      · simp [ha]
      · simp [ha]
  | repeated =>
    cases h
    exact List.takeWhile_prefix accepts

lemma length_taken_le_one {mode : Mode} {accepts : Tree → Bool} {queue share : List Tree}
    (h : taken mode accepts queue = some share) (hm : mode ≠ .repeated) : share.length ≤ 1 := by
  cases mode with
  | normal =>
    cases queue with
    | nil => cases h
    | cons n rest =>
      simp only [taken, Option.ite_none_right_eq_some, Option.some.injEq] at h
      simp [← h.2]
  | optional =>
    cases h
    exact Nat.le_trans (List.length_filter_le _ _) (List.length_take_le 1 queue)
  | repeated => exact absurd rfl hm

section Shares

variable {α : Type} {mode : α → Mode} {accepts : α → Tree → Bool} {as : List α}
  {queue : List Tree} {shares : List (α × List Tree)}

/-- What a division can come to. -/
lemma divide_cases {a : α} (h : divide mode accepts (a :: as) queue = some shares) :
    ∃ share rest, taken (mode a) (accepts a) queue = some share ∧
      divide mode accepts as (queue.drop share.length) = some rest ∧
      shares = (a,share) :: rest := by
  rw [divide] at h
  cases ht : taken (mode a) (accepts a) queue with
  | none => simp [ht] at h
  | some share =>
    simp only [ht, Option.map_eq_some_iff] at h
    obtain ⟨rest,hr,rfl⟩ := h
    exact ⟨share,rest,rfl,hr,rfl⟩

lemma consumed_le (h : divide mode accepts as queue = some shares) :
    consumed shares ≤ queue.length := by
  induction as generalizing queue shares with
  | nil =>
    cases h
    exact Nat.zero_le _
  | cons a as ih =>
    obtain ⟨share,rest,ht,hr,rfl⟩ := divide_cases h
    have hlen := (taken_isPrefix ht).length_le
    have hrest := ih hr
    rw [List.length_drop] at hrest
    simp only [consumed_cons]
    omega

lemma divide_congr_mem {accepts' : α → Tree → Bool} (h : ∀ a ∈ as, accepts a = accepts' a)
    (queue : List Tree) : divide mode accepts as queue = divide mode accepts' as queue := by
  induction as generalizing queue with
  | nil => rfl
  | cons a as ih =>
    rw [divide, divide, h a List.mem_cons_self]
    simp only [ih fun b hb => h b (List.mem_cons_of_mem _ hb)]

/-- Every item has a share, in the order of the items. -/
lemma map_fst_divide (h : divide mode accepts as queue = some shares) :
    shares.map Prod.fst = as := by
  induction as generalizing queue shares with
  | nil =>
    cases h
    rfl
  | cons a as ih =>
    obtain ⟨share,rest,-,hr,rfl⟩ := divide_cases h
    rw [List.map_cons, ih hr]

lemma length_share_le_one (h : divide mode accepts as queue = some shares) :
    ∀ p ∈ shares, mode p.1 ≠ .repeated → p.2.length ≤ 1 := by
  induction as generalizing queue shares with
  | nil =>
    cases h
    simp
  | cons a as ih =>
    obtain ⟨share,rest,ht,hr,rfl⟩ := divide_cases h
    intro p hp
    rcases List.mem_cons.mp hp with rfl | hp
    · exact length_taken_le_one ht
    · exact ih hr p hp

end Shares

section Run

variable (symbols : SymbolTable) (table : List Matcher)

/-- What a checker stores of a node. -/
def stored (c : Checker) (n : Tree) : List (Hole × Capture) :=
  Matcher.stores symbols table c.matcher n

lemma extractAll_eq_replay (c : Checker) (nodes : List Tree) (caps : Captures) :
    extractAll symbols table c nodes caps =
      caps.replay (nodes.flatMap fun n => Matcher.asStores true (stored symbols table c n)) := by
  induction nodes generalizing caps with
  | nil => rfl
  | cons n nodes ih =>
    rw [List.flatMap_cons, Captures.replay_append, ← ih]
    simp only [extractAll, List.foldl_cons, Matcher.extract_eq_replay, stored]

lemma extract_eq_replay (c : Checker) (n : Tree) (caps : Captures) :
    extract symbols table c n caps =
      caps.replay (Matcher.asStores false (stored symbols table c n)) :=
  Matcher.extract_eq_replay _ _ _ _ _ _

lemma drop_length_takeWhile (p : Tree → Bool) (queue : List Tree) :
    queue.drop (queue.takeWhile p).length = queue.dropWhile p := by
  have h := congrArg (List.drop (queue.takeWhile p).length)
    (List.takeWhile_append_dropWhile (p := p) (l := queue))
  rwa [List.drop_left, eq_comm] at h

/-- The stores of one share. -/
def shareSteps (c : Checker) (share : List Tree) : List Store :=
  share.flatMap fun n => Matcher.asStores (c.mode == .repeated) (stored symbols table c n)

/-- A checker takes its share, stores what it stores of it, and leaves the rest to the others. -/
lemma consume_cons (c : Checker) (cs : List Checker) (queue : List Tree) (caps : Captures) :
    consume symbols table (c :: cs) queue caps =
      (taken c.mode (accepts symbols table c) queue).bind fun share =>
        consume symbols table cs (queue.drop share.length)
          (caps.replay (shareSteps symbols table c share)) := by
  cases hm : c.mode with
  | normal =>
    cases queue with
    | nil => simp [consume, hm, taken]
    | cons n rest =>
      by_cases ha : accepts symbols table c n = true
      · simp [consume, hm, taken, ha, shareSteps, extract_eq_replay]
        rfl
      · simp [consume, hm, taken, ha]
  | optional =>
    cases queue with
    | nil => simp [consume, hm, taken, shareSteps]
    | cons n rest =>
      by_cases ha : accepts symbols table c n = true
      · simp [consume, hm, taken, ha, shareSteps, extract_eq_replay]
        rfl
      · simp [consume, hm, taken, ha, shareSteps]
  | repeated =>
    simp [consume, hm, taken, shareSteps, extractAll_eq_replay, drop_length_takeWhile]

/-- Taking from the queue step by step is running on the division of the queue. -/
theorem consume_eq_divide (cs : List Checker) (queue : List Tree) (caps : Captures) :
    consume symbols table cs queue caps =
      (divide Checker.mode (accepts symbols table) cs queue).map fun shares =>
        (queue.drop (consumed shares),
          caps.replay (steps Checker.mode (stored symbols table) shares)) := by
  induction cs generalizing queue caps with
  | nil => simp [consume, divide, steps]
  | cons c cs ih =>
    rw [consume_cons, divide]
    cases taken c.mode (accepts symbols table c) queue with
    | none => rfl
    | some share =>
      simp only [Option.bind_some, ih, Option.map_map, Function.comp_def, List.drop_drop,
        consumed_cons, ← Captures.replay_append]
      rfl

lemma runComplex_eq (cs : List Checker) (queue : List Tree) :
    runComplex symbols table cs queue =
      runOn Checker.mode (accepts symbols table) (stored symbols table) cs queue := by
  rw [runComplex, runOn, consume_eq_divide]
  cases hd : divide Checker.mode (accepts symbols table) cs queue with
  | none => rfl
  | some shares =>
    have hle := consumed_le hd
    have hiff : queue.length = queue.length - consumed shares ↔ consumed shares = 0 := by omega
    have hlen : queue.length - (queue.length - consumed shares) = consumed shares := by omega
    simp [List.length_drop, hiff, hlen]

lemma runRepeated_eq {c : Checker} (hc : c.mode = .repeated) (queue : List Tree) :
    runRepeated symbols table c queue =
      runOn Checker.mode (accepts symbols table) (stored symbols table) [c] queue := by
  simp [runRepeated, runOn, divide, hc, taken, steps, extractAll_eq_replay, List.isEmpty_iff]

/-- Every checker has a sibling of its own that it accepts. -/
def AllAccept (cs : List Checker) (queue : List Tree) : Prop :=
  cs.length ≤ queue.length ∧ (cs.zip queue).all (fun p => accepts symbols table p.1 p.2) = true

instance (cs : List Checker) (queue : List Tree) : Decidable (AllAccept symbols table cs queue) :=
  inferInstanceAs (Decidable (_ ∧ _))

lemma allAccept_cons (c : Checker) (cs : List Checker) (n : Tree) (rest : List Tree) :
    AllAccept symbols table (c :: cs) (n :: rest) ↔
      accepts symbols table c n = true ∧ AllAccept symbols table cs rest := by
  simp only [AllAccept, List.length_cons, Nat.add_le_add_iff_right, List.zip_cons_cons,
    List.all_cons, Bool.and_eq_true]
  exact and_left_comm

/-- Normal checkers take one sibling each. -/
lemma divide_normal {cs : List Checker} (hn : ∀ c ∈ cs, c.mode = .normal) (queue : List Tree) :
    divide Checker.mode (accepts symbols table) cs queue =
      if AllAccept symbols table cs queue then some ((cs.zip queue).map fun p => (p.1,[p.2]))
      else none := by
  induction cs generalizing queue with
  | nil => simp [divide, AllAccept]
  | cons c cs ih =>
    have hc := hn c List.mem_cons_self
    have ih := ih fun c' h => hn c' (List.mem_cons_of_mem _ h)
    cases queue with
    | nil => simp [divide, hc, taken, AllAccept]
    | cons n rest =>
      simp only [allAccept_cons]
      by_cases ha : accepts symbols table c n = true
      · simp only [divide, hc, taken, ha, if_true, List.length_singleton, List.drop_one,
          List.tail_cons, ih rest, true_and]
        split_ifs <;> rfl
      · simp [divide, hc, taken, ha]

lemma foldl_extract {pairs : List (Checker × Tree)} (hn : ∀ p ∈ pairs, p.1.mode = .normal)
    (caps : Captures) :
    pairs.foldl (fun caps p => extract symbols table p.1 p.2 caps) caps =
      caps.replay (steps Checker.mode (stored symbols table)
        (pairs.map fun p => (p.1,[p.2]))) := by
  induction pairs generalizing caps with
  | nil => rfl
  | cons p pairs ih =>
    have hp : (p.1.mode == .repeated) = false := by
      rw [hn p List.mem_cons_self]
      rfl
    rw [List.foldl_cons, ih (fun q h => hn q (List.mem_cons_of_mem _ h)), extract_eq_replay,
      ← Captures.replay_append]
    simp [steps, hp]

lemma consumed_map_zip {cs : List Checker} {queue : List Tree} (hl : cs.length ≤ queue.length) :
    consumed ((cs.zip queue).map fun p => (p.1,[p.2])) = cs.length := by
  have hone : ((cs.zip queue).map fun p => (p.1,[p.2])).flatMap Prod.snd =
      (cs.zip queue).map Prod.snd := by
    rw [List.flatMap_map, List.map_eq_flatMap]
  rw [consumed, hone, List.length_map, List.length_zip, Nat.min_eq_left hl]

lemma runSimple_eq {cs : List Checker} (hn : ∀ c ∈ cs, c.mode = .normal) (queue : List Tree) :
    runSimple symbols table cs queue =
      runOn Checker.mode (accepts symbols table) (stored symbols table) cs queue := by
  rw [runSimple, runOn, divide_normal symbols table hn]
  by_cases hc : AllAccept symbols table cs queue
  · have hz : ∀ p ∈ cs.zip queue, p.1.mode = .normal := fun p hp => hn _ (List.of_mem_zip hp).1
    have hlt : ¬ queue.length < cs.length := Nat.not_lt.mpr hc.1
    rw [if_pos hc, Option.bind_some, consumed_map_zip hc.1, ← foldl_extract symbols table hz]
    simp [hc.2, hlt]
  · rw [if_neg hc, Option.bind_none]
    split_ifs with he
    · rfl
    · simp only [Bool.or_eq_true, decide_eq_true_eq, not_or, Nat.not_lt] at he
      exact if_neg fun ha => hc ⟨he.2,ha⟩

/-- Whatever the kind of strategy, it runs on the division. -/
theorem run_select (cs : List Checker) (siblings : List Tree) (index : Nat) :
    (select cs).run symbols table siblings index =
      runOn Checker.mode (accepts symbols table) (stored symbols table) cs
        (siblings.drop index) := by
  unfold select
  split_ifs with hn
  · exact runSimple_eq symbols table (by simpa using hn) _
  · split
    · next c _ =>
      split_ifs with hc
      · exact runRepeated_eq symbols table (by simpa using hc) _
      · exact runComplex_eq symbols table _ _
    · exact runComplex_eq symbols table _ _

lemma checkers_select (cs : List Checker) : (select cs).checkers = cs := by
  unfold select
  split_ifs
  · rfl
  · split
    · split_ifs <;> rfl
    · rfl

/-- The stores of a run, one after the other. -/
def trace (strategy : Strategy) (siblings : List Tree) (index : Nat) : List Store :=
  traceOn Checker.mode (accepts symbols table) (stored symbols table) strategy.checkers
    (siblings.drop index)

/-- The captures of a run come from its stores. -/
theorem captures_run_select {cs : List Checker} {siblings : List Tree} {index : Nat}
    {c : Consumption} (h : (select cs).run symbols table siblings index = some c) :
    c.captures = Captures.empty.replay (trace symbols table (select cs) siblings index) := by
  rw [run_select, runOn] at h
  obtain ⟨shares,hd,h⟩ := Option.bind_eq_some_iff.mp h
  split_ifs at h
  cases h
  rw [trace, traceOn, checkers_select, hd]
  rfl

end Run

end Strategy
end TreeRules
