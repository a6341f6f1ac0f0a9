import TreeRules.Proofs.Strategy.Division

/-! The working queue. Siblings are popped one at a time, and captured from as soon as they are
accepted; one that is not accepted is put back. Every strategy that can be selected gives what the
queue gives. -/
namespace TreeRules
namespace Strategy

/-- The siblings that wait, and what was captured so far. -/
structure Work where
  queue : List Tree
  captures : Captures

section Queue

variable (symbols : SymbolTable) (table : List Matcher)

/-- Pops siblings while the checker accepts them, and captures from each. -/
def drain (c : Checker) : List Tree → Captures → Work
  | [], caps => ⟨[],caps⟩
  | n :: rest, caps =>
    if accepts symbols table c n then
      drain c rest (Matcher.extract symbols true table c.matcher n caps)
    else ⟨n :: rest,caps⟩

/-- The turn of one checker. -/
def turn (w : Work) (c : Checker) : Option Work :=
  match c.mode, w.queue with
  | .normal, [] => none
  | .normal, n :: rest =>
    if accepts symbols table c n then some ⟨rest,extract symbols table c n w.captures⟩ else none
  | .optional, [] => some w
  | .optional, n :: rest =>
    if accepts symbols table c n then some ⟨rest,extract symbols table c n w.captures⟩
    else some ⟨n :: rest,w.captures⟩
  | .repeated, queue => some (drain symbols table c queue w.captures)

/-- The checkers take turns at the siblings from `index` on. There is no match behind the last
sibling, nor one that takes no sibling. -/
def runQueue (checkers : List Checker) (siblings : List Tree) (index : Nat) :
    Option Consumption :=
  if siblings.length < index then none
  else
    let waiting := siblings.drop index
    (checkers.foldlM (turn symbols table) ⟨waiting,.empty⟩).bind fun w =>
      if waiting.length - w.queue.length = 0 then none
      else some ⟨waiting.length - w.queue.length,w.captures⟩

/-- Popping one sibling at a time takes the longest run that is accepted. -/
lemma drain_eq (c : Checker) (queue : List Tree) (caps : Captures) :
    drain symbols table c queue caps =
      ⟨queue.dropWhile (accepts symbols table c),
        extractAll symbols table c (queue.takeWhile (accepts symbols table c)) caps⟩ := by
  induction queue generalizing caps with
  | nil => rfl
  | cons n rest ih =>
    unfold drain
    by_cases ha : accepts symbols table c n = true
    · rw [if_pos ha, ih, List.dropWhile_cons_of_pos ha, List.takeWhile_cons_of_pos ha]
      rfl
    · rw [if_neg ha, List.dropWhile_cons_of_neg ha, List.takeWhile_cons_of_neg ha]
      rfl

/-- One turn, and then the other checkers. -/
lemma consume_eq_turn (c : Checker) (cs : List Checker) (queue : List Tree) (caps : Captures) :
    consume symbols table (c :: cs) queue caps =
      (turn symbols table ⟨queue,caps⟩ c).bind fun w =>
        consume symbols table cs w.queue w.captures := by
  cases hm : c.mode with
  | normal =>
    cases queue with
    | nil => simp only [consume, turn, hm, Option.bind_none]
    | cons n rest =>
      by_cases ha : accepts symbols table c n = true
      · simp only [consume, turn, hm, ha, if_true, Option.bind_some]
      · simp only [consume, turn, hm, ha, if_false, Option.bind_none, Bool.false_eq_true]
  | optional =>
    cases queue with
    | nil => simp only [consume, turn, hm, Option.bind_some]
    | cons n rest =>
      by_cases ha : accepts symbols table c n = true
      · simp only [consume, turn, hm, ha, if_true, Option.bind_some]
      · simp only [consume, turn, hm, ha, if_false, Option.bind_some, Bool.false_eq_true]
  | repeated => simp only [consume, turn, hm, drain_eq, Option.bind_some]

/-- All turns, one after the other. -/
lemma consume_eq_foldlM (cs : List Checker) (queue : List Tree) (caps : Captures) :
    consume symbols table cs queue caps =
      (cs.foldlM (turn symbols table) ⟨queue,caps⟩).map fun w => (w.queue,w.captures) := by
  induction cs generalizing queue caps with
  | nil => rfl
  | cons c cs ih =>
    rw [consume_eq_turn, List.foldlM_cons]
    cases turn symbols table ⟨queue,caps⟩ c with
    | none => rfl
    | some w => exact ih w.queue w.captures

/-- A turn puts no more siblings into the queue than it took from it. -/
lemma length_turn_le {w w' : Work} {c : Checker} (h : turn symbols table w c = some w') :
    w'.queue.length ≤ w.queue.length := by
  obtain ⟨queue,caps⟩ := w
  unfold turn at h
  cases hm : c.mode <;> cases queue <;> simp only [hm, reduceCtorEq] at h
  case normal.cons n rest =>
    split_ifs at h
    cases h
    exact Nat.le_succ _
  case optional.nil =>
    cases h
    exact Nat.le_refl _
  case optional.cons n rest =>
    split_ifs at h <;> cases h
    · exact Nat.le_succ _
    · exact Nat.le_refl _
  case repeated.nil =>
    cases h
    exact Nat.le_refl _
  case repeated.cons n rest =>
    cases h
    rw [drain_eq]
    exact (List.dropWhile_suffix _).length_le

lemma length_turns_le {cs : List Checker} {w w' : Work}
    (h : cs.foldlM (turn symbols table) w = some w') : w'.queue.length ≤ w.queue.length := by
  induction cs generalizing w with
  | nil =>
    cases h
    exact Nat.le_refl _
  | cons c cs ih =>
    rw [List.foldlM_cons] at h
    obtain ⟨mid,hmid,hrest⟩ := Option.bind_eq_some_iff.mp h
    exact Nat.le_trans (ih hrest) (length_turn_le symbols table hmid)

lemma runComplex_eq_turns (cs : List Checker) (waiting : List Tree) :
    runComplex symbols table cs waiting =
      (cs.foldlM (turn symbols table) ⟨waiting,.empty⟩).bind fun w =>
        if waiting.length - w.queue.length = 0 then none
        else some ⟨waiting.length - w.queue.length,w.captures⟩ := by
  unfold runComplex
  rw [consume_eq_foldlM]
  cases hw : cs.foldlM (turn symbols table) ⟨waiting,.empty⟩ with
  | none => rfl
  | some w =>
    have hle : w.queue.length ≤ waiting.length := length_turns_le symbols table hw
    have hnone : waiting.length = w.queue.length ↔ waiting.length - w.queue.length = 0 := by omega
    simp only [Option.map_some, Option.bind_some, hnone]

/-- From an empty queue nothing is taken. -/
lemma runComplex_nil (cs : List Checker) : runComplex symbols table cs [] = none := by
  rw [runComplex_eq_turns]
  cases cs.foldlM (turn symbols table) ⟨[],.empty⟩ with
  | none => rfl
  | some w => simp

/-- The strategies are one algorithm: whichever is selected for a list of checkers consumes and
captures what the working queue does, checker by checker and sibling by sibling. -/
theorem run_select_eq_runQueue (cs : List Checker) (siblings : List Tree) (index : Nat) :
    (select cs).run symbols table siblings index = (complex cs).run symbols table siblings index ∧
      (complex cs).run symbols table siblings index =
        runQueue symbols table cs siblings index := by
  refine ⟨(run_select symbols table cs siblings index).trans
    (runComplex_eq symbols table cs _).symm,?_⟩
  unfold runQueue
  split_ifs with hi
  · have hd : siblings.drop index = [] := List.drop_eq_nil_of_le (Nat.le_of_lt hi)
    change runComplex symbols table cs (siblings.drop index) = none
    rw [hd, runComplex_nil]
  · exact runComplex_eq_turns symbols table cs _

end Queue

end Strategy
end TreeRules
