import TreeRules.Proofs.Compile.Session

/-! Calls on a session, in the order in which they come. The effects of a call are followed step by
step: a call that fails leaves behind whatever it did before it failed. -/
namespace TreeRules.Compilation

/-- Steps on a session that may break off. The session is kept where they do. -/
abbrev Steps (α : Type) : Type := ExceptT CompileError (StateM Compilation) α

/-- The checkers of a left side, item by item. -/
def checkerSteps : List Item → List String → Steps (List Checker)
  | i :: items, name :: names => do
    let id ← modifyGet (compileItem i)
    let others ← checkerSteps items names
    return ⟨name,id,i.mode⟩ :: others
  | _, _ => return []

/-- A left side: its length is looked at first. -/
def strategySteps (r : Rule) : Steps Strategy := do
  if r.pattern.length > Strategy.ordinals.length then
    throw (.namesExhausted r.text Strategy.ordinals.length)
  let checkers ← checkerSteps r.pattern Strategy.ordinals
  return .select checkers

/-- A rule: the left side, the right side, and the entry in the list of rules. -/
def ruleSteps (r : Rule) : Steps Unit := do
  let strategy ← strategySteps r
  let result ← modifyGet (compileResult r.result)
  let id := (← get).nextRule
  modify fun s => s.insertRule
    { id
      text := r.text
      span := r.span
      strategy
      result
      minConsumed := strategy.minConsumed
      needsFragment := !result.isHole }

section Bind

variable {α β : Type} {p : Steps α} {f : α → Steps β} {s t : Compilation}

lemma run_bind_of_ok {a : α} (h : p.run.run s = (.ok a,t)) :
    (p >>= f).run.run s = (f a).run.run t := by
  rw [ExceptT.run_bind, StateT.run_bind, h]
  rfl

lemma run_bind_of_error {e : CompileError} (h : p.run.run s = (.error e,t)) :
    (p >>= f).run.run s = (.error e,t) := by
  rw [ExceptT.run_bind, StateT.run_bind, h]
  rfl

end Bind

lemma run_checkerSteps (items : List Item) (names : List String) (s : Compilation) :
    (checkerSteps items names).run.run s =
      (.ok (compileCheckers items names s).1,(compileCheckers items names s).2) := by
  induction items generalizing names s with
  | nil => rfl
  | cons i items ih =>
    cases names with
    | nil => rfl
    | cons name names =>
      have hfirst : (modifyGet (compileItem i) : Steps _).run.run s =
        (.ok (compileItem i s).1,(compileItem i s).2) := rfl
      rw [checkerSteps, run_bind_of_ok hfirst, run_bind_of_ok (ih names _)]
      rfl

/-- Where a left side is too long, nothing is compiled. -/
lemma run_strategySteps (r : Rule) (s : Compilation) :
    (strategySteps r).run.run s = match s.compileStrategy r with
      | .ok (strategy,t) => (.ok strategy,t)
      | .error e => (.error e,s) := by
  unfold strategySteps compileStrategy
  split_ifs with hl
  · rfl
  · exact run_bind_of_ok (run_checkerSteps _ _ s)

/-- A rule is compiled wholly or not at all: where it fails, the session is as it was. -/
lemma run_ruleSteps (r : Rule) (s : Compilation) :
    (ruleSteps r).run.run s = match s.compileRule r with
      | .ok t => (.ok (),t)
      | .error e => (.error e,s) := by
  have hs := run_strategySteps r s
  unfold ruleSteps compileRule
  cases hc : s.compileStrategy r with
  | error e =>
    rw [hc] at hs
    exact run_bind_of_error hs
  | ok made =>
    obtain ⟨strategy,t⟩ := made
    rw [hc] at hs
    exact run_bind_of_ok hs

/-- A call on a session. -/
inductive Call where
  | intern (name : String)
  | typeTest (name : String)
  | lookup (key : String)
  | item (i : Item)
  | result (t : Template)
  | rule (r : Rule)

/-- The session that a call leaves behind. -/
def after (s : Compilation) : Call → Compilation
  | .intern name => (s.intern name).2
  | .typeTest name => (s.typeTest name).2
  | .lookup _ => s
  | .item i => (compileItem i s).2
  | .result t => (s.compileResult t).2
  | .rule r => ((ruleSteps r).run.run s).2

/-- The session that calls leave behind, one after the other. -/
def afterAll (s : Compilation) (calls : List Call) : Compilation := calls.foldl after s

end TreeRules.Compilation
