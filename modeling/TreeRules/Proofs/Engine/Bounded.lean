import TreeRules.Proofs.Engine.Bound
import TreeRules.Proofs.Engine.Sweep
import TreeRules.Proofs.Strategy.Queue
import Mathlib.Algebra.Group.Nat.Defs

/-! Matching on numbers of bounded size. Sums may overflow, differences may fall below zero, and a
slice may reach past the end of its list: none of it happens, because no strategy takes more siblings
than there are, nor fewer than the least number that is known of it before it is run. -/
namespace TreeRules

namespace Fragment

/-- An end of the cover is folded from the same ends of the fragments. -/
lemma map_cover {part : Fragment → Nat} {op : Nat → Nat → Nat}
    (hjoin : ∀ f g, part (join f g) = op (part f) (part g)) (fs : List Fragment) :
    (cover fs).map part = match fs.map part with
      | [] => none
      | n :: ns => some (ns.foldl op n) := by
  cases fs with
  | nil => rfl
  | cons f fs =>
    have hfold : (fs.map part).foldl op (part f) = part (fs.foldl join f) := by
      rw [List.foldl_map]
      exact List.foldl_hom part fun f g => (hjoin f g).symm
    exact congrArg some hfold.symm

lemma start_cover (fs : List Fragment) :
    (cover fs).map Fragment.start = (fs.map Fragment.start).min? := by
  have hjoin : ∀ f g, (join f g).start = min f.start g.start := fun _ _ => rfl
  rw [map_cover hjoin]
  cases fs <;> rfl

lemma stop_cover (fs : List Fragment) :
    (cover fs).map Fragment.stop = (fs.map Fragment.stop).max? := by
  have hjoin : ∀ f g, (join f g).stop = max f.stop g.stop := fun _ _ => rfl
  rw [map_cover hjoin]
  cases fs <;> rfl

end Fragment

namespace Strategy

/-- Every normal item takes a sibling. -/
lemma countP_normal_le_consumed {α : Type} {mode : α → Mode} {accepts : α → Tree → Bool}
    {as : List α} {queue : List Tree} {shares : List (α × List Tree)}
    (h : divide mode accepts as queue = some shares) :
    as.countP (mode · == .normal) ≤ consumed shares := by
  induction as generalizing queue shares with
  | nil => exact Nat.zero_le _
  | cons a as ih =>
    obtain ⟨share,rest,ht,hr,rfl⟩ := divide_cases h
    have hrest := ih hr
    rw [List.countP_cons, consumed_cons]
    dsimp only
    split_ifs with hm
    · have hone : share.length = 1 := by
        rw [beq_iff_eq.mp hm] at ht
        cases queue with
        | nil => cases ht
        | cons n queue =>
          simp only [taken, Option.ite_none_right_eq_some, Option.some.injEq] at ht
          exact ht.2 ▸ rfl
      omega
    · omega

variable {symbols : SymbolTable} {table : List Matcher} {strategy : Strategy}
  {siblings : List Tree} {index : Nat} {c : Consumption}

/-- A run takes no fewer siblings than its strategy says beforehand. -/
theorem minConsumed_le_run (h : strategy.run symbols table siblings index = some c) :
    strategy.minConsumed ≤ c.consumed := by
  have hpos := (consumed_run h).1
  cases strategy with
  | simple cs =>
    rw [run, runSimple] at h
    split_ifs at h
    dsimp only at h
    split_ifs at h
    cases h
    exact Nat.le_refl _
  | repeated k => exact hpos
  | complex cs =>
    rw [run, runComplex_eq, runOn] at h
    obtain ⟨shares,hd,h⟩ := Option.bind_eq_some_iff.mp h
    split_ifs at h
    cases h
    exact Nat.max_le.mpr ⟨countP_normal_le_consumed hd,hpos⟩

end Strategy

namespace Bounded

/-- Why a step cannot be taken. -/
inductive Fault where
  /-- A sum is too large, or a difference would be negative. -/
  | overflow
  /-- A slice reaches past the end, or ends before it starts. -/
  | outOfRange
deriving DecidableEq

section Arithmetic

variable {α : Type} (limit : Nat)

def saturatingAdd (a b : Nat) : Nat := min (a + b) limit

def checkedAdd (a b : Nat) : Option Nat := if a + b ≤ limit then some (a + b) else none

def add (a b : Nat) : Except Fault Nat := if a + b ≤ limit then .ok (a + b) else .error .overflow

def sub (a b : Nat) : Except Fault Nat := if b ≤ a then .ok (a - b) else .error .overflow

/-- The entries from `start` to before `stop`, if there are such places. -/
def slice? (xs : List α) (start stop : Nat) : Option (List α) :=
  if start ≤ stop ∧ stop ≤ xs.length then some ((xs.drop start).take (stop - start)) else none

def slice (xs : List α) (start stop : Nat) : Except Fault (List α) :=
  match slice? xs start stop with
  | some ys => .ok ys
  | none => .error .outOfRange

variable {limit}

lemma slice_eq_ok {xs : List α} {start count : Nat} (h : start + count ≤ xs.length) :
    slice xs start (start + count) = .ok ((xs.drop start).take count) := by
  have hs : slice? xs start (start + count) = some ((xs.drop start).take count) := by
    rw [slice?, if_pos ⟨Nat.le_add_right _ _,h⟩, Nat.add_sub_cancel_left]
  rw [slice, hs]

lemma slice_of_isPrefix {xs ys : List α} (h : ys <+: xs) : slice xs 0 ys.length = .ok ys := by
  have hs : slice? xs 0 ys.length = some ys := by
    rw [slice?, if_pos ⟨Nat.zero_le _,h.length_le⟩, List.drop_zero, Nat.sub_zero,
      ← List.prefix_iff_eq_take.mp h]
  rw [slice, hs]

/-- The entries from a place on; behind the end there is no such list. -/
lemma slice?_to_end (xs : List α) (start : Nat) :
    slice? xs start xs.length = if start ≤ xs.length then some (xs.drop start) else none := by
  unfold slice?
  split_ifs with h
  · rw [← List.length_drop, List.take_length]
  · omega
  · omega
  · rfl

end Arithmetic

section Run

variable (limit : Nat) (symbols : SymbolTable) (table : List Matcher)

open Strategy (accepts extract extractAll turn)

def runSimple (cs : List Checker) (siblings : List Tree) (index : Nat) : Option Consumption :=
  if cs.isEmpty then none
  else do
    let stop ← checkedAdd limit index cs.length
    let window ← slice? siblings index stop
    if (cs.zip window).all fun p => accepts symbols table p.1 p.2 then
      some ⟨window.length,
        (cs.zip window).foldl (fun caps p => extract symbols table p.1 p.2 caps) .empty⟩
    else none

def runRepeated (c : Checker) (siblings : List Tree) (index : Nat) :
    Except Fault (Option Consumption) :=
  match slice? siblings index siblings.length with
  | none => .ok none
  | some rest => do
    let count := (rest.takeWhile (accepts symbols table c)).length
    if count = 0 then return none
    let taken ← slice rest 0 count
    return some ⟨count,extractAll symbols table c taken .empty⟩

def runComplex (cs : List Checker) (siblings : List Tree) (index : Nat) :
    Except Fault (Option Consumption) :=
  match slice? siblings index siblings.length with
  | none => .ok none
  | some waiting =>
    match cs.foldlM (turn symbols table) ⟨waiting,.empty⟩ with
    | none => .ok none
    | some w => do
      let count ← sub waiting.length w.queue.length
      return if count = 0 then none else some ⟨count,w.captures⟩

def run (strategy : Strategy) (siblings : List Tree) (index : Nat) :
    Except Fault (Option Consumption) :=
  match strategy with
  | .simple cs => .ok (runSimple limit symbols table cs siblings index)
  | .repeated c => runRepeated symbols table c siblings index
  | .complex cs => runComplex symbols table cs siblings index

variable {limit} {siblings : List Tree} {index : Nat}

lemma runSimple_eq (cs : List Checker) (hl : siblings.length ≤ limit) :
    runSimple limit symbols table cs siblings index =
      Strategy.runSimple symbols table cs (siblings.drop index) := by
  unfold runSimple Strategy.runSimple
  rw [List.length_drop]
  cases hcs : cs.isEmpty with
  | true => rfl
  | false =>
    have hne : 0 < cs.length := List.length_pos_iff.mpr (List.isEmpty_eq_false_iff.mp hcs)
    by_cases hfit : index + cs.length ≤ siblings.length
    · have hwindow : slice? siblings index (index + cs.length) =
          some ((siblings.drop index).take cs.length) := by
        rw [slice?, if_pos ⟨Nat.le_add_right _ _,hfit⟩, Nat.add_sub_cancel_left]
      have hlen : ((siblings.drop index).take cs.length).length = cs.length := by
        rw [List.length_take, List.length_drop]
        omega
      have hzip : cs.zip ((siblings.drop index).take cs.length) = cs.zip (siblings.drop index) := by
        have htake := @List.take_zipWith _ _ _ Prod.mk cs (siblings.drop index) cs.length
        have hle : (List.zipWith Prod.mk cs (siblings.drop index)).length ≤ cs.length :=
          List.length_zipWith ▸ Nat.min_le_left _ _
        rw [List.take_length, List.take_of_length_le hle] at htake
        exact htake.symm
      have hadd : checkedAdd limit index cs.length = some (index + cs.length) :=
        if_pos (Nat.le_trans hfit hl)
      have hroom : ¬ siblings.length - index < cs.length := by omega
      simp only [hadd, Option.bind_eq_bind, Option.bind_some, hwindow, hzip, hlen, hroom,
        Bool.false_or, decide_false, if_false, Bool.false_eq_true]
    · -- the sum overflows, or the window ends behind the last sibling
      have hnone : (checkedAdd limit index cs.length).bind (slice? siblings index) = none := by
        unfold checkedAdd
        split_ifs with hsum
        · exact if_neg fun hslice => hfit hslice.2
        · rfl
      have hroom : siblings.length - index < cs.length := by omega
      simp only [Option.bind_eq_bind, ← Option.bind_assoc, hnone, Option.bind_none, hroom,
        Bool.false_or, decide_true, if_true, if_false, Bool.false_eq_true]

lemma runRepeated_eq (c : Checker) :
    runRepeated symbols table c siblings index =
      .ok (Strategy.runRepeated symbols table c (siblings.drop index)) := by
  unfold runRepeated Strategy.runRepeated
  rw [slice?_to_end]
  by_cases hi : index ≤ siblings.length
  · have hprefix := List.takeWhile_prefix (accepts symbols table c) (l := siblings.drop index)
    rw [if_pos hi]
    dsimp only
    rw [slice_of_isPrefix hprefix]
    by_cases hnone : siblings.drop index |>.takeWhile (accepts symbols table c) |>.isEmpty
    · rw [if_pos hnone, List.isEmpty_iff.mp hnone]
      rfl
    · rw [if_neg hnone, if_neg (by simpa [List.length_eq_zero_iff] using hnone)]
      rfl
  · rw [if_neg hi, List.drop_eq_nil_of_le (Nat.le_of_not_le hi)]
    rfl

lemma runComplex_eq (cs : List Checker) :
    runComplex symbols table cs siblings index =
      .ok (Strategy.runComplex symbols table cs (siblings.drop index)) := by
  unfold runComplex
  rw [slice?_to_end]
  by_cases hi : index ≤ siblings.length
  · rw [if_pos hi, Strategy.runComplex_eq_turns]
    dsimp only
    cases hw : cs.foldlM (turn symbols table) ⟨siblings.drop index,.empty⟩ with
    | none => rfl
    | some w =>
      have hle : w.queue.length ≤ (siblings.drop index).length :=
        Strategy.length_turns_le symbols table hw
      dsimp only
      rw [sub, if_pos hle]
      rfl
  · rw [if_neg hi, List.drop_eq_nil_of_le (Nat.le_of_not_le hi), Strategy.runComplex_nil]

/-- On a list whose length is a number, no strategy fails. -/
theorem run_eq_ok (strategy : Strategy) (hl : siblings.length ≤ limit) :
    run limit symbols table strategy siblings index =
      .ok (strategy.run symbols table siblings index) := by
  cases strategy with
  | simple cs => exact congrArg Except.ok (runSimple_eq symbols table cs hl)
  | repeated c => exact runRepeated_eq symbols table c
  | complex cs => exact runComplex_eq symbols table cs

end Run

/-- The fragment that siblings cover, if it is needed. -/
def fragment (limit : Nat) (needed : Bool) (siblings : List Tree) (index count : Nat) :
    Except Fault (Option Fragment) :=
  if needed then do
    let stop ← add limit index count
    let window ← slice siblings index stop
    return Fragment.cover (window.filterMap Tree.fragment)
  else .ok none

/-- Matches the left side of a rule at `index`, unless too few siblings are left. -/
def tryMatch (limit : Nat) (e : Engine) (r : CompiledRule) (siblings : List Tree) (index : Nat) :
    Except Fault (Option Match) :=
  if saturatingAdd limit index r.minConsumed > siblings.length then .ok none
  else do
    match ← run limit e.symbols e.language.matchers r.strategy siblings index with
    | none => return none
    | some c =>
      let fragment ← fragment limit r.needsFragment siblings index c.consumed
      return some ⟨c.consumed,c.captures,fragment⟩

lemma fragment_eq_ok {limit : Nat} (needed : Bool) {siblings : List Tree} {index count : Nat}
    (hl : siblings.length ≤ limit) (h : index + count ≤ siblings.length) :
    fragment limit needed siblings index count =
      .ok (if needed then Engine.coverOf siblings index count else none) := by
  unfold fragment
  cases needed with
  | false => rfl
  | true =>
    have hadd : add limit index count = .ok (index + count) := if_pos (Nat.le_trans h hl)
    rw [if_pos rfl, if_pos rfl, hadd]
    change (slice siblings index (index + count)).bind _ = _
    rw [slice_eq_ok h]
    rfl

end Bounded

namespace Engine

variable {e : Engine} {r : CompiledRule} {siblings : List Tree} {index : Nat}

/-- If a rule takes no fewer siblings than it says, it is tried in vain where it is not tried. -/
lemma tryMatch_eq_map (hr : r.minConsumed = r.strategy.minConsumed) :
    e.tryMatch r siblings index = (e.runStrategy r siblings index).map fun c =>
      ⟨c.consumed,c.captures,
        if r.needsFragment then coverOf siblings index c.consumed else none⟩ := by
  unfold tryMatch
  cases hc : e.runStrategy r siblings index with
  | none => split_ifs <;> rfl
  | some c =>
    have hmin := hr ▸ Strategy.minConsumed_le_run hc
    have hle := (Strategy.consumed_run hc).2
    rw [if_neg (by omega)]
    rfl

end Engine

/-- The sum that stops at the largest number passes over no match either. -/
theorem Bounded.tryMatch_eq_ok {limit : Nat} (e : Engine) {r : CompiledRule}
    (hr : r.minConsumed = r.strategy.minConsumed) {siblings : List Tree} (index : Nat)
    (hl : siblings.length ≤ limit) :
    tryMatch limit e r siblings index = .ok (e.tryMatch r siblings index) := by
  have hrun : run limit e.symbols e.language.matchers r.strategy siblings index =
      .ok (e.runStrategy r siblings index) := run_eq_ok _ _ r.strategy hl
  unfold tryMatch
  rw [Engine.tryMatch_eq_map hr, hrun]
  cases hc : e.runStrategy r siblings index with
  | none => split_ifs <;> rfl
  | some c =>
    have hmin := hr ▸ Strategy.minConsumed_le_run hc
    have hle := (Strategy.consumed_run hc).2
    have hsum : saturatingAdd limit index r.minConsumed ≤ siblings.length :=
      Nat.le_trans (Nat.min_le_left _ _) (by omega)
    rw [if_neg (Nat.not_lt.mpr hsum)]
    change (fragment limit r.needsFragment siblings index c.consumed).bind _ = _
    rw [fragment_eq_ok r.needsFragment hl hle]
    rfl

namespace Compilation

variable {r : Rule} {s t : Compilation} {cr : CompiledRule}

/-- The least number that is noted of a compiled rule is that of its strategy. -/
lemma minConsumed_of_compileRule (hc : s.compileRule r = .ok t)
    (hcr : t.rules = s.rules ++ [cr]) : cr.minConsumed = cr.strategy.minConsumed := by
  rw [compileRule] at hc
  cases hst : s.compileStrategy r with
  | error e =>
    rw [hst] at hc
    cases hc
  | ok made =>
    rw [hst] at hc
    cases hc
    obtain ⟨-,hlast⟩ := List.append_inj' hcr rfl
    cases hlast
    rfl

/-- No match is lost to the look at how many siblings are left. At every place, up to the largest
number and beyond, a compiled rule is run and tried without a fault; it takes no fewer siblings than
were noted of it, and no more than there are; it is found to match exactly where its strategy does,
with the same count and the same captures; the siblings that it took are a slice of the list, and a
fragment that is needed is from the first start to the last end among these siblings. -/
theorem tryMatch_compileRule (hc : s.compileRule r = .ok t) (hcr : t.rules = s.rules ++ [cr])
    (e : Engine) {limit : Nat} {siblings : List Tree} (hl : siblings.length ≤ limit)
    (index : Nat) :
    Bounded.run limit e.symbols e.language.matchers cr.strategy siblings index =
        .ok (e.runStrategy cr siblings index) ∧
      Bounded.tryMatch limit e cr siblings index = .ok (e.tryMatch cr siblings index) ∧
      (∀ c, e.runStrategy cr siblings index = some c →
        cr.minConsumed ≤ c.consumed ∧ index + c.consumed ≤ siblings.length) ∧
      (e.tryMatch cr siblings index).map (fun m => (⟨m.consumed,m.captures⟩ : Consumption)) =
        e.runStrategy cr siblings index ∧
      ∀ m, e.tryMatch cr siblings index = some m →
        ∃ window, Bounded.slice siblings index (index + m.consumed) = .ok window ∧
          window.length = m.consumed ∧
          (cr.needsFragment = true →
            m.fragment.map Fragment.start =
                ((window.filterMap Tree.fragment).map Fragment.start).min? ∧
              m.fragment.map Fragment.stop =
                ((window.filterMap Tree.fragment).map Fragment.stop).max?) ∧
          (cr.needsFragment = false → m.fragment = none) := by
  have hmin := minConsumed_of_compileRule hc hcr
  refine ⟨Bounded.run_eq_ok _ _ cr.strategy hl,Bounded.tryMatch_eq_ok e hmin index hl,
    fun c hrun => ?_,?_,fun m hm => ?_⟩
  · exact ⟨hmin ▸ Strategy.minConsumed_le_run hrun,(Strategy.consumed_run hrun).2⟩
  · rw [Engine.tryMatch_eq_map hmin, Option.map_map]
    exact Option.map_id_apply
  · rw [Engine.tryMatch_eq_map hmin] at hm
    obtain ⟨c,hrun,rfl⟩ := Option.map_eq_some_iff.mp hm
    have hle := (Strategy.consumed_run hrun).2
    refine ⟨_,Bounded.slice_eq_ok hle,?_,fun hneeded => ?_,fun hneeded => ?_⟩
    · rw [List.length_take, List.length_drop]
      exact Nat.min_eq_left (Nat.le_sub_of_add_le' hle)
    · dsimp only
      rw [if_pos hneeded]
      exact ⟨Fragment.start_cover _,Fragment.stop_cover _⟩
    · exact if_neg (by simp [hneeded])

namespace Windows

/-- The rule `[A()], B(), {C#1} -> X(#1);`. -/
def rule : Rule :=
  ⟨[.fixed ⟨.optional,false,.none⟩ "A" none [],.fixed (.plain .none) "B" none [],
      .typedHole ⟨.repeated,false,.none⟩ "C" ⟨1⟩ false],
    .subtree .none "X" none [.hole .none ⟨1⟩],.none⟩

/-- Fragments need not be in order, nor start before they end. -/
def siblings : List Tree :=
  [.node "B" none [] (some ⟨3,5⟩),.node "C" none [] (some ⟨9,2⟩),.node "C" none [] none,
    .node "B" none [] (some ⟨0,99⟩)]

def fresh : Compilation := .start "default" none .default .empty

def made : Compilation := (fresh.compileRule rule).toOption.getD fresh

def compiled : CompiledRule := made.rules.headD ⟨0,"",.none,.select [],.null,0,false⟩

def engine : Engine := ⟨made.symbols,made.finish⟩

end Windows

open Windows in
/-- A match of three siblings, and none at the largest number, where sums overflow. -/
theorem tryMatch_windows :
    (∃ m, Bounded.tryMatch (2 ^ 64 - 1) engine compiled siblings 0 = .ok (some m) ∧
        compiled.minConsumed = 1 ∧ m.consumed = 3 ∧ m.fragment.map Fragment.start = some 3 ∧
        m.fragment.map Fragment.stop = some 5) ∧
      Bounded.tryMatch (2 ^ 64 - 1) engine compiled siblings (2 ^ 64 - 1) = .ok none := by
  have hc : fresh.compileRule rule = .ok made := rfl
  have hcr : made.rules = fresh.rules ++ [compiled] := rfl
  have hl : siblings.length ≤ 2 ^ 64 - 1 := by decide
  have hall := tryMatch_compileRule hc hcr engine hl
  constructor
  · obtain ⟨-,htry,-,-,hfound⟩ := hall 0
    have hconsumed : (engine.tryMatch compiled siblings 0).map Match.consumed = some 3 := by decide
    obtain ⟨m,hm,hthree⟩ := Option.map_eq_some_iff.mp hconsumed
    obtain ⟨window,hwindow,-,hcover,-⟩ := hfound m hm
    rw [hthree] at hwindow
    cases hwindow
    obtain ⟨hstart,hstop⟩ := hcover rfl
    exact ⟨m,hm ▸ htry,rfl,hthree,hstart,hstop⟩
  · obtain ⟨-,htry,-⟩ := hall (2 ^ 64 - 1)
    have hnone : (engine.tryMatch compiled siblings (2 ^ 64 - 1)).isNone = true := by decide
    rw [htry, Option.isNone_iff_eq_none.mp hnone]

end Compilation

end TreeRules
