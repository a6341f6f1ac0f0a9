import TreeRules.Proofs.Strategy.Captures

/-! When a match loses what it captured. The checks of a rule keep a hole from being bound twice
outside repeated items, and data out of repeated items; but one number may stand for data in one
item and for nodes in a repeated one, and then the later store drops what the earlier one stored.
Nothing else is ever lost. -/
namespace TreeRules
namespace Compilation

variable {h : Option Hierarchy} {r : Rule} {s t later : Compilation} {strategy : Strategy}
  {table : List Matcher} {u : SymbolTable}

/-- The stores of a compiled rule that passed the checks. -/
lemma checked_trace (hs : s.Sound h r.pattern) (hr : ∀ i ∈ r.pattern, i.ApartFrom r.pattern)
    (hshape : r.shapeDiagnostics = []) (hholes : r.checkHoles.2 = [])
    (hc : s.compileStrategy r = .ok (strategy,t)) (hv : t.SeenBy table u)
    (siblings : List Tree) (index : Nat) :
    Captures.Checked (strategy.trace u table siblings index) := by
  rw [(run_compileStrategy hs hr hshape hc hv siblings index).2, Strategy.traceOn]
  cases hd : Strategy.divide Item.mode (fun i n => i.plainDots.sat h n) r.pattern
      (siblings.drop index) with
  | none => exact ⟨.nil,by simp⟩
  | some shares => exact Strategy.checked_steps hshape hholes hd

/-- A match loses nothing exactly if all stores into one hole are of nodes, or of the same data. For
a rule that passed the checks and names its types by identifiers this means that no hole takes both
data and nodes in the match. -/
theorem nothingLost_compileStrategy (hh : ∀ k ∈ h, k.Reachable)
    (hshape : r.shapeDiagnostics = []) (hholes : r.checkHoles.2 = [])
    (hc : s.compileStrategy r = .ok (strategy,t)) (hl : t.Reaches (fun _ => True) later)
    (hu : later.symbols.names <+: u.names) {siblings : List Tree} {index : Nat}
    {run : Consumption} (hrun : strategy.run u later.matchers siblings index = some run) :
    run.captures = Captures.empty.replay (strategy.trace u later.matchers siblings index) ∧
      (Captures.NothingLost (strategy.trace u later.matchers siblings index) ↔
        Captures.Agree (strategy.trace u later.matchers siblings index)) ∧
      ∀ language config symbols,
        (start language h config symbols).Reaches Item.HasIdentifiers s →
        (∀ i ∈ r.pattern, i.HasIdentifiers) →
          (Captures.NothingLost (strategy.trace u later.matchers siblings index) ↔
            Captures.Unmixed (strategy.trace u later.matchers siblings index)) := by
  refine ⟨?_,Captures.nothingLost_iff_agree,fun language config symbols hs hid => ?_⟩
  · obtain ⟨-,rfl,-⟩ := compileStrategy_cases hc
    exact Strategy.captures_run_select u later.matchers hrun
  · have hapart : ∀ i : Item, i.HasIdentifiers → i.ApartFrom r.pattern :=
      fun i hi => apartFrom_of_hasIdentifiers hid hi
    have hr := fun i hi => hapart i (hid i hi)
    have hsound := hs.sound hapart hh
    have hv := hl.growsTo.seenByLater (hsound.compileStrategy hr hc).numbered hu
    rw [Captures.nothingLost_iff_agree]
    exact (checked_trace hsound hr hshape hholes hc hv siblings index).agree_iff

namespace Mixing

/-- The rule `A<#1>, {B#1} -> X<#1>;`. -/
def rule : Rule :=
  ⟨[.fixed (.plain .none) "A" (some (.hole ⟨1⟩)) [],
    .typedHole ⟨.repeated,false,.none⟩ "B" ⟨1⟩ false],
    .subtree .none "X" (some (.hole ⟨1⟩)) [],.none⟩

def siblings : List Tree :=
  [.node "A" (some "x") [] none,.node "B" none [] none,.node "B" none [] none]

def fresh : Compilation := start "default" none .default .empty

def made : List Checker × Compilation := compileCheckers rule.pattern Strategy.ordinals fresh

end Mixing

open Mixing in
/-- Data is dropped when a node is stored in its hole. -/
theorem data_lost_to_nodes :
    rule.shapeDiagnostics = [] ∧ rule.checkHoles.2 = [] ∧
      ((Strategy.select made.1).run made.2.symbols made.2.matchers siblings 0).map
        (fun run => run.captures.data? ⟨1⟩) = some none ∧
      ¬ Captures.NothingLost
        ((Strategy.select made.1).trace made.2.symbols made.2.matchers siblings 0) := by
  refine ⟨rfl,rfl,rfl,?_⟩
  have hsome : ((Strategy.select made.1).run made.2.symbols made.2.matchers siblings 0).isSome =
      true := by decide
  obtain ⟨run,hrun⟩ := Option.isSome_iff_exists.mp hsome
  have hid : ∀ i ∈ rule.pattern, i.HasIdentifiers := by
    simp [rule, Item.HasIdentifiers, Item.parts, Item.listParts, Item.type?, Item.IsIdentifier,
      Lexer.isIdStart]
  obtain ⟨-,-,hiff⟩ := nothingLost_compileStrategy (s := fresh) (r := rule) (t := made.2)
    (h := none) (by simp) rfl rfl rfl .refl (List.prefix_refl _) hrun
  intro hlossless
  have hmix := (hiff _ _ _ .refl hid).mp hlossless
  have hkind := hmix ⟨false,⟨1⟩,.data "x"⟩ List.mem_cons_self
    ⟨true,⟨1⟩,.node (.node "B" none [] none)⟩ (List.mem_cons_of_mem _ List.mem_cons_self) rfl
  cases hkind

end Compilation
end TreeRules
