import TreeRules.Check
import TreeRules.Proofs.Capture.Lossless
import TreeRules.Proofs.Check.Holes
import TreeRules.Proofs.Compile.Meaning
import TreeRules.Proofs.Strategy.Division
import Mathlib.Data.List.Forall2

/-! What a match of a rule captures. The compiled left side divides the siblings as its items would,
and its captures are what the shares of the items capture. -/
namespace TreeRules

variable {h : Option Hierarchy} {r : Rule}

namespace Strategy

/-- The captures of all shares, in the order of the siblings. -/
def occurrences (h : Option Hierarchy) (shares : List (Item × List Tree)) :
    List (Hole × Capture) :=
  shares.flatMap fun p => p.2.flatMap fun n => p.1.active h n

lemma map_steps {α : Type} (mode : α → Mode) (stored : α → Tree → List (Hole × Capture))
    (shares : List (α × List Tree)) :
    (steps mode stored shares).map (fun s => (s.hole,s.capture)) =
      shares.flatMap fun p => p.2.flatMap fun n => stored p.1 n := by
  simp only [steps, List.map_flatMap, Matcher.asStores, List.map_map, Function.comp_def]
  simp

lemma map_filter_asStores (accumulate : Bool) (stored : List (Hole × Capture)) :
    ((Matcher.asStores accumulate stored).filter fun s => !s.accumulate).map Store.hole =
      Holes.counted accumulate (stored.map Prod.fst) := by
  induction stored with
  | nil => cases accumulate <;> rfl
  | cons p stored ih =>
    cases accumulate with
    | true => exact ih
    | false => exact congrArg (p.1 :: ·) ih

lemma counted_flatMap (repeated : Bool) (ns : List Tree) (holes : Tree → List Hole) :
    Holes.counted repeated (ns.flatMap holes) =
      ns.flatMap fun n => Holes.counted repeated (holes n) := by
  induction ns with
  | nil => exact Holes.counted_nil
  | cons n ns ih => rw [List.flatMap_cons, Holes.counted_append, ih, List.flatMap_cons]

/-- Single stores are what the holes of shares count. -/
lemma map_filter_steps (shares : List (Item × List Tree)) :
    ((steps Item.mode (fun i n => i.plainDots.active h n) shares).filter
        fun s => !s.accumulate).map Store.hole = shares.flatMap (Holes.shareHoles h) := by
  simp only [steps, List.filter_flatMap, List.map_flatMap, map_filter_asStores]
  refine congrArg (List.flatMap · shares) (funext fun p => ?_)
  rw [Holes.shareHoles, counted_flatMap]

/-- The stores of a rule that passed the checks. -/
lemma checked_steps (hshape : r.shapeDiagnostics = []) (hholes : r.checkHoles.2 = [])
    {accepts : Item → Tree → Bool} {queue : List Tree} {shares : List (Item × List Tree)}
    (hd : divide Item.mode accepts r.pattern queue = some shares) :
    Captures.Checked (steps Item.mode (fun i n => i.plainDots.active h n) shares) := by
  have hfst := map_fst_divide hd
  constructor
  · rw [map_filter_steps]
    have htop : (Holes.declareTop r.note (shares.map Prod.fst) ⟨.empty,[]⟩).diagnostics = [] := by
      rw [hfst]
      exact (List.append_eq_nil_iff.mp hholes).1
    exact (Holes.declareTop_adds (length_share_le_one hd) _ htop).2.nodup
  · intro s hs hdata
    obtain ⟨p,hp,hs⟩ := List.mem_flatMap.mp hs
    obtain ⟨n,-,hs⟩ := List.mem_flatMap.mp hs
    obtain ⟨q,hq,rfl⟩ := List.mem_map.mp hs
    have hmem : p.1 ∈ r.pattern := hfst ▸ List.mem_map_of_mem hp
    by_contra hrep
    have hrep : (p.1.mode == .repeated) = true := by simpa using hrep
    have hnone := Shape.dataHole?_eq_none_of_check
      (Rule.check_of_shapeDiagnostics hshape hmem) hrep
    rw [Item.isData_of_active_plainDots hnone n q hq] at hdata
    cases hdata

end Strategy

namespace Compilation

variable {s t : Compilation} {strategy : Strategy} {table : List Matcher} {u : SymbolTable}

/-- A compiled left side runs as its items would, store by store. -/
theorem run_compileStrategy (hs : s.Sound h r.pattern)
    (hr : ∀ i ∈ r.pattern, i.ApartFrom r.pattern) (hshape : r.shapeDiagnostics = [])
    (hc : s.compileStrategy r = .ok (strategy,t)) (hv : t.SeenBy table u) (siblings : List Tree)
    (index : Nat) :
    strategy.run u table siblings index =
        Strategy.runOn Item.mode (fun i n => i.plainDots.sat h n)
          (fun i n => i.plainDots.active h n) r.pattern (siblings.drop index) ∧
      strategy.trace u table siblings index =
        Strategy.traceOn Item.mode (fun i n => i.plainDots.sat h n)
          (fun i n => i.plainDots.active h n) r.pattern (siblings.drop index) := by
  obtain ⟨cs,rfl,hm⟩ := compileStrategy_compiles hr hc hs
  rw [Strategy.run_select, Strategy.trace, Strategy.checkers_select]
  have ho : ∀ i ∈ r.pattern, i.Orderly := fun i hi =>
    Shape.orderly_of_check (Rule.check_of_shapeDiagnostics hshape hi)
  have hboth := (List.forall₂_and_left _ _).mpr ⟨ho,hm.flip⟩
  refine Strategy.runOn_congr ?_ hboth.flip _
  rintro c i ⟨ho,hmode,hmeans⟩
  exact ⟨hmode,hmeans.accepts ho hv,hmeans.stores ho hv⟩

end Compilation

namespace Rule

/-- The holes in data positions of the left side. -/
def dataHoles (r : Rule) : List Hole := (Item.listParts r.pattern).filterMap Item.dataHole?

/-- The holes for nodes of the left side. -/
def nodeHoles (r : Rule) : List Hole := (Item.listParts r.pattern).filterMap Item.asHole?

/-- Captures go to holes of the right kind. -/
lemma mem_holes_of_active {i : Item} (hi : i ∈ r.pattern) {n : Tree} {p : Hole × Capture}
    (hp : p ∈ i.plainDots.active h n) :
    (p.2.isData = true → p.1 ∈ r.dataHoles) ∧ (p.2.isData = false → p.1 ∈ r.nodeHoles) := by
  have hd := (Item.declared_of_active_plainDots i n p hp).mono
    fun j hj => Item.mem_listParts.mpr ⟨i,hi,hj⟩
  exact ⟨fun h => List.mem_filterMap.mpr (hd.1 h),fun h => List.mem_filterMap.mpr (hd.2 h)⟩

lemma mem_holes_of_steps {shares : List (Item × List Tree)}
    (hs : shares.map Prod.fst = r.pattern) {s : Store}
    (hstep : s ∈ Strategy.steps Item.mode (fun i n => i.plainDots.active h n) shares) :
    (s.capture.isData = true → s.hole ∈ r.dataHoles) ∧
      (s.capture.isData = false → s.hole ∈ r.nodeHoles) := by
  obtain ⟨q,hq,hstep⟩ := List.mem_flatMap.mp hstep
  obtain ⟨n,-,hstep⟩ := List.mem_flatMap.mp hstep
  obtain ⟨p,hp,rfl⟩ := List.mem_map.mp hstep
  exact mem_holes_of_active (hs ▸ List.mem_map_of_mem hq) hp

/-- The captures of a match say what the occurrences of the holes say: which holes are bound, to
which nodes or to which data, and in which order. -/
structure CapturesExactly (r : Rule) (occurrences : List (Hole × Capture)) (c : Captures) :
    Prop where
  bound : ∀ hole, (c.get? hole).isSome = true ↔ ∃ k, (hole,k) ∈ occurrences
  nodes : ∀ hole ∈ r.nodeHoles, (c.get? hole).isSome = true →
    c.nodes? hole = some ((occurrences.filter (·.1 == hole)).flatMap (·.2.kept))
  data : ∀ hole ∈ r.dataHoles, (c.get? hole).isSome = true →
    ∃ text, occurrences.filter (·.1 == hole) = [(hole,.data text)] ∧
      c.get? hole = some (.data text)
  order : c.holes = (occurrences.map Prod.fst).eraseDups

lemma capturesExactly_replay {occurrences : List (Hole × Capture)} {steps : List Store}
    (hmap : steps.map (fun s => (s.hole,s.capture)) = occurrences)
    (hc : Captures.Checked steps)
    (hkind : ∀ s ∈ steps, (s.capture.isData = true → s.hole ∈ r.dataHoles) ∧
      (s.capture.isData = false → s.hole ∈ r.nodeHoles))
    (hmix : ∀ hole ∈ r.dataHoles, hole ∉ r.nodeHoles) :
    r.CapturesExactly occurrences (Captures.empty.replay steps) := by
  have hfilter : ∀ hole, occurrences.filter (·.1 == hole) =
      (Captures.storesTo hole steps).map fun s => (s.hole,s.capture) := by
    intro hole
    rw [← hmap, List.filter_map]
    rfl
  refine ⟨fun hole => ?_,fun hole hn hb => ?_,fun hole hd hb => ?_,?_⟩
  · rw [Captures.isSome_get?_replay, ← hmap]
    simp
  · rw [Captures.nodes?_replay hole (Captures.isSome_get?_replay hole steps |>.mp hb), hfilter,
      List.flatMap_map]
    rintro s hs rfl
    by_contra hdata
    exact hmix _ ((hkind s hs).1 (by simpa using hdata)) hn
  · obtain ⟨s,hs,rfl⟩ := (Captures.isSome_get?_replay hole steps).mp hb
    have hall : ∀ t ∈ steps, t.hole = s.hole → t.capture.isData = true := by
      intro t ht hh
      by_contra hdata
      exact hmix _ hd (hh ▸ (hkind t ht).2 (by simpa using hdata))
    have hone := hc.storesTo_eq hs hall
    have hsd := hall s hs rfl
    obtain ⟨accumulate,hole,capture⟩ := s
    cases capture with
    | node n | nodes ns => cases hsd
    | data text =>
      refine ⟨text,by rw [hfilter, hone]; rfl,?_⟩
      exact Captures.get?_replay_data hole hone
  · rw [Captures.holes_replay, ← hmap, List.map_map]
    rfl

end Rule

namespace Compilation

variable {s t later : Compilation} {strategy : Strategy} {u : SymbolTable}

/-- Captures are exact: of a rule that passed the checks and names its types by identifiers, in
every session where no part that was compiled before has the text of a different part of the
rule. -/
theorem captures_compileStrategy (hh : ∀ k ∈ h, k.Reachable) {language : String}
    {config : Config} {symbols : SymbolTable}
    (hs : (start language h config symbols).Reaches (Item.ApartFrom r.pattern) s)
    (hshape : r.shapeDiagnostics = []) (hholes : r.checkHoles.2 = [])
    (hid : ∀ i ∈ r.pattern, i.HasIdentifiers) (hdots : ∀ i ∈ r.pattern, i.DotsNotNegated)
    (hmix : ∀ hole ∈ r.dataHoles, hole ∉ r.nodeHoles)
    (hc : s.compileStrategy r = .ok (strategy,t)) (hl : t.Reaches (fun _ => True) later)
    (hu : later.symbols.names <+: u.names) {siblings : List Tree} {index : Nat}
    {run : Consumption} (hrun : strategy.run u later.matchers siblings index = some run) :
    ∃ shares, Strategy.divide Item.mode (fun i n => i.sat h n) r.pattern (siblings.drop index) =
        some shares ∧
      run.consumed = Strategy.consumed shares ∧
      r.CapturesExactly (Strategy.occurrences h shares) run.captures := by
  have hr := fun i hi => apartFrom_of_hasIdentifiers hid (hid i hi)
  have hsound := hs.sound (fun _ hi => hi) hh
  have hv := hl.growsTo.seenByLater (hsound.compileStrategy hr hc).numbered hu
  rw [(run_compileStrategy hsound hr hshape hc hv _ _).1, Strategy.runOn] at hrun
  obtain ⟨shares,hd,hrun⟩ := Option.bind_eq_some_iff.mp hrun
  have hfst := Strategy.map_fst_divide hd
  split_ifs at hrun
  cases hrun
  refine ⟨shares,?_,rfl,Rule.capturesExactly_replay ?_ (Strategy.checked_steps hshape hholes hd)
    (fun s hs => Rule.mem_holes_of_steps hfst hs) hmix⟩
  · rw [← hd]
    refine Strategy.divide_congr_mem (fun i hi => ?_) _
    rw [Item.plainDots_eq_self (hdots i hi)]
  · rw [Strategy.map_steps, Strategy.occurrences]
    refine List.flatMap_congr fun p hp => ?_
    rw [Item.plainDots_eq_self (hdots p.1 (hfst ▸ List.mem_map_of_mem hp))]

namespace Gathering

def leaf (type : String) : Tree := .node type none [] none

/-- The rule `A<#1>(B#2, C#3...), {B#2} -> X<#1>(#2, #3);`. -/
def rule : Rule :=
  ⟨[.fixed (.plain .none) "A" (some (.hole ⟨1⟩))
      [.typedHole (.plain .none) "B" ⟨2⟩ false,.typedHole (.plain .none) "C" ⟨3⟩ true],
    .typedHole ⟨.repeated,false,.none⟩ "B" ⟨2⟩ false],
    .subtree .none "X" (some (.hole ⟨1⟩)) [.hole .none ⟨2⟩,.hole .none ⟨3⟩],.none⟩

def siblings : List Tree := [.node "A" (some "x") [leaf "B",leaf "C"] none,leaf "B",leaf "D"]

/-- An item whose type is no identifier, but whose text is no part's of the rule. -/
def earlier : Item := .fixed (.plain .none) "B#1" none []

def fresh : Compilation := start "default" none .default .empty

def session : Compilation := (compileItem earlier fresh).2

def made : List Checker × Compilation := compileCheckers rule.pattern Strategy.ordinals session

lemma apartFrom_earlier : earlier.ApartFrom rule.pattern := .of_body_ne (by decide +kernel)

end Gathering

open Gathering in
theorem captures_gathering :
    ∃ run, (Strategy.select made.1).run made.2.symbols made.2.matchers siblings 0 = some run ∧
      run.consumed = 2 ∧ run.captures.holes = [⟨1⟩,⟨2⟩,⟨3⟩] ∧
      run.captures.get? ⟨1⟩ = some (.data "x") ∧
      run.captures.nodes? ⟨2⟩ = some [leaf "B",leaf "B"] := by
  have hsome : ((Strategy.select made.1).run made.2.symbols made.2.matchers siblings 0).isSome =
      true := by decide
  obtain ⟨run,hrun⟩ := Option.isSome_iff_exists.mp hsome
  have hid : ∀ i ∈ rule.pattern, i.HasIdentifiers := by
    simp [rule, Item.HasIdentifiers, Item.parts, Item.listParts, Item.type?, Item.IsIdentifier,
      Lexer.isIdStart]
  have hdots : ∀ i ∈ rule.pattern, i.DotsNotNegated := by
    unfold Item.DotsNotNegated
    decide
  have hsession : fresh.Reaches (Item.ApartFrom rule.pattern) session :=
    .single (.item apartFrom_earlier fresh)
  obtain ⟨shares,hd,hcount,hexact⟩ := captures_compileStrategy (s := session) (r := rule)
    (t := made.2) (h := none) (by simp) hsession rfl rfl hid hdots (by decide) rfl .refl
    (List.prefix_refl _) hrun
  obtain rfl : [(rule.pattern.get ⟨0,by decide⟩,siblings.take 1),
      (rule.pattern.get ⟨1,by decide⟩,[leaf "B"])] = shares := Option.some.inj hd
  have horder : run.captures.holes = [⟨1⟩,⟨2⟩,⟨3⟩] := hexact.order
  have hbound : ∀ hole ∈ [(⟨1⟩ : Hole),⟨2⟩,⟨3⟩], (run.captures.get? hole).isSome = true :=
    fun hole hm => (Captures.isSome_get? _ _).mpr (horder ▸ hm)
  refine ⟨run,hrun,hcount,horder,?_,hexact.nodes ⟨2⟩ (by decide) (hbound _ (by simp))⟩
  obtain ⟨text,ht,hg⟩ := hexact.data ⟨1⟩ (by decide) (hbound _ (by simp))
  have ht : [((⟨1⟩ : Hole),Capture.data "x")] = [(⟨1⟩,.data text)] := ht
  obtain rfl : "x" = text := by simpa using ht
  exact hg

namespace Forging

/-- A type whose name is the text of a typed hole, declared below the type of the hole. -/
def types : Hierarchy := ⟨[⟨"A",none,.ordinary⟩,⟨"A#1",some "A",.ordinary⟩]⟩

/-- For nodes of type `A#1`. -/
def earlier : Rule := ⟨[.fixed (.plain .none) "A#1" none []],.null .none,.none⟩

/-- The rule `A#1 -> #1;`, for nodes of type `A`. -/
def rule : Rule := ⟨[.typedHole (.plain .none) "A" ⟨1⟩ false],.hole .none ⟨1⟩,.none⟩

def siblings : List Tree := [.node "A#1" none [] none]

def fresh : Compilation := start "default" (some types) .default .empty

/-- The session after the first rule. -/
def session : Compilation := (fresh.compileRule earlier).toOption.getD fresh

def made : List Checker × Compilation := compileCheckers rule.pattern Strategy.ordinals session

lemma hasIdentifiers_rule : ∀ i ∈ rule.pattern, i.HasIdentifiers := by
  simp [rule, Item.HasIdentifiers, Item.parts, Item.type?, Item.IsIdentifier, Lexer.isIdStart]

end Forging

open Forging in
/-- The earlier parts must be apart: after the rule for `A#1`, which passes the checks as well, the
rule for `A` has the matcher of that rule. It consumes the node as it should but does not capture
it. -/
theorem captures_forged :
    types.Reachable ∧ fresh.compileRule earlier = .ok session ∧
      earlier.diagnostics (some types) = [] ∧ rule.diagnostics (some types) = [] ∧
      (∀ i ∈ rule.pattern, i.HasIdentifiers) ∧ (∀ i ∈ rule.pattern, i.DotsNotNegated) ∧
      (∀ hole ∈ rule.dataHoles, hole ∉ rule.nodeHoles) ∧
      session.compileStrategy rule = .ok (.select made.1,made.2) ∧
      ∃ run shares,
        (Strategy.select made.1).run made.2.symbols made.2.matchers siblings 0 = some run ∧
        Strategy.divide Item.mode (fun i n => i.sat (some types) n) rule.pattern siblings =
          some shares ∧
        run.consumed = Strategy.consumed shares ∧
        ¬ rule.CapturesExactly (Strategy.occurrences (some types) shares) run.captures := by
  refine ⟨@Hierarchy.Reachable.load types.declarations _ rfl,rfl,rfl,rfl,hasIdentifiers_rule,?_,
    by decide,rfl,⟨1,.empty⟩,[(.typedHole (.plain .none) "A" ⟨1⟩ false,siblings)],rfl,rfl,rfl,?_⟩
  · unfold Item.DotsNotNegated
    decide
  · intro hexact
    have hbound := (hexact.bound ⟨1⟩).mpr ⟨_,List.mem_cons_self⟩
    cases hbound

end Compilation

end TreeRules
