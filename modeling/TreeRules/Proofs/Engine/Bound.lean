import TreeRules.Proofs.Builder.Strict
import TreeRules.Proofs.Check.Firm
import TreeRules.Proofs.Strategy.Captures

/-! The check of holes and the run. A match binds no hole that the check does not declare, and it
binds every hole that stands outside alternatives in an item that must take a sibling. So where
nothing is optional, repeated or an alternative, building finds all its holes bound. -/
namespace TreeRules

variable {h : Option Hierarchy} {r : Rule}

namespace Strategy

variable {α : Type} {mode : α → Mode} {accepts : α → Tree → Bool} {as : List α}
  {queue : List Tree} {shares : List (α × List Tree)}

/-- The share of a normal item is one sibling that it accepts. -/
lemma share_of_normal (hd : divide mode accepts as queue = some shares) {a : α} (ha : a ∈ as)
    (hm : mode a = .normal) : ∃ n, (a,[n]) ∈ shares ∧ accepts a n = true := by
  induction as generalizing queue shares with
  | nil => cases ha
  | cons b as ih =>
    obtain ⟨share,rest,ht,hr,rfl⟩ := divide_cases hd
    rcases List.mem_cons.mp ha with rfl | ha
    · rw [hm] at ht
      cases queue with
      | nil => cases ht
      | cons n queue =>
        simp only [taken, Option.ite_none_right_eq_some, Option.some.injEq] at ht
        obtain ⟨hn,rfl⟩ := ht
        exact ⟨n,List.mem_cons_self,hn⟩
    · obtain ⟨n,hn,haccept⟩ := ih hr ha
      exact ⟨n,List.mem_cons_of_mem _ hn,haccept⟩

/-- A hole is bound exactly if some item stores in it of a sibling in its share. -/
lemma isSome_get?_steps (stored : α → Tree → List (Hole × Capture)) (hole : Hole) :
    ((Captures.empty.replay (steps mode stored shares)).get? hole).isSome = true ↔
      ∃ p ∈ shares, ∃ n ∈ p.2, ∃ k, (hole,k) ∈ stored p.1 n := by
  rw [Captures.isSome_get?_replay]
  constructor
  · rintro ⟨s,hs,rfl⟩
    obtain ⟨p,hp,hs⟩ := List.mem_flatMap.mp hs
    obtain ⟨n,hn,hs⟩ := List.mem_flatMap.mp hs
    obtain ⟨q,hq,rfl⟩ := List.mem_map.mp hs
    exact ⟨p,hp,n,hn,q.2,hq⟩
  · rintro ⟨p,hp,n,hn,k,hk⟩
    refine ⟨⟨mode p.1 == .repeated,hole,k⟩,?_,rfl⟩
    exact List.mem_flatMap.mpr ⟨p,hp,List.mem_flatMap.mpr ⟨n,hn,List.mem_map.mpr ⟨_,hk,rfl⟩⟩⟩

end Strategy

/-- What an item captures goes to a hole that occurs in it. -/
lemma Item.occursIn_of_active {i : Item} (hi : i ∈ r.pattern) {n : Tree} {hole : Hole}
    {k : Capture} (hk : (hole,k) ∈ i.plainDots.active h n) :
    Holes.OccursIn (Item.listParts r.pattern) hole := by
  have hd := Item.declared_of_active_plainDots i n _ hk
  cases hdata : k.isData with
  | true =>
    obtain ⟨j,hj,hh⟩ := hd.1 hdata
    refine ⟨j,Item.mem_listParts.mpr ⟨i,hi,hj⟩,?_⟩
    cases j <;> first | exact hh | cases hh
  | false =>
    obtain ⟨j,hj,hh⟩ := hd.2 hdata
    refine ⟨j,Item.mem_listParts.mpr ⟨i,hi,hj⟩,?_⟩
    rw [Item.ownHole?, hh]
    rfl

namespace Compilation

variable {s t later : Compilation} {cr : CompiledRule} {u : SymbolTable}

/-- The rule that compiling adds has the strategy and the right side that were made for it. -/
lemma compiled_of_compileRule (hc : s.compileRule r = .ok t) (hcr : t.rules = s.rules ++ [cr]) :
    ∃ mid, s.compileStrategy r = .ok (cr.strategy,mid) ∧
      cr.result = (mid.compileResult r.result).1 ∧
      t = (mid.compileResult r.result).2.insertRule cr := by
  rw [compileRule] at hc
  cases hst : s.compileStrategy r with
  | error e =>
    rw [hst] at hc
    cases hc
  | ok made =>
    obtain ⟨strategy,mid⟩ := made
    rw [hst] at hc
    cases hc
    obtain ⟨-,hlast⟩ := List.append_inj' hcr rfl
    cases hlast
    exact ⟨mid,rfl,rfl,rfl⟩

end Compilation

namespace Engine

section Match

variable {e : Engine} {cr : CompiledRule} {siblings : List Tree} {index : Nat} {m : Match}

/-- What a match says is what the strategy consumed and captured. -/
lemma run_of_tryMatch (hm : e.tryMatch cr siblings index = some m) :
    e.runStrategy cr siblings index = some ⟨m.consumed,m.captures⟩ := by
  rw [tryMatch] at hm
  split_ifs at hm
  all_goals
    cases hrun : e.runStrategy cr siblings index with
    | none =>
      rw [hrun] at hm
      cases hm
    | some run =>
      rw [hrun] at hm
      cases hm
      rfl

/-- A match binds what the shares of the items capture. -/
lemma exists_shares_of_tryMatch {s mid later : Compilation} {u : SymbolTable}
    (hs : s.Sound h r.pattern) (hr : ∀ i ∈ r.pattern, i.ApartFrom r.pattern)
    (hshape : r.shapeDiagnostics = [])
    (hc : s.compileStrategy r = .ok (cr.strategy,mid)) (hv : mid.SeenBy later.matchers u)
    (hm : Engine.tryMatch ⟨u,later.finish⟩ cr siblings index = some m) :
    ∃ shares, Strategy.divide Item.mode (fun i n => i.plainDots.sat h n) r.pattern
        (siblings.drop index) = some shares ∧
      ∀ hole, (m.captures.get? hole).isSome = true ↔
        ∃ p ∈ shares, ∃ n ∈ p.2, ∃ k, (hole,k) ∈ p.1.plainDots.active h n := by
  have hrun : cr.strategy.run u later.matchers siblings index = some ⟨m.consumed,m.captures⟩ :=
    run_of_tryMatch hm
  rw [(Compilation.run_compileStrategy hs hr hshape hc hv _ _).1, Strategy.runOn] at hrun
  obtain ⟨shares,hd,hrun⟩ := Option.bind_eq_some_iff.mp hrun
  split_ifs at hrun
  have hcaps : m.captures = Captures.empty.replay
      (Strategy.steps Item.mode (fun i n => i.plainDots.active h n) shares) := by
    injection hrun with hrun
    injection hrun with _ hcaps
    exact hcaps.symm
  exact ⟨shares,hd,fun hole => by rw [hcaps, Strategy.isSome_get?_steps]⟩

/-- Holes are checked as they are bound. Of a rule that passed the checks and whose types are named
by identifiers, compiled where no earlier part has the text of a different part of the rule, a match
binds declared holes only, and it binds every hole that has an occurrence in a normal item outside
alternatives. If all items are normal and without alternatives, the right side reads no hole that is
not bound: neither for itself, nor for children, nor for data. -/
theorem holes_of_tryMatch (hh : ∀ k ∈ h, k.Reachable) {language : String} {config : Config}
    {symbols : SymbolTable} {s t later : Compilation} {u : SymbolTable}
    (hs : (Compilation.start language h config symbols).Reaches (Item.ApartFrom r.pattern) s)
    (hshape : r.shapeDiagnostics = []) (hholes : r.checkHoles.2 = [])
    (hid : ∀ i ∈ r.pattern, i.HasIdentifiers) (hc : s.compileRule r = .ok t)
    (hcr : t.rules = s.rules ++ [cr]) (hl : t.Reaches (fun _ => True) later)
    (hu : later.symbols.names <+: u.names)
    (hm : Engine.tryMatch ⟨u,later.finish⟩ cr siblings index = some m) :
    (∀ hole, (m.captures.get? hole).isSome = true → r.checkHoles.1.isDeclared hole = true) ∧
      (∀ i ∈ r.pattern, i.mode = .normal → ∀ j, Item.Firm i j → ∀ hole,
        j.ownHole? = some hole → (m.captures.get? hole).isSome = true) ∧
      ((∀ i ∈ r.pattern, i.mode = .normal ∧ ∀ j ∈ i.parts, j.isAnyOf = false) →
        (∀ read ∈ r.result.holes, (m.captures.get? read.1).isSome = true) ∧
        ∀ f, Strict.replacement u later.builders f m.captures m.fragment cr.result =
          .ok (Engine.build ⟨u,later.finish⟩ f cr m)) := by
  have hr := fun i hi => Compilation.apartFrom_of_hasIdentifiers hid (hid i hi)
  have hsound := hs.sound (fun _ hi => hi) hh
  obtain ⟨mid,hstrategy,hresult,rfl⟩ := Compilation.compiled_of_compileRule hc hcr
  have hgrows : mid.GrowsTo later :=
    ((Compilation.compileResult_adds _ mid).1.trans (Compilation.growsTo_insertRule _ cr)).trans
      hl.growsTo
  have hv := hgrows.seenByLater (hsound.compileStrategy hr hstrategy).numbered hu
  obtain ⟨shares,hd,hbound⟩ := exists_shares_of_tryMatch hsound hr hshape hstrategy hv hm
  have hfirm : ∀ i ∈ r.pattern, i.mode = .normal → ∀ j, Item.Firm i j → ∀ hole,
      j.ownHole? = some hole → (m.captures.get? hole).isSome = true := by
    intro i hi hmode j hj hole hown
    obtain ⟨n,hn,hsat⟩ := Strategy.share_of_normal hd hi hmode
    obtain ⟨k,hk⟩ := Item.exists_active_of_firm hj hown
      (Rule.check_of_shapeDiagnostics hshape hi) hsat
    exact (hbound hole).mpr ⟨_,hn,n,List.mem_singleton.mpr rfl,k,hk⟩
  refine ⟨fun hole hb => ?_,hfirm,fun hall => ?_⟩
  · obtain ⟨p,hp,n,-,k,hk⟩ := (hbound hole).mp hb
    have hmem : p.1 ∈ r.pattern := Strategy.map_fst_divide hd ▸ List.mem_map_of_mem hp
    exact (r.isDeclared_checkHoles hole).mpr (Item.occursIn_of_active hmem hk)
  · have hreads : ∀ read ∈ r.result.holes, (m.captures.get? read.1).isSome = true := by
      intro read hread
      obtain ⟨j,hj,hown⟩ := Rule.occursIn_of_checkHoles hholes hread
      obtain ⟨i,hi,hj⟩ := Item.mem_listParts.mp hj
      exact hfirm i hi (hall i hi).1 j (.of_mem_parts (hall i hi).2 hj) _ hown
    refine ⟨hreads,fun f => ?_⟩
    -- the builders are those of the session, which later rules leave where they are
    obtain ⟨hclosed,-⟩ := hs.closes (Compilation.closed_start language h config symbols)
    obtain ⟨hmidClosed,-⟩ := Compilation.compileStrategy_closes hstrategy hclosed
    obtain ⟨hright,-⟩ := Compilation.compileRule_closes hc hclosed
    obtain ⟨hlater,hkeep⟩ := hl.closes hright
    rw [hresult, Engine.build, hresult]
    exact Compilation.strict_compileResult r.result hmidClosed
      (((Compilation.keepsTo_insertRule _ cr).trans hkeep).buildersIn
        ⟨hu,hlater.builderIds,List.suffix_refl _⟩) hreads m.fragment

end Match

namespace Binding

def leaf (type : String) : Tree := .node type none [] none

/-- The rule `&(A<#1>(B#2, C#3...), !D()) -> X<#1>(#2, Y(#3));`. -/
def rule : Rule :=
  ⟨[.allOf (.plain .none)
      [.fixed (.plain .none) "A" (some (.hole ⟨1⟩))
        [.typedHole (.plain .none) "B" ⟨2⟩ false,.typedHole (.plain .none) "C" ⟨3⟩ true],
      .fixed ⟨.normal,true,.none⟩ "D" none []]],
    .subtree .none "X" (some (.hole ⟨1⟩))
      [.hole .none ⟨2⟩,.subtree .none "Y" none [.hole .none ⟨3⟩]],.none⟩

def siblings : List Tree := [.node "A" (some "x") [leaf "B"] none]

/-- An item whose type is no identifier, but whose text is no part's of the rule. -/
def earlier : Item := .fixed (.plain .none) "B#1" none []

def fresh : Compilation := .start "default" none .default .empty

def session : Compilation := (Compilation.compileItem earlier fresh).2

def made : Compilation := (session.compileRule rule).toOption.getD session

def compiled : CompiledRule := made.rules.headD ⟨0,"",.none,.select [],.null,0,false⟩

lemma apartFrom_earlier : earlier.ApartFrom rule.pattern := .of_body_ne (by decide +kernel)

end Binding

open Binding in
/-- The ellipsis stands for no node; its hole is bound all the same. -/
theorem holes_of_binding :
    ∃ m, Engine.tryMatch ⟨made.symbols,made.finish⟩ compiled siblings 0 = some m ∧
      (∀ hole, (m.captures.get? hole).isSome = true ↔ hole ∈ [⟨1⟩,⟨2⟩,(⟨3⟩ : Hole)]) ∧
      Strict.replacement made.symbols made.builders .free m.captures m.fragment compiled.result =
        .ok (Engine.build ⟨made.symbols,made.finish⟩ .free compiled m) := by
  have hsome : (Engine.tryMatch ⟨made.symbols,made.finish⟩ compiled siblings 0).isSome = true := by
    decide
  obtain ⟨m,hm⟩ := Option.isSome_iff_exists.mp hsome
  have hid : ∀ i ∈ rule.pattern, i.HasIdentifiers := by
    simp [rule, Item.HasIdentifiers, Item.parts, Item.listParts, Item.type?, Item.IsIdentifier,
      Lexer.isIdStart]
  have hsession : fresh.Reaches (Item.ApartFrom rule.pattern) session :=
    .single (.item apartFrom_earlier fresh)
  obtain ⟨hdeclared,hfirm,hbuild⟩ := holes_of_tryMatch (r := rule) (h := none) (by simp)
    (s := session) (t := made) hsession rfl rfl hid rfl rfl .refl (List.prefix_refl _) hm
  have hall : ∀ i ∈ rule.pattern, i.mode = .normal ∧ ∀ j ∈ i.parts, j.isAnyOf = false := by
    decide
  refine ⟨m,hm,fun hole => ⟨fun hb => ?_,fun hhole => ?_⟩,(hbuild hall).2 .free⟩
  · have hentries : ∀ entry ∈ rule.checkHoles.1.entries, entry.hole ∈ [⟨1⟩,⟨2⟩,(⟨3⟩ : Hole)] := by
      decide
    obtain ⟨entry,hentry,rfl⟩ := (HoleTable.isDeclared_iff _).mp (hdeclared hole hb)
    exact hentries entry hentry
  · exact (hbuild hall).1 (hole,.none) (by simpa [rule, Template.holes, Template.listHoles,
      Template.dataHoles] using hhole)

namespace Forged

open Compilation.Forging

/-- The session of both rules. -/
def both : Compilation := (session.compileRule rule).toOption.getD session

def second : CompiledRule := both.rules.getLastD ⟨0,"",.none,.select [],.null,0,false⟩

end Forged

open Forged Compilation.Forging in
/-- The earlier parts must be apart: the match of the second rule does not bind the one hole, and
building deletes what should stay. -/
theorem holes_of_forged :
    types.Reachable ∧ fresh.compileRule earlier = .ok session ∧
      earlier.diagnostics (some types) = [] ∧ rule.diagnostics (some types) = [] ∧
      (∀ i ∈ rule.pattern, i.HasIdentifiers) ∧
      (∀ i ∈ rule.pattern, i.mode = .normal ∧ ∀ j ∈ i.parts, j.isAnyOf = false) ∧
      session.compileRule rule = .ok both ∧ both.rules = session.rules ++ [second] ∧
      ∃ m, Engine.tryMatch ⟨both.symbols,both.finish⟩ second siblings 0 = some m ∧
        (∀ read ∈ rule.result.holes, (m.captures.get? read.1).isSome = false) ∧
        Engine.build ⟨both.symbols,both.finish⟩ .free second m = some .delete :=
  ⟨@Hierarchy.Reachable.load types.declarations _ rfl,rfl,rfl,rfl,hasIdentifiers_rule,by decide,
    rfl,rfl,⟨1,.empty,none⟩,rfl,by decide,rfl⟩

end Engine

end TreeRules
