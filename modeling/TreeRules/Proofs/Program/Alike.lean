import TreeRules.Engine
import TreeRules.Proofs.Compile.TypeTest
import TreeRules.Proofs.Program.Closed
import TreeRules.Proofs.Strategy.Division
import Mathlib.Data.List.Forall2

/-! Languages that run alike. Their tables may number the names of types differently, and may put
conditions on children among the other conditions or into a procedure; neither can be seen from the
outside. -/
namespace TreeRules

/-- Lists whose members are related have the same images, if related members have. -/
lemma map_eq_of_forall₂ {α β γ : Type} {R : α → β → Prop} {f : α → γ} {g : β → γ} {as : List α}
    {bs : List β} (h : List.Forall₂ R as bs) (hR : ∀ a b, R a b → f a = g b) :
    as.map f = bs.map g := by
  induction h with
  | nil => rfl
  | cons hab _ ih => rw [List.map_cons, List.map_cons, hR _ _ hab, ih]

/-- A list is the image of another, if its members are the images of the others. -/
lemma map_eq_list_of_forall₂ {α β : Type} {R : α → β → Prop} {f : α → β} {as : List α}
    {bs : List β} (h : List.Forall₂ R as bs) (hR : ∀ a b, R a b → f a = b) : as.map f = bs := by
  rw [map_eq_of_forall₂ (g := fun b => b) h hR, List.map_id']

namespace SymbolTable

variable {u v u' v' : SymbolTable} {x y : Symbol}

/-- Symbols of two tables that stand for one name. -/
def SameName (u v : SymbolTable) (x y : Symbol) : Prop :=
  ∃ name, u.get? name = some x ∧ v.get? name = some y

lemma SameName.mono (h : SameName u v x y) (hu : u.names <+: u'.names)
    (hv : v.names <+: v'.names) : SameName u' v' x y := by
  obtain ⟨name,hx,hy⟩ := h
  exact ⟨name,get?_of_isPrefix hu hx,get?_of_isPrefix hv hy⟩

lemma SameName.name? (h : SameName u v x y) : u.name? x = v.name? y := by
  obtain ⟨name,hx,hy⟩ := h
  rw [u.name?_of_get? hx, v.name?_of_get? hy]

/-- A name has the one symbol exactly if it has the other. -/
lemma SameName.get?_eq_iff (h : SameName u v x y) (name : String) :
    u.get? name = some x ↔ v.get? name = some y := by
  obtain ⟨other,hx,hy⟩ := h
  constructor
  · intro hn
    rwa [eq_of_get?_eq hn hx]
  · intro hn
    rwa [eq_of_get?_eq hn hy]

lemma SameName.eq (h : SameName u u x y) : x = y := by
  obtain ⟨name,hx,hy⟩ := h
  exact Option.some.inj (hx.symm.trans hy)

lemma sameName_intern (u v : SymbolTable) (name : String) :
    SameName (u.intern name).2 (v.intern name).2 (u.intern name).1 (v.intern name).1 :=
  ⟨name,u.get?_intern name,v.get?_intern name⟩

lemma sameName_internAll (u v : SymbolTable) (names : List String) :
    List.Forall₂ (SameName (u.internAll names).2 (v.internAll names).2) (u.internAll names).1
      (v.internAll names).1 := by
  induction names generalizing u v with
  | nil => exact .nil
  | cons name names ih =>
    refine .cons ?_ (ih _ _)
    exact (sameName_intern u v name).mono (names_isPrefix_internAll _ names)
      (names_isPrefix_internAll _ names)

/-- A name is among symbols or not, whichever table they are of. -/
lemma any_contains_eq {xs ys : List Symbol} (h : List.Forall₂ (SameName u v) xs ys)
    (name : String) : (u.get? name).any xs.contains = (v.get? name).any ys.contains := by
  have hany : ∀ (o : Option Symbol) (l : List Symbol),
      o.any l.contains = (l.map fun x => o == some x).any id := by
    intro o l
    cases o with
    | none => simp
    | some z =>
      rw [Option.any_some, List.contains_eq_any_beq, List.any_map]
      rfl
  rw [hany, hany]
  congr 1
  refine map_eq_of_forall₂ h fun x y hxy => ?_
  rw [Bool.eq_iff_iff, beq_iff_eq, beq_iff_eq]
  exact hxy.get?_eq_iff name

end SymbolTable

namespace Matcher

open SymbolTable (SameName)

section Alike

variable (R : Symbol → Symbol → Prop)

structure TypeTest.Alike (a b : TypeTest) : Prop where
  name : R a.name b.name
  accepts : List.Forall₂ R a.accepts b.accepts

inductive ChildCondition.Alike : ChildCondition → ChildCondition → Prop
  | child (index : Nat) (m : Id) : Alike (.child index m) (.child index m)
  | remaining (start : Nat) {a b : TypeTest} (h : a.Alike R b) :
    Alike (.remaining start a) (.remaining start b)

/-- Conditions that differ in the numbers of their symbols only. -/
inductive Condition.Alike : Condition → Condition → Prop
  | type {a b : TypeTest} (h : a.Alike R b) : Alike (.type a) (.type b)
  | children {a b : ChildCondition} (h : a.Alike R b) : Alike (.children a) (.children b)
  | same {c : Condition} (h : c.symbols = []) : Alike c c

end Alike

section Mono

variable {R S : Symbol → Symbol → Prop} (hRS : ∀ x y, R x y → S x y)
include hRS

lemma TypeTest.Alike.mono {a b : TypeTest} (h : a.Alike R b) : a.Alike S b :=
  ⟨hRS _ _ h.name,h.accepts.imp hRS⟩

lemma ChildCondition.Alike.mono {a b : ChildCondition} (h : a.Alike R b) : a.Alike S b := by
  cases h with
  | child index m => exact .child index m
  | remaining start h => exact .remaining start (h.mono hRS)

lemma Condition.Alike.mono {a b : Condition} (h : a.Alike R b) : a.Alike S b := by
  cases h with
  | type h => exact .type (h.mono hRS)
  | children h => exact .children (h.mono hRS)
  | same h => exact .same h

end Mono

/-- A condition with those of the procedure in the place of the call. -/
def Condition.spread (procedure : List ChildCondition) : Condition → List Condition
  | .procedure => procedure.map .children
  | c => [c]

namespace Parts

/-- All conditions, wherever they stand. -/
def asked (p : Parts) : List Condition := p.conditions.flatMap (Condition.spread p.procedure)

/-- The matchers that conditions refer to. -/
def asks (p : Parts) : List Id :=
  p.conditions.flatMap Condition.matchers ++ p.procedure.flatMap ChildCondition.matchers

/-- Parts that ask and capture the same; under the same limit, their conditions also stand in the
same places. -/
structure Alike (sameLimit : Prop) (R : Symbol → Symbol → Prop) (a b : Parts) : Prop where
  asked : List.Forall₂ (Condition.Alike R) a.asked b.asked
  placed : sameLimit → List.Forall₂ (Condition.Alike R) a.conditions b.conditions ∧
    List.Forall₂ (ChildCondition.Alike R) a.procedure b.procedure
  asks : a.asks = b.asks
  extractions : a.extractions = b.extractions

lemma Alike.mono {sameLimit : Prop} {R S : Symbol → Symbol → Prop} {a b : Parts}
    (h : a.Alike sameLimit R b) (hRS : ∀ x y, R x y → S x y) : a.Alike sameLimit S b := by
  have hc : ∀ c d, Condition.Alike R c d → Condition.Alike S c d := fun _ _ h => h.mono hRS
  have hd : ∀ c d, ChildCondition.Alike R c d → ChildCondition.Alike S c d :=
    fun _ _ h => h.mono hRS
  exact ⟨h.asked.imp hc,fun hl => ⟨(h.placed hl).1.imp hc,(h.placed hl).2.imp hd⟩,h.asks,
    h.extractions⟩

end Parts

/-- The parts that a matcher was made from. -/
def parts (m : Matcher) : Parts := ⟨m.conditions,m.procedure,m.extractions⟩

structure Alike (sameLimit : Prop) (R : Symbol → Symbol → Prop) (a b : Matcher) : Prop where
  id : a.id = b.id
  name : a.name = b.name
  key : a.key = b.key
  negated : a.negated = b.negated
  parts : a.parts.Alike sameLimit R b.parts

lemma Alike.mono {sameLimit : Prop} {R S : Symbol → Symbol → Prop} {a b : Matcher}
    (h : a.Alike sameLimit R b) (hRS : ∀ x y, R x y → S x y) : a.Alike sameLimit S b :=
  { h with parts := h.parts.mono hRS }

lemma Alike.extractions {sameLimit : Prop} {R : Symbol → Symbol → Prop} {a b : Matcher}
    (h : a.Alike sameLimit R b) : a.extractions = b.extractions := h.parts.extractions

lemma Alike.dependencies {sameLimit : Prop} {R : Symbol → Symbol → Prop} {a b : Matcher}
    (h : a.Alike sameLimit R b) : a.dependencies = b.dependencies := by
  have hasks : a.conditions.flatMap Condition.matchers ++
      a.procedure.flatMap ChildCondition.matchers = b.conditions.flatMap Condition.matchers ++
        b.procedure.flatMap ChildCondition.matchers := h.parts.asks
  rw [Matcher.dependencies, Matcher.dependencies, hasks, h.extractions]

/-! Running matchers. -/

/-- A matcher asks all its conditions, wherever they stand. -/
lemma holds_eq_asked (symbols : SymbolTable) (refers : Id → Tree → Bool) (m : Matcher)
    (n : Tree) :
    m.holds symbols refers n =
      ((m.parts.asked.map fun c => c.holds symbols refers [] n).all (fun b => b) != m.negated) := by
  have hspread : ∀ c : Condition, c.holds symbols refers m.procedure n =
      ((c.spread m.procedure).map fun d => d.holds symbols refers [] n).all (fun b => b) := by
    intro c
    cases c with
    | procedure =>
      simp [Condition.spread, Condition.holds, Function.comp_def]
    | _ => simp [Condition.spread, Condition.holds]
  simp only [holds, Parts.asked, parts, hspread, List.map_flatMap, List.all_flatMap]

section Run

variable {sameLimit : Prop} {u v : SymbolTable}

lemma TypeTest.Alike.admits {a b : TypeTest} (h : a.Alike (SameName u v) b) (n : Tree) :
    a.admits u n = b.admits v n :=
  SymbolTable.any_contains_eq h.accepts n.type

lemma ChildCondition.Alike.holds {a b : ChildCondition} (h : a.Alike (SameName u v) b)
    (refers : Id → Tree → Bool) (n : Tree) : a.holds u refers n = b.holds v refers n := by
  cases h with
  | child index m => rfl
  | remaining start h => simp only [ChildCondition.holds, funext h.admits]

lemma Condition.Alike.holds {a b : Condition} (h : a.Alike (SameName u v) b)
    (refers : Id → Tree → Bool) (n : Tree) : a.holds u refers [] n = b.holds v refers [] n := by
  cases h with
  | type h => exact h.admits n
  | children h => exact h.holds refers n
  | same h =>
    -- only type tests look at symbols
    cases a with
    | type test => cases h
    | children c =>
      cases c with
      | child => rfl
      | remaining => cases h
    | _ => rfl

lemma Alike.holds {a b : Matcher} (h : a.Alike sameLimit (SameName u v) b)
    (refers : Id → Tree → Bool) (n : Tree) : a.holds u refers n = b.holds v refers n := by
  rw [holds_eq_asked, holds_eq_asked, h.negated,
    map_eq_of_forall₂ h.parts.asked fun c d hcd => hcd.holds refers n]

variable {table table' : List Matcher}
  (h : List.Forall₂ (Alike sameLimit (SameName u v)) table table')
include h

/-- Tables of matchers that are alike accept the same nodes. -/
theorem accepts_eq_of_alike : accepts u table = accepts v table' := by
  induction h with
  | nil => rfl
  | cons hab _ ih =>
    funext id n
    rw [accepts, accepts, hab.id, ih, hab.holds]

theorem stores_eq_of_alike : stores u table = stores v table' := by
  induction h with
  | nil => rfl
  | cons hab h ih =>
    funext id n
    rw [stores, stores, hab.id, ih, hab.extractions, accepts_eq_of_alike h]

lemma extract_eq_of_alike (accumulate : Bool) :
    extract u accumulate table = extract v accumulate table' := by
  funext id n c
  rw [extract_eq_replay, extract_eq_replay, stores_eq_of_alike h]

end Run

end Matcher

open SymbolTable (SameName)

/-- Strategies run alike on tables that are alike. -/
lemma Strategy.run_eq_of_alike {sameLimit : Prop} {u v : SymbolTable}
    {table table' : List Matcher}
    (h : List.Forall₂ (Matcher.Alike sameLimit (SameName u v)) table table')
    (strategy : Strategy) : strategy.run u table = strategy.run v table' := by
  have haccepts : accepts u table = accepts v table' := by
    funext c n
    rw [accepts, accepts, Matcher.accepts_eq_of_alike h]
  have hextract : extract u table = extract v table' := by
    funext c n caps
    rw [extract, extract, Matcher.extract_eq_of_alike h]
  have hall : extractAll u table = extractAll v table' := by
    funext c ns caps
    rw [extractAll, extractAll, Matcher.extract_eq_of_alike h]
  have hstored : stored u table = stored v table' := by
    funext c n
    rw [stored, stored, Matcher.stores_eq_of_alike h]
  funext siblings index
  cases strategy with
  | simple cs => simp only [run, runSimple, haccepts, hextract]
  | repeated c => simp only [run, runRepeated, haccepts, hall]
  | complex cs => simp only [run, runComplex_eq, haccepts, hstored]

namespace Builder

/-- Builders that differ in the number of their type's symbol only. -/
structure Alike (R : Symbol → Symbol → Prop) (a b : Builder) : Prop where
  id : a.id = b.id
  type : R a.type b.type
  data : a.data = b.data
  children : a.children = b.children
  needsCaptures : a.needsCaptures = b.needsCaptures

lemma Alike.mono {R S : Symbol → Symbol → Prop} {a b : Builder} (h : a.Alike R b)
    (hRS : ∀ x y, R x y → S x y) : a.Alike S b := { h with type := hRS _ _ h.type }

theorem build_eq_of_alike {u v : SymbolTable} {table table' : List Builder}
    (h : List.Forall₂ (Alike (SameName u v)) table table') (factory : Factory) (c : Captures) :
    build u factory c table = build v factory c table' := by
  induction h with
  | nil => rfl
  | cons hab _ ih =>
    funext id fragment
    rw [build, build, hab.id, ih]
    simp only [make, hab.type.name?, hab.data, hab.children]

end Builder

/-- Languages of one name and the same rules, whose tables are alike. -/
structure Language.Alike (sameLimit : Prop) (u v : SymbolTable) (l k : Language) : Prop where
  name : l.name = k.name
  matchers : List.Forall₂ (Matcher.Alike sameLimit (SameName u v)) l.matchers k.matchers
  builders : List.Forall₂ (Builder.Alike (SameName u v)) l.builders k.builders
  rules : l.rules = k.rules

lemma Language.Alike.mono {sameLimit : Prop} {u v u' v' : SymbolTable} {l k : Language}
    (h : l.Alike sameLimit u v k) (hu : u.names <+: u'.names) (hv : v.names <+: v'.names) :
    l.Alike sameLimit u' v' k := by
  have hmono : ∀ x y, SameName u v x y → SameName u' v' x y := fun _ _ hxy => hxy.mono hu hv
  exact { h with
    matchers := h.matchers.imp fun _ _ hab => hab.mono hmono
    builders := h.builders.imp fun _ _ hab => hab.mono hmono }

/-- Engines that give the same answers, whatever they are asked. -/
structure Engine.SameRuns (e k : Engine) : Prop where
  accepts : e.accepts = k.accepts
  extract : e.extract = k.extract
  tryMatch : e.tryMatch = k.tryMatch
  build : e.build = k.build
  applyAt : e.applyAt = k.applyAt
  sweep : e.sweep = k.sweep

theorem Language.Alike.sameRuns {sameLimit : Prop} {u v : SymbolTable} {l k : Language}
    (h : l.Alike sameLimit u v k) : Engine.SameRuns ⟨u,l⟩ ⟨v,k⟩ := by
  have htryMatch : Engine.tryMatch ⟨u,l⟩ = Engine.tryMatch ⟨v,k⟩ := by
    funext r siblings index
    simp only [Engine.tryMatch, Engine.runStrategy, Strategy.run_eq_of_alike h.matchers]
  have hbuild : Engine.build ⟨u,l⟩ = Engine.build ⟨v,k⟩ := by
    funext factory r m
    simp only [Engine.build, RightSide.build, Builder.build_eq_of_alike h.builders]
  have happlyAt : Engine.applyAt ⟨u,l⟩ = Engine.applyAt ⟨v,k⟩ := by
    funext factory siblings index
    rw [Engine.applyAt, Engine.applyAt, h.rules]
    congr 1
    funext r
    rw [Engine.applyRule, Engine.applyRule, htryMatch, hbuild]
  refine ⟨Matcher.accepts_eq_of_alike h.matchers,?_,htryMatch,hbuild,happlyAt,?_⟩
  · funext accumulate
    exact Matcher.extract_eq_of_alike h.matchers accumulate
  · have hfrom : ∀ factory siblings index turns,
        Engine.sweepFrom ⟨u,l⟩ factory siblings index turns =
          Engine.sweepFrom ⟨v,k⟩ factory siblings index turns := by
      intro factory siblings index turns
      induction turns generalizing index with
      | zero => rfl
      | succ turns ih => simp only [Engine.sweepFrom, happlyAt, ih]
    funext factory siblings
    exact hfrom factory siblings 0 siblings.length

end TreeRules
