import TreeRules.Proofs.Program.Alike

/-! Languages with their symbols renamed. A language moves from one symbol table to another by
putting, for each symbol, the symbol that the other table has for the same name. -/
namespace TreeRules

namespace SymbolTable

/-- The symbol of `v` for the name that `x` stands for in `u`. -/
def translate (u v : SymbolTable) (x : Symbol) : Symbol := ((u.name? x).bind v.get?).getD x

lemma SameName.translate_eq {u v : SymbolTable} {x y : Symbol} (h : SameName u v x y) :
    u.translate v x = y := by
  obtain ⟨name,hx,hy⟩ := h
  rw [translate, u.name?_of_get? hx, Option.bind_some, hy, Option.getD_some]

/-- A symbol and its translation stand for one name. -/
def Translates (u v : SymbolTable) (x : Symbol) : Prop :=
  ∃ name, u.name? x = some name ∧ v.name? (u.translate v x) = some name

lemma SameName.translates {u v : SymbolTable} {x y : Symbol} (h : SameName u v x y) :
    Translates u v x := by
  rw [Translates, h.translate_eq]
  obtain ⟨name,hx,hy⟩ := h
  exact ⟨name,u.name?_of_get? hx,v.name?_of_get? hy⟩

end SymbolTable

namespace Matcher

section Map

variable (ρ : Symbol → Symbol)

def TypeTest.mapSymbols (test : TypeTest) : TypeTest := ⟨ρ test.name,test.accepts.map ρ⟩

def ChildCondition.mapSymbols : ChildCondition → ChildCondition
  | .child index m => .child index m
  | .remaining start types => .remaining start (types.mapSymbols ρ)

def Condition.mapSymbols : Condition → Condition
  | .type test => .type (test.mapSymbols ρ)
  | .children c => .children (c.mapSymbols ρ)
  | c => c

/-- The matcher with other symbols in its type tests. -/
def mapSymbols (m : Matcher) : Matcher :=
  { m with
    conditions := m.conditions.map (Condition.mapSymbols ρ)
    procedure := m.procedure.map (ChildCondition.mapSymbols ρ) }

end Map

section Alike

variable {R : Symbol → Symbol → Prop} {ρ : Symbol → Symbol} (hρ : ∀ x y, R x y → ρ x = y)
include hρ

lemma TypeTest.Alike.mapSymbols_eq {a b : TypeTest} (h : a.Alike R b) : a.mapSymbols ρ = b := by
  rw [TypeTest.mapSymbols, hρ _ _ h.name, map_eq_list_of_forall₂ h.accepts hρ]

lemma ChildCondition.Alike.mapSymbols_eq {a b : ChildCondition} (h : a.Alike R b) :
    a.mapSymbols ρ = b := by
  cases h with
  | child index m => rfl
  | remaining start h => rw [ChildCondition.mapSymbols, h.mapSymbols_eq hρ]

lemma Condition.Alike.mapSymbols_eq {a b : Condition} (h : a.Alike R b) :
    a.mapSymbols ρ = b := by
  cases h with
  | type h => rw [Condition.mapSymbols, h.mapSymbols_eq hρ]
  | children h => rw [Condition.mapSymbols, h.mapSymbols_eq hρ]
  | same h =>
    cases a with
    | type test => cases h
    | children c =>
      cases c with
      | child => rfl
      | remaining => cases h
    | _ => rfl

/-- Matchers that keep their conditions in the same places differ in symbols only. -/
lemma Alike.mapSymbols_eq {a b : Matcher} (h : a.Alike True R b) : a.mapSymbols ρ = b := by
  obtain ⟨hconditions,hprocedure⟩ := h.parts.placed trivial
  have hconditions : a.conditions.map (Condition.mapSymbols ρ) = b.conditions :=
    map_eq_list_of_forall₂ hconditions fun _ _ hcd => hcd.mapSymbols_eq hρ
  have hprocedure : a.procedure.map (ChildCondition.mapSymbols ρ) = b.procedure :=
    map_eq_list_of_forall₂ hprocedure fun _ _ hcd => hcd.mapSymbols_eq hρ
  rw [mapSymbols, hconditions, hprocedure, h.id, h.name, h.key, h.negated, h.extractions]

end Alike

section Symbols

variable {R : Symbol → Symbol → Prop}

lemma TypeTest.Alike.symbols {a b : TypeTest} (h : a.Alike R b) :
    List.Forall₂ R a.symbols b.symbols := .cons h.name h.accepts

lemma ChildCondition.Alike.symbols {a b : ChildCondition} (h : a.Alike R b) :
    List.Forall₂ R a.symbols b.symbols := by
  cases h with
  | child index m => exact .nil
  | remaining start h => exact h.symbols

lemma Condition.Alike.symbols {a b : Condition} (h : a.Alike R b) :
    List.Forall₂ R a.symbols b.symbols := by
  cases h with
  | type h => exact h.symbols
  | children h => exact h.symbols
  | same h =>
    rw [h]
    exact .nil

lemma Alike.symbols {a b : Matcher} (h : a.Alike True R b) :
    List.Forall₂ R a.symbols b.symbols := by
  obtain ⟨hconditions,hprocedure⟩ := h.parts.placed trivial
  exact List.rel_append (List.rel_flatMap hconditions fun _ _ hcd => hcd.symbols)
    (List.rel_flatMap hprocedure fun _ _ hcd => hcd.symbols)

end Symbols

end Matcher

/-- The builder with another symbol for its type. -/
def Builder.mapSymbols (ρ : Symbol → Symbol) (b : Builder) : Builder := { b with type := ρ b.type }

lemma Builder.Alike.mapSymbols_eq {R : Symbol → Symbol → Prop} {ρ : Symbol → Symbol}
    (hρ : ∀ x y, R x y → ρ x = y) {a b : Builder} (h : a.Alike R b) : a.mapSymbols ρ = b := by
  rw [mapSymbols, hρ _ _ h.type, h.id, h.data, h.children, h.needsCaptures]

namespace Language

/-- The language with other symbols; names, numbers, keys and rules stay. -/
def mapSymbols (ρ : Symbol → Symbol) (l : Language) : Language :=
  { l with
    matchers := l.matchers.map (Matcher.mapSymbols ρ)
    builders := l.builders.map (Builder.mapSymbols ρ) }

/-- The symbols that a language uses. -/
def symbols (l : Language) : List Symbol :=
  l.matchers.flatMap Matcher.symbols ++ l.builders.map Builder.type

variable {u v : SymbolTable} {l k : Language} (h : l.Alike True u v k)
include h

theorem Alike.mapSymbols_eq : k = l.mapSymbols (u.translate v) := by
  have hρ : ∀ x y, u.SameName v x y → u.translate v x = y := fun _ _ hxy => hxy.translate_eq
  have hmatchers := map_eq_list_of_forall₂ h.matchers fun _ _ hab => hab.mapSymbols_eq hρ
  have hbuilders := map_eq_list_of_forall₂ h.builders fun _ _ hab => hab.mapSymbols_eq hρ
  rw [mapSymbols, hmatchers, hbuilders, h.name, h.rules]

lemma Alike.symbols : List.Forall₂ (u.SameName v) l.symbols k.symbols := by
  apply List.rel_append
  · exact List.rel_flatMap h.matchers fun _ _ hab => hab.symbols
  · exact List.rel_map (fun _ _ hab => hab.type) h.builders

lemma Alike.translates : ∀ x ∈ l.symbols, u.Translates v x := by
  intro x hx
  obtain ⟨place,hlt,rfl⟩ := List.mem_iff_getElem.mp hx
  have hsame := h.symbols.get hlt (by rwa [← h.symbols.length_eq])
  exact hsame.translates

end Language

end TreeRules
