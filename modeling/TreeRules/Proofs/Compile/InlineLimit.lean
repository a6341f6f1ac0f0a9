import TreeRules.Proofs.Compile.Alike
import TreeRules.Proofs.Compile.Program

/-! The limit for conditions among a matcher's own says where conditions stand, and nothing else. It
is applied at every level of nesting on its own, yet files compile alike under any two limits, and
the languages run alike. -/
namespace TreeRules

open SymbolTable (SameName)

/-- Languages whose matchers differ at most in where their conditions stand. -/
structure Language.SameOutline (l k : Language) : Prop where
  name : l.name = k.name
  ids : l.matcherList.map Matcher.id = k.matcherList.map Matcher.id
  keys : l.matcherList.map Matcher.key = k.matcherList.map Matcher.key
  names : l.matcherList.map Matcher.name = k.matcherList.map Matcher.name
  negated : l.matcherList.map Matcher.negated = k.matcherList.map Matcher.negated
  extractions : l.matcherList.map Matcher.extractions = k.matcherList.map Matcher.extractions
  dependencies : l.matcherList.map Matcher.dependencies = k.matcherList.map Matcher.dependencies
  builders : l.builderList = k.builderList
  rules : l.rules = k.rules

/-- Over one symbol table, builders that are alike are equal. -/
lemma Builder.Alike.eq {u : SymbolTable} {a b : Builder} (h : a.Alike (SameName u u) b) :
    a = b := by
  cases a
  cases b
  obtain ⟨hid,htype,hdata,hchildren,hneeds⟩ := h
  have htype := htype.eq
  simp only at hid htype hdata hchildren hneeds
  rw [hid, htype, hdata, hchildren, hneeds]

lemma Language.Alike.sameOutline {sameLimit : Prop} {u : SymbolTable} {l k : Language}
    (h : l.Alike sameLimit u u k) : l.SameOutline k := by
  have hmatchers : List.Forall₂ (Matcher.Alike sameLimit (SameName u u)) l.matcherList
      k.matcherList := List.forall₂_reverse_iff.mpr h.matchers
  have hbuilders : l.builderList.map (fun b => b) = k.builderList :=
    map_eq_list_of_forall₂ (List.forall₂_reverse_iff.mpr h.builders) fun _ _ hab => hab.eq
  rw [List.map_id'] at hbuilders
  exact
    { name := h.name
      ids := map_eq_of_forall₂ hmatchers fun _ _ hab => hab.id
      keys := map_eq_of_forall₂ hmatchers fun _ _ hab => hab.key
      names := map_eq_of_forall₂ hmatchers fun _ _ hab => hab.name
      negated := map_eq_of_forall₂ hmatchers fun _ _ hab => hab.negated
      extractions := map_eq_of_forall₂ hmatchers fun _ _ hab => hab.extractions
      dependencies := map_eq_of_forall₂ hmatchers fun _ _ hab => hab.dependencies
      builders := hbuilders
      rules := h.rules }

namespace RuleFile

/-- Programs over one symbol table whose languages are alike. -/
structure AlikePrograms (p q : Program) : Prop where
  symbols : q.symbols = p.symbols
  languages : List.Forall₂ (Language.Alike False p.symbols p.symbols) p.languages q.languages

lemma compileLanguages_alike (f : RuleFile) (h : Option Hierarchy) (config : Config)
    (limit : Nat) (names : List String) (symbols : SymbolTable) :
    Compilation.SameResult AlikePrograms (f.compileLanguages h config names symbols)
      (f.compileLanguages h { config with inlineLimit := limit } names symbols) := by
  induction names generalizing symbols with
  | nil => exact .ok ⟨rfl,.nil⟩
  | cons name names ih =>
    have hstart : Compilation.Alike name False True (.start name h config symbols)
        (.start name h { config with inlineLimit := limit } symbols) :=
      Compilation.alike_start h False.elim fun _ => rfl
    have hrules := Compilation.compileRules_alike (f.rulesOf name) hstart
    rw [compileLanguages, compileLanguages]
    generalize (Compilation.start name h config symbols).compileRules (f.rulesOf name) = a
      at hrules ⊢
    generalize (Compilation.start name h { config with inlineLimit := limit }
      symbols).compileRules (f.rulesOf name) = b at hrules ⊢
    cases hrules with
    | error e => exact .error e
    | @ok s t hst =>
      have hsymbols : t.symbols = s.symbols := (hst.table trivial).symm
      have hgrows : ∀ p, f.compileLanguages h config names s.symbols = .ok p →
          s.symbols.names <+: p.symbols.names := fun p hp => (compileLanguages_sessions hp).1
      have hrest := ih s.symbols
      dsimp only
      rw [hsymbols]
      generalize f.compileLanguages h config names s.symbols = x at hrest hgrows ⊢
      generalize f.compileLanguages h { config with inlineLimit := limit } names s.symbols = y
        at hrest ⊢
      cases hrest with
      | error e => exact .error e
      | @ok p q hpq =>
        have hgrows := hgrows p rfl
        have hfinish := hst.finish
        rw [hsymbols] at hfinish
        exact .ok ⟨hpq.symbols,.cons (hfinish.mono hgrows hgrows) hpq.languages⟩

/-- The limit has no effect that could be seen: with another limit a file compiles if it compiled,
to the same tables up to where conditions stand, and the engines give the same answers; or it fails
with the same error. -/
theorem compile_inlineLimit (f : RuleFile) (h : Option Hierarchy) (config : Config)
    (limit : Nat) :
    (∀ error, f.compile h config = .error error ↔
        f.compile h { config with inlineLimit := limit } = .error error) ∧
      ∀ p, f.compile h config = .ok p →
        ∃ q, f.compile h { config with inlineLimit := limit } = .ok q ∧ q.symbols = p.symbols ∧
          List.Forall₂ (fun l k => l.SameOutline k ∧
            Engine.SameRuns ⟨p.symbols,l⟩ ⟨q.symbols,k⟩) p.languages q.languages := by
  have hboth := compileLanguages_alike f h config limit f.languageNames .empty
  unfold compile
  generalize f.compileLanguages h config f.languageNames .empty = a at hboth ⊢
  generalize f.compileLanguages h { config with inlineLimit := limit } f.languageNames .empty = b
    at hboth ⊢
  cases hboth with
  | error e => exact ⟨fun error => Iff.rfl,fun p hp => by cases hp⟩
  | @ok p q hpq =>
    refine ⟨fun error => iff_of_false nofun nofun,fun r hr => ?_⟩
    cases hr
    refine ⟨q,rfl,hpq.symbols,hpq.languages.imp fun l k hlk => ⟨hlk.sameOutline,?_⟩⟩
    rw [hpq.symbols]
    exact hlk.sameRuns

namespace Sample

/-- The rule `!A(B, !C(D, E)) -> null;`. -/
def nested : RuleFile :=
  ⟨[⟨"default",none,
    [⟨[.fixed ⟨.normal,true,.none⟩ "A" none
      [.fixed (.plain .none) "B" none [],
        .fixed ⟨.normal,true,.none⟩ "C" none
          [.fixed (.plain .none) "D" none [],.fixed (.plain .none) "E" none []]]],
      .null .none,.none⟩]⟩]⟩

/-- The numbers of conditions in the procedures of a program's matchers. -/
def procedureLengths (p : Program) : List Nat :=
  p.languages.flatMap fun l => l.matcherList.map (·.procedure.length)

end Sample

open Sample in
theorem nested_any_limit :
    ∃ p q, nested.compile none .default = .ok p ∧
      nested.compile none { Config.default with inlineLimit := 1 } = .ok q ∧
      procedureLengths p = [0,0,0,0,0] ∧ procedureLengths q = [0,0,0,2,2] ∧
      ∃ l k, p.languages = [l] ∧ q.languages = [k] ∧
        Engine.SameRuns ⟨p.symbols,l⟩ ⟨q.symbols,k⟩ := by
  obtain ⟨q,hq,-,hlanguages⟩ := (compile_inlineLimit nested none .default 1).2 _ rfl
  refine ⟨_,_,rfl,rfl,rfl,rfl,_,_,rfl,rfl,?_⟩
  cases hq
  cases hlanguages with
  | cons hlk _ => exact hlk.2

end RuleFile
end TreeRules
