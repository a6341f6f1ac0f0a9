import TreeRules.Engine
import TreeRules.Proofs.Compile.Tables

/-! Whole programs. Every language of a program was compiled in a session of its own, which began
with the symbols of the languages before it. What sessions keep therefore holds of programs. -/
namespace TreeRules

namespace Compilation

variable {s t : Compilation}

/-- What compiling a rule keeps, compiling rules one after the other keeps. -/
lemma compileRules_keeps {P : Compilation → Prop}
    (hstep : ∀ (s t : Compilation) (r : Rule), s.compileRule r = .ok t → P s → P t)
    {rules : List Rule} (h : s.compileRules rules = .ok t) (hs : P s) : P t := by
  induction rules generalizing s with
  | nil =>
    cases h
    exact hs
  | cons r rules ih =>
    rw [compileRules] at h
    cases hr : s.compileRule r with
    | error e =>
      rw [hr] at h
      cases h
    | ok mid =>
      rw [hr] at h
      exact ih h (hstep s mid r hr hs)

lemma compileRules_closes {rules : List Rule} (h : s.compileRules rules = .ok t)
    (hs : s.Closed) : t.Closed ∧ s.KeepsTo t := by
  apply compileRules_keeps (P := fun m => m.Closed ∧ s.KeepsTo m) _ h ⟨hs,.refl s⟩
  rintro a b r hr ⟨ha,hk⟩
  obtain ⟨hb,hk'⟩ := compileRule_closes hr ha
  exact ⟨hb,hk.trans hk'⟩

end Compilation

namespace RuleFile

variable {f : RuleFile} {h : Option Hierarchy} {config : Config}

/-- A language and the session in which its rules were compiled; the symbols of the session are
those of the program, or the first of them. -/
structure Session (f : RuleFile) (h : Option Hierarchy) (config : Config) (u : SymbolTable)
    (name : String) (l : Language) (s : Compilation) : Prop where
  compiled : ∃ before, (Compilation.start name h config before).compileRules (f.rulesOf name) =
    .ok s
  finish : l = s.finish
  symbols : s.symbols.names <+: u.names

/-- Each language has its session, in the order of the names. -/
lemma compileLanguages_sessions {names : List String} {symbols : SymbolTable} {p : Program}
    (hp : f.compileLanguages h config names symbols = .ok p) :
    symbols.names <+: p.symbols.names ∧
      List.Forall₂ (fun name l => ∃ s, Session f h config p.symbols name l s) names
        p.languages := by
  induction names generalizing symbols p with
  | nil =>
    cases hp
    exact ⟨List.prefix_refl _,.nil⟩
  | cons name names ih =>
    rw [compileLanguages] at hp
    cases hs : (Compilation.start name h config symbols).compileRules (f.rulesOf name) with
    | error e =>
      rw [hs] at hp
      cases hp
    | ok s =>
      simp only [hs] at hp
      cases hq : f.compileLanguages h config names s.symbols with
      | error e =>
        rw [hq] at hp
        cases hp
      | ok q =>
        simp only [hq] at hp
        cases hp
        obtain ⟨hsymbols,hrest⟩ := ih hq
        obtain ⟨-,hkeep⟩ := Compilation.compileRules_closes hs (Compilation.closed_start _ _ _ _)
        exact ⟨hkeep.symbols.trans hsymbols,.cons ⟨s,⟨symbols,hs⟩,rfl,hsymbols⟩ hrest⟩

lemma compile_sessions {p : Program} (hp : f.compile h config = .ok p) :
    List.Forall₂ (fun name l => ∃ s, Session f h config p.symbols name l s) f.languageNames
      p.languages := (compileLanguages_sessions hp).2

lemma Session.closed {u : SymbolTable} {name : String} {l : Language} {s : Compilation}
    (hs : Session f h config u name l s) : l.Closed u := by
  obtain ⟨⟨before,hc⟩,rfl,hu⟩ := hs
  obtain ⟨hclosed,-⟩ := Compilation.compileRules_closes hc (Compilation.closed_start _ _ _ _)
  exact Language.Closed.mono hclosed hu

/-- The tables of every language of a program are closed. -/
theorem closed_of_compile {p : Program} (hp : f.compile h config = .ok p) {l : Language}
    (hl : l ∈ p.languages) : l.Closed p.symbols := by
  obtain ⟨place,hlt,rfl⟩ := List.mem_iff_getElem.mp hl
  obtain ⟨s,hs⟩ := (compile_sessions hp).get (by rwa [(compile_sessions hp).length_eq]) hlt
  exact hs.closed

end RuleFile

lemma Engine.mem_of_ofProgram? {p : Program} {name : String} {e : Engine}
    (he : Engine.ofProgram? p name = some e) :
    e.symbols = p.symbols ∧ e.language ∈ p.languages := by
  obtain ⟨l,hl,rfl⟩ := Option.map_eq_some_iff.mp he
  exact ⟨rfl,List.mem_of_find?_eq_some hl⟩

end TreeRules
