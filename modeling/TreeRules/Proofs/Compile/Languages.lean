import TreeRules.Proofs.Compile.Alike
import TreeRules.Proofs.Compile.Program
import TreeRules.Proofs.Program.Renaming

/-! Languages compile independently. All languages of a file share one symbol table, so the numbers
of symbols, and even which names have one, depend on the other languages; nothing else does. -/
namespace TreeRules
namespace RuleFile

variable {f : RuleFile} {h : Option Hierarchy} {config : Config} {p : Program} {u : SymbolTable}
  {name : String} {l : Language} {s : Compilation}

/-- The rules of a language compile alike where no other language was compiled before. -/
lemma Session.alone (hs : Session f h config u name l s) :
    ∃ t, (Compilation.start name h config .empty).compileRules (f.rulesOf name) = .ok t ∧
      Compilation.Alike name True False s t := by
  obtain ⟨before,hc⟩ := hs.compiled
  have hstart : Compilation.Alike name True False (.start name h config before)
      (.start name h config .empty) := Compilation.alike_start h (fun _ => rfl) False.elim
  have hrules := Compilation.compileRules_alike (f.rulesOf name) hstart
  rw [hc] at hrules
  generalize (Compilation.start name h config .empty).compileRules (f.rulesOf name) = alone
    at hrules ⊢
  cases hrules with
  | ok hst => exact ⟨_,rfl,hst⟩

lemma Session.name_eq (hs : Session f h config u name l s) : l.name = name := by
  obtain ⟨t,-,hst⟩ := hs.alone
  rw [hs.finish]
  exact hst.language.1

/-- The languages of a program are those of the file, in the same order. -/
lemma languageNames_compile (hp : f.compile h config = .ok p) :
    p.languageNames = f.languageNames := by
  apply map_eq_list_of_forall₂ (compile_sessions hp).flip
  rintro l name ⟨s,hs⟩
  exact hs.name_eq

/-- A language that is found by its name was compiled under it. -/
lemma session_of_language? (hp : f.compile h config = .ok p) (hl : p.language? name = some l) :
    ∃ s, Session f h config p.symbols name l s := by
  obtain ⟨place,hlt,hplace⟩ := List.mem_iff_getElem.mp (List.mem_of_find?_eq_some hl)
  have hsessions := compile_sessions hp
  obtain ⟨s,hs⟩ := hsessions.get (by rwa [hsessions.length_eq]) hlt
  have hname : l.name = name := by simpa using List.find?_some hl
  rw [List.get_eq_getElem, List.get_eq_getElem, hplace] at hs
  rw [← hs.name_eq, hname] at hs
  exact ⟨s,hs⟩

/-- A file of one block is compiled in one session. -/
lemma compile_single (name : String) (span : Option Span) (rules : List Rule)
    (h : Option Hierarchy) (config : Config) {t : Compilation}
    (ht : (Compilation.start name h config .empty).compileRules rules = .ok t) :
    compile ⟨[⟨name,span,rules⟩]⟩ h config = .ok ⟨t.symbols,[t.finish]⟩ := by
  have hrules : rulesOf ⟨[⟨name,span,rules⟩]⟩ name = rules := by simp [rulesOf]
  have hnames : languageNames ⟨[⟨name,span,rules⟩]⟩ = [name] := rfl
  rw [compile, hnames, compileLanguages, hrules, ht]
  rfl

/-- Languages compile independently: a program has the languages of its file in the order of their
first mention, and each is, up to the numbers of symbols, what its rules alone compile to. Engines
for both give the same answers. -/
theorem compile_language_alone (hp : f.compile h config = .ok p) :
    p.languageNames = (f.blocks.map Block.name).eraseDups ∧
      ∀ name ∈ p.languageNames, ∀ span, ∃ e q k,
        Engine.ofProgram? p name = some e ∧
        compile ⟨[⟨name,span,(f.blocks.filter (·.name == name)).flatMap Block.rules⟩]⟩ h config =
          .ok q ∧
        q.languageNames = [name] ∧ Engine.ofProgram? q name = some k ∧
        k.language = e.language.mapSymbols (e.symbols.translate k.symbols) ∧
        (∀ x ∈ e.language.symbols, e.symbols.Translates k.symbols x) ∧ e.SameRuns k := by
  refine ⟨languageNames_compile hp,fun name hname span => ?_⟩
  obtain ⟨l,hl⟩ : ∃ l, p.language? name = some l := by
    obtain ⟨l,hl,rfl⟩ := List.mem_map.mp hname
    exact Option.isSome_iff_exists.mp (List.find?_isSome.mpr ⟨l,hl,beq_self_eq_true _⟩)
  obtain ⟨s,hs⟩ := session_of_language? hp hl
  obtain ⟨t,ht,hst⟩ := hs.alone
  have halike : l.Alike True p.symbols t.symbols t.finish := by
    rw [hs.finish]
    exact hst.finish.mono hs.symbols (List.prefix_refl _)
  have hfound : (⟨t.symbols,[t.finish]⟩ : Program).language? name = some t.finish :=
    List.find?_cons_of_pos (beq_iff_eq.mpr hst.language.2)
  refine ⟨⟨p.symbols,l⟩,⟨t.symbols,[t.finish]⟩,⟨t.symbols,t.finish⟩,?_,
    compile_single name span _ h config ht,congrArg ([·]) hst.language.2,?_,
    halike.mapSymbols_eq,halike.translates,halike.sameRuns⟩
  · rw [Engine.ofProgram?, hl]
    rfl
  · rw [Engine.ofProgram?, hfound]
    rfl

namespace Sample

/-- The rule `type -> built;`. -/
def ruleTo (type built : String) : Rule :=
  ⟨[.fixed (.plain .none) type none []],.subtree .none built none [],.none⟩

/-- Two languages, the blocks of one before and behind a block of the other. -/
def interleaved : RuleFile :=
  ⟨[⟨"x",none,[ruleTo "A" "B"]⟩,⟨"y",none,[ruleTo "C" "A"]⟩,⟨"x",none,[ruleTo "C" "D"]⟩]⟩

end Sample

open Sample in
theorem interleaved_alone :
    ∃ p, interleaved.compile none .default = .ok p ∧ p.languageNames = ["x","y"] ∧
      p.symbols.names = ["A","B","C","D"] ∧
      ∃ e q k, Engine.ofProgram? p "y" = some e ∧
        compile ⟨[⟨"y",none,[ruleTo "C" "A"]⟩]⟩ none .default = .ok q ∧
        q.symbols.names = ["C","A"] ∧ Engine.ofProgram? q "y" = some k ∧ e.SameRuns k := by
  have hp : interleaved.compile none .default = .ok _ := rfl
  refine ⟨_,hp,rfl,rfl,?_⟩
  obtain ⟨e,q,k,he,hq,-,hk,-,-,hruns⟩ := (compile_language_alone hp).2 "y" (by decide) none
  refine ⟨e,q,k,he,hq,?_,hk,hruns⟩
  cases hq
  rfl

end RuleFile
end TreeRules
