import TreeRules.Compile.Compilation
import TreeRules.Template

/-!
Compiling templates to builders. The nodes inside a node are compiled first, so a builder refers to
earlier ones only.
-/
namespace TreeRules.Compilation

/-- Whether a hole stands in a data position. -/
def readsHole : Option Datum → Bool
  | some (.hole _) => true
  | _ => false

/-- Where nodes come from, and whether a hole is read for them. -/
structure Supply (α : Type) where
  source : α
  needsCaptures : Bool

mutual

/-- Where the nodes of a template come from. -/
def compileTemplate : Template → Compilation → Supply Builder.Source × Compilation
  | .null _, s => (⟨.null,false⟩,s)
  | .hole _ h, s => (⟨.hole h,true⟩,s)
  | .subtree _ type data children, s =>
    let below := compileTemplates children s
    let symbol := below.2.intern type
    let needsCaptures := readsHole data || below.1.needsCaptures
    let b := symbol.2.insertBuilder symbol.1 data below.1.source needsCaptures
    (⟨.builder b.1,needsCaptures⟩,b.2)

/-- Where the nodes of templates come from. -/
def compileTemplates : List Template → Compilation → Supply (List Builder.Source) × Compilation
  | [], s => (⟨[],false⟩,s)
  | t :: rest, s =>
    let first := compileTemplate t s
    let others := compileTemplates rest first.2
    (⟨first.1.source :: others.1.source,first.1.needsCaptures || others.1.needsCaptures⟩,
      others.2)

end

/-- The right side that a source makes. -/
def rightSide : Builder.Source → RightSide
  | .null => .null
  | .hole h => .hole h
  | .builder id => .subtree id

/-- Compiles a right side. -/
def compileResult (t : Template) (s : Compilation) : RightSide × Compilation :=
  let made := compileTemplate t s
  (rightSide made.1.source,made.2)

end TreeRules.Compilation
