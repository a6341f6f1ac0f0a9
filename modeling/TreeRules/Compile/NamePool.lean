/-!
Names for matchers. The first matcher of a base name takes it plainly, later ones are numbered.
-/
namespace TreeRules

/-- The base names that were used, with repetitions. -/
structure NamePool where
  used : List String

namespace NamePool

def empty : NamePool := ⟨[]⟩

/-- The name of the `count`-th matcher of a base. -/
def matcherName (base : String) (count : Nat) : String :=
  base ++ "Matcher" ++ if count = 1 then "" else toString count

/-- A name for one more matcher of `base`. -/
def take (p : NamePool) (base : String) : String × NamePool :=
  (matcherName base (p.used.count base + 1),⟨base :: p.used⟩)

/-- Names for matchers of the given bases, in turn. -/
def takeAll (p : NamePool) : List String → List String
  | [] => []
  | base :: bases =>
    let first := p.take base
    first.1 :: takeAll first.2 bases

end NamePool

end TreeRules
