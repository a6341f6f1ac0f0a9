import TreeRules.Hierarchy.Basic

/-!
Hierarchies from declarations in any order. Of several faults a repeated name is found first, then
a parent that is not declared, then a name whose ancestors have no end; each the first in order.
-/
namespace TreeRules.Hierarchy

/-- The first name that stands earlier in the list or in `seen`. -/
def duplicate? : (seen : List String) → List Declaration → Option String
  | _, [] => none
  | seen, d :: ds =>
    if seen.contains d.name then some d.name else duplicate? (d.name :: seen) ds

/-- The first declaration in `ds` with a parent that `h` does not declare: child and parent. -/
def orphan? (h : Hierarchy) : List Declaration → Option (String × String)
  | [] => none
  | d :: ds =>
    match d.parent with
    | some p => if h.contains p then orphan? h ds else some (d.name,p)
    | none => orphan? h ds

/-- Whether the ancestors from `current` on come to `name`, or are more than `steps`. -/
def endless (h : Hierarchy) (name : String) : (current : Option String) → (steps : Nat) → Bool
  | none, _ => false
  | some _, 0 => true
  | some a, steps + 1 => a == name || endless h name (h.parent? a) steps

/-- The hierarchy of the given declarations. -/
def ofDeclarations (ds : List Declaration) : Except Error Hierarchy :=
  let h : Hierarchy := ⟨ds⟩
  match duplicate? [] ds with
  | some name => .error (.duplicateType name)
  | none =>
    match orphan? h ds with
    | some (child,parent) => .error (.unknownParent child parent)
    | none =>
      match h.names.find? fun name => endless h name (h.parent? name) (h.size + 1) with
      | some name => .error (.cycle name)
      | none => .ok h

end TreeRules.Hierarchy
