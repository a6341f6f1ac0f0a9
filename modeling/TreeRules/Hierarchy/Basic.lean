/-!
Type hierarchies. Every type names at most one parent, and a node of a type counts as a node of
each of the type's ancestors.
-/
namespace TreeRules

/-- What sort of type is declared. Nodes of an abstract type cannot be built. -/
inductive TypeKind where
  | abstract
  | ordinary
  | list
  | literal
deriving DecidableEq

/-- The declaration of a type. -/
structure Declaration where
  name : String
  parent : Option String
  kind : TypeKind
deriving DecidableEq

/-- Declared types, in the order of their declaration. -/
structure Hierarchy where
  declarations : List Declaration
deriving DecidableEq

namespace Hierarchy

/-- Why declarations make no hierarchy. -/
inductive Error where
  /-- The text is not a list of declarations. -/
  | json
  | duplicateType (name : String)
  | unknownParent (child parent : String)
  | cycle (name : String)
deriving DecidableEq

def Error.message : Error → String
  | json => "invalid type hierarchy JSON"
  | duplicateType name => "type `" ++ name ++ "` is declared more than once"
  | unknownParent child parent =>
    "type `" ++ child ++ "` extends unknown type `" ++ parent ++ "`"
  | cycle name => "type `" ++ name ++ "` is part of an inheritance cycle"

/-- The hierarchy without types. -/
def empty : Hierarchy := ⟨[]⟩

variable (h : Hierarchy)

def size : Nat := h.declarations.length

/-- All declared names. -/
def names : List String := h.declarations.map Declaration.name

/-- The declaration of `name`. -/
def find? (name : String) : Option Declaration := h.declarations.find? (·.name == name)

def contains (name : String) : Bool := (h.find? name).isSome

def parent? (name : String) : Option String := (h.find? name).bind Declaration.parent

def isAbstract (name : String) : Bool := (h.find? name).any (·.kind == .abstract)

/-- `name`, its parent, the parent's parent and so on, with at most `steps` names behind the
first. -/
def chain (name : String) : (steps : Nat) → List String
  | 0 => [name]
  | steps + 1 =>
    match h.parent? name with
    | none => [name]
    | some p => name :: chain p steps

/-- Whether `sub` is `sup` or has it among its ancestors. No type has more ancestors than there are
types. -/
def isA (sub sup : String) : Bool := (h.chain sub h.size).contains sup

/-- The declared types that are a `name`, itself among them if it is declared. -/
def descendants (name : String) : List String := h.names.filter (h.isA · name)

/-- Declares one more type. Its parent must be declared before it. -/
def add (d : Declaration) : Except Error Hierarchy :=
  if h.contains d.name then .error (.duplicateType d.name)
  else match d.parent with
    | none => .ok ⟨h.declarations ++ [d]⟩
    | some p =>
      if h.contains p then .ok ⟨h.declarations ++ [d]⟩
      else .error (.unknownParent d.name p)

/-- A type is a type of its own name. -/
theorem isA_self (name : String) : h.isA name name = true := by
  unfold isA
  cases h.size with
  | zero => simp [chain]
  | succ n => unfold chain; split <;> simp

end Hierarchy

end TreeRules
