/-!
Symbol tables. A name is numbered when it is first added, and keeps its number.
-/
namespace TreeRules

/-- The number of a name in a symbol table. -/
abbrev Symbol := Nat

/-- Names in the order of their first use. -/
structure SymbolTable where
  names : List String

namespace SymbolTable

def empty : SymbolTable := ⟨[]⟩

variable (t : SymbolTable)

def size : Nat := t.names.length

/-- The symbol of a name that was added. -/
def get? (name : String) : Option Symbol := t.names.idxOf? name

/-- The name of a symbol. -/
def name? (symbol : Symbol) : Option String := t.names[symbol]?

/-- The symbol of `name`, which is added if it is new. -/
def intern (name : String) : Symbol × SymbolTable :=
  match t.get? name with
  | some symbol => (symbol,t)
  | none => (t.size,⟨t.names ++ [name]⟩)

/-- Adds names one after the other. -/
def internAll : SymbolTable → List String → List Symbol × SymbolTable
  | t, [] => ([],t)
  | t, name :: names =>
    let first := t.intern name
    let others := internAll first.2 names
    (first.1 :: others.1,others.2)

theorem name?_of_get? {name : String} {symbol : Symbol} (h : t.get? name = some symbol) :
    t.name? symbol = some name := by
  obtain ⟨hlt,heq,_⟩ := List.findIdx?_eq_some_iff_getElem.mp h
  simpa [name?, List.getElem?_eq_getElem hlt] using heq

/-- The symbol that adding a name gives stands for the name. -/
@[simp] theorem name?_intern (name : String) :
    (t.intern name).2.name? (t.intern name).1 = some name := by
  unfold intern
  split
  · next symbol h => exact t.name?_of_get? h
  · simp [name?, size]

/-- Adding a name keeps the symbols that are there. -/
theorem names_isPrefix_intern (name : String) : t.names <+: (t.intern name).2.names := by
  unfold intern
  split <;> simp

end SymbolTable

end TreeRules
