import TreeRules.Pattern.Basic
import TreeRules.Token.Lexer
import Mathlib.Tactic.Lemma

/-! Items with all items inside them. An induction principle that hands over a hypothesis for
every inner item, type names that the lexer could read, and items up to where they stand. -/
namespace TreeRules
namespace Item

/-- Induction on an item, with the hypothesis for every item directly inside. -/
@[elab_as_elim] theorem ind {P : Item → Prop}
    (fixed : ∀ t type data children, (∀ i ∈ children, P i) → P (.fixed t type data children))
    (typedHole : ∀ t type hole ellipsis, P (.typedHole t type hole ellipsis))
    (untypedHole : ∀ t hole ellipsis, P (.untypedHole t hole ellipsis))
    (symbolRange : ∀ t first last hole, P (.symbolRange t first last hole))
    (anyOf : ∀ t items, (∀ i ∈ items, P i) → P (.anyOf t items))
    (allOf : ∀ t items, (∀ i ∈ items, P i) → P (.allOf t items))
    (rest : ∀ t, P (.rest t)) (i : Item) : P i := by
  refine @Item.rec P (fun items => ∀ i ∈ items, P i)
    fixed typedHole untypedHole symbolRange anyOf allOf rest ?_ ?_ i
  · intro i hi
    cases hi
  · intro j items hj hitems i hi
    rcases List.mem_cons.mp hi with rfl | hi
    · exact hj
    · exact hitems i hi

mutual

/-- The item and all items inside it, in the order of their writing. -/
def parts : Item → List Item
  | fixed t type data children => fixed t type data children :: listParts children
  | anyOf t items => anyOf t items :: listParts items
  | allOf t items => allOf t items :: listParts items
  | i => [i]

/-- The items of a list and all items inside them. -/
def listParts : List Item → List Item
  | [] => []
  | i :: items => i.parts ++ listParts items

end

lemma mem_listParts {j : Item} {items : List Item} :
    j ∈ listParts items ↔ ∃ i ∈ items, j ∈ i.parts := by
  induction items with
  | nil => simp [listParts]
  | cons i items ih => simp [listParts, ih]

/-- The parts of an item are the item itself and the parts of what is directly inside. -/
lemma mem_parts {i j : Item} : j ∈ i.parts ↔ j = i ∨ ∃ k ∈ i.inner, j ∈ k.parts := by
  cases i <;> simp [parts, inner, mem_listParts]

lemma self_mem_parts (i : Item) : i ∈ i.parts := mem_parts.mpr (Or.inl rfl)

lemma mem_parts_of_mem_inner {i j k : Item} (hk : k ∈ i.inner) (hj : j ∈ k.parts) :
    j ∈ i.parts := mem_parts.mpr (Or.inr ⟨k,hk,hj⟩)

/-- A name that the lexer could read as one word. -/
def IsIdentifier (name : String) : Prop :=
  ∃ c cs, name.toList = c :: cs ∧ Lexer.isIdStart c = true ∧ ∀ d ∈ cs, Lexer.isIdChar d = true

/-- Every type that is named in the item is named by an identifier. -/
def HasIdentifiers (i : Item) : Prop := ∀ j ∈ i.parts, ∀ name ∈ j.type?, IsIdentifier name

lemma HasIdentifiers.inner {i k : Item} (h : i.HasIdentifiers) (hk : k ∈ i.inner) :
    k.HasIdentifiers := fun j hj => h j (mem_parts_of_mem_inner hk hj)

lemma HasIdentifiers.type {i : Item} (h : i.HasIdentifiers) {name : String}
    (hn : i.type? = some name) : IsIdentifier name := h i i.self_mem_parts name hn

mutual

/-- The item with all places forgotten. -/
def placeless : Item → Item
  | fixed t type data children => fixed { t with span := .none } type data (listPlaceless children)
  | typedHole t type hole ellipsis => typedHole { t with span := .none } type hole ellipsis
  | untypedHole t hole ellipsis => untypedHole { t with span := .none } hole ellipsis
  | symbolRange t first last hole => symbolRange { t with span := .none } first last hole
  | anyOf t items => anyOf { t with span := .none } (listPlaceless items)
  | allOf t items => allOf { t with span := .none } (listPlaceless items)
  | rest t => rest { t with span := .none }

def listPlaceless : List Item → List Item
  | [] => []
  | i :: items => i.placeless :: listPlaceless items

end

@[simp] lemma listPlaceless_eq_map (items : List Item) :
    listPlaceless items = items.map placeless := by
  induction items with
  | nil => rfl
  | cons i items ih => simp [listPlaceless, ih]

/-- The item with all places and its own mode forgotten: what a canonical text can tell. -/
def core (i : Item) : Item := i.placeless.withTag ⟨.normal,i.negated,.none⟩

end Item
end TreeRules
