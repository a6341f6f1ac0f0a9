import TreeRules.Proofs.Pattern.Parts
import TreeRules.Rule

/-! What is written out in a rule: the names of types, and the characters in quotes. Rules and
templates up to where they stand. -/
namespace TreeRules

/-- A name that is read as one word, and not as a keyword. -/
def IsTypeName (name : String) : Prop :=
  Item.IsIdentifier name ∧ name ≠ "language" ∧ name ≠ "null"

/-- A character in quotes. -/
structure Quote where
  delimiter : Char
  char : Char

/-- The characters of the text in a data position. -/
def Datum.quotes : Option Datum → List Quote
  | some (.literal text) => text.toList.map (⟨'"',·⟩)
  | _ => []

namespace Item

mutual

/-- The types that are named in the item. -/
def typeNames : Item → List String
  | fixed _ type _ children => type :: listTypeNames children
  | typedHole _ type _ _ => [type]
  | anyOf _ items | allOf _ items => listTypeNames items
  | untypedHole _ _ _ | symbolRange _ _ _ _ | rest _ => []

def listTypeNames : List Item → List String
  | [] => []
  | i :: items => i.typeNames ++ listTypeNames items

end

mutual

/-- The characters of the item's texts and ranges. -/
def quotes : Item → List Quote
  | fixed _ _ data children => Datum.quotes data ++ listQuotes children
  | symbolRange _ first last _ => [⟨'\'',first⟩,⟨'\'',last⟩]
  | anyOf _ items | allOf _ items => listQuotes items
  | typedHole _ _ _ _ | untypedHole _ _ _ | rest _ => []

def listQuotes : List Item → List Quote
  | [] => []
  | i :: items => i.quotes ++ listQuotes items

end

@[simp] lemma listTypeNames_eq_flatMap (items : List Item) :
    listTypeNames items = items.flatMap typeNames := by
  induction items with
  | nil => rfl
  | cons i items ih => rw [listTypeNames, ih, List.flatMap_cons]

@[simp] lemma listQuotes_eq_flatMap (items : List Item) :
    listQuotes items = items.flatMap quotes := by
  induction items with
  | nil => rfl
  | cons i items ih => rw [listQuotes, ih, List.flatMap_cons]

end Item

namespace Template

/-- Induction on a template, with the hypothesis for every template directly inside. -/
@[elab_as_elim] theorem ind {P : Template → Prop}
    (subtree : ∀ span type data children, (∀ t ∈ children, P t) →
      P (.subtree span type data children))
    (hole : ∀ span h, P (.hole span h)) (null : ∀ span, P (.null span)) (t : Template) : P t := by
  refine @Template.rec P (fun ts => ∀ t ∈ ts, P t) subtree hole null ?_ ?_ t
  · intro t ht
    cases ht
  · intro u ts hu hts t ht
    rcases List.mem_cons.mp ht with rfl | ht
    · exact hu
    · exact hts t ht

mutual

/-- The types that are named in the template. -/
def typeNames : Template → List String
  | subtree _ type _ children => type :: listTypeNames children
  | hole _ _ | null _ => []

def listTypeNames : List Template → List String
  | [] => []
  | t :: rest => t.typeNames ++ listTypeNames rest

end

mutual

/-- The characters of the template's texts. -/
def quotes : Template → List Quote
  | subtree _ _ data children => Datum.quotes data ++ listQuotes children
  | hole _ _ | null _ => []

def listQuotes : List Template → List Quote
  | [] => []
  | t :: rest => t.quotes ++ listQuotes rest

end

mutual

/-- The template with all places forgotten. -/
def placeless : Template → Template
  | subtree _ type data children => subtree .none type data (listPlaceless children)
  | hole _ h => hole .none h
  | null _ => null .none

def listPlaceless : List Template → List Template
  | [] => []
  | t :: rest => t.placeless :: listPlaceless rest

end

@[simp] lemma listTypeNames_eq_flatMap (ts : List Template) :
    listTypeNames ts = ts.flatMap typeNames := by
  induction ts with
  | nil => rfl
  | cons t ts ih => rw [listTypeNames, ih, List.flatMap_cons]

@[simp] lemma listQuotes_eq_flatMap (ts : List Template) :
    listQuotes ts = ts.flatMap quotes := by
  induction ts with
  | nil => rfl
  | cons t ts ih => rw [listQuotes, ih, List.flatMap_cons]

@[simp] lemma listPlaceless_eq_map (ts : List Template) :
    listPlaceless ts = ts.map placeless := by
  induction ts with
  | nil => rfl
  | cons t ts ih => simp [listPlaceless, ih]

end Template

namespace Rule

/-- The types that are named in the rule. -/
def typeNames (r : Rule) : List String := r.pattern.flatMap Item.typeNames ++ r.result.typeNames

/-- The characters of the rule's texts and ranges. -/
def quotes (r : Rule) : List Quote := r.pattern.flatMap Item.quotes ++ r.result.quotes

/-- The rule with all places forgotten. -/
def placeless (r : Rule) : Rule := ⟨r.pattern.map Item.placeless,r.result.placeless,.none⟩

end Rule

end TreeRules
