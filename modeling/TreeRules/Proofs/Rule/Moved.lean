import TreeRules.Proofs.Rule.Words
import TreeRules.Token.Basic

/-! Things that stand further on in a text: all their spans are moved by the same number of bytes,
and nothing else changes. -/
namespace TreeRules

/-- The span, moved by `k` bytes. -/
def Span.forward (k : Nat) (s : Span) : Span := ⟨s.start + k,s.stop + k⟩

@[simp] lemma Span.forward_zero (s : Span) : s.forward 0 = s := rfl

namespace Token

def forward (k : Nat) (t : Token) : Token := { t with span := t.span.forward k }

@[simp] lemma kind_forward (k : Nat) (t : Token) : (t.forward k).kind = t.kind := rfl

@[simp] lemma text_forward (k : Nat) (t : Token) : (t.forward k).text = t.text := rfl

@[simp] lemma span_forward (k : Nat) (t : Token) : (t.forward k).span = t.span.forward k := rfl

@[simp] lemma forward_zero (t : Token) : t.forward 0 = t := rfl

@[simp] lemma map_forward_zero (ts : List Token) : ts.map (forward 0) = ts := List.map_id ts

end Token

namespace Item

def Tag.forward (k : Nat) (t : Tag) : Tag := { t with span := t.span.forward k }

mutual

/-- The item, moved with all items inside it. -/
def forward (k : Nat) : Item → Item
  | fixed t type data children => fixed (t.forward k) type data (listForward k children)
  | typedHole t type hole ellipsis => typedHole (t.forward k) type hole ellipsis
  | untypedHole t hole ellipsis => untypedHole (t.forward k) hole ellipsis
  | symbolRange t first last hole => symbolRange (t.forward k) first last hole
  | anyOf t items => anyOf (t.forward k) (listForward k items)
  | allOf t items => allOf (t.forward k) (listForward k items)
  | rest t => rest (t.forward k)

def listForward (k : Nat) : List Item → List Item
  | [] => []
  | i :: items => i.forward k :: listForward k items

end

@[simp] lemma listForward_eq_map (k : Nat) (items : List Item) :
    listForward k items = items.map (forward k) := by
  induction items with
  | nil => rfl
  | cons i items ih => rw [listForward, ih, List.map_cons]

@[simp] lemma tag_forward (k : Nat) (i : Item) : (i.forward k).tag = i.tag.forward k := by
  cases i <;> rfl

@[simp] lemma span_forward (k : Nat) (i : Item) : (i.forward k).span = i.span.forward k := by
  cases i <;> rfl

lemma forward_withTag (k : Nat) (tag : Tag) (i : Item) :
    (i.withTag tag).forward k = (i.forward k).withTag (tag.forward k) := by
  cases i <;> rfl

@[simp] lemma forward_zero (i : Item) : i.forward 0 = i := by
  induction i using Item.ind with
  | fixed t type data children ih =>
    rw [forward, listForward_eq_map, List.map_congr_left ih, List.map_id']
    rfl
  | anyOf t items ih | allOf t items ih =>
    rw [forward, listForward_eq_map, List.map_congr_left ih, List.map_id']
    rfl
  | typedHole | untypedHole | symbolRange | rest => rfl

end Item

namespace Template

mutual

/-- The template, moved with all templates inside it. -/
def forward (k : Nat) : Template → Template
  | subtree span type data children => subtree (span.forward k) type data (listForward k children)
  | hole span h => hole (span.forward k) h
  | null span => null (span.forward k)

def listForward (k : Nat) : List Template → List Template
  | [] => []
  | t :: rest => t.forward k :: listForward k rest

end

@[simp] lemma listForward_eq_map (k : Nat) (ts : List Template) :
    listForward k ts = ts.map (forward k) := by
  induction ts with
  | nil => rfl
  | cons t ts ih => rw [listForward, ih, List.map_cons]

@[simp] lemma forward_zero (t : Template) : t.forward 0 = t := by
  induction t using Template.ind with
  | subtree span type data children ih =>
    rw [forward, listForward_eq_map, List.map_congr_left ih, List.map_id']
    rfl
  | hole | null => rfl

end Template

/-- The rule, moved with all that it is made of. -/
def Rule.forward (k : Nat) (r : Rule) : Rule :=
  ⟨r.pattern.map (Item.forward k),r.result.forward k,r.span.forward k⟩

@[simp] lemma Rule.forward_zero (r : Rule) : r.forward 0 = r := by
  rw [forward, Template.forward_zero, List.map_id'' Item.forward_zero]
  rfl

end TreeRules
