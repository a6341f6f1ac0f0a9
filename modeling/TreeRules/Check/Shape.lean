import TreeRules.Diagnostic.Basic
import TreeRules.Rule

/-!
Shape of left sides: where modes, negations, ellipses and holes may stand.
-/
namespace TreeRules

/-- The note that every diagnostic about a part of a rule carries. -/
def Rule.note (r : Rule) : Diagnostic.Note := ⟨"in rule `" ++ r.text ++ "`",r.span⟩

namespace Shape

/-- Where an item stands. -/
inductive Position where
  /-- On the left side of a rule. -/
  | top
  /-- Directly inside `|` or `&`. -/
  | combinator
  /-- Among the children of a node. -/
  | child (last : Bool)
deriving DecidableEq

structure Context where
  position : Position
  /-- Inside a negated item. -/
  negated : Bool
  /-- Inside a repeated item. -/
  repeated : Bool

def Context.top (item : Item) : Context := ⟨.top,false,item.mode == .repeated⟩

def isCombinator : Item → Bool
  | .anyOf _ _ | .allOf _ _ => true
  | _ => false

/-- Nodes, typed holes and alternatives can be negated. -/
def canBeNegated : Item → Bool
  | .fixed _ _ _ _ | .typedHole _ _ _ _ | .anyOf _ _ => true
  | _ => false

def isUntypedHole : Item → Bool
  | .untypedHole _ _ _ => true
  | _ => false

def isChild : Position → Bool
  | .child _ => true
  | _ => false

/-- A mode below the top level, or on a combinator. -/
def badMode (c : Context) (i : Item) : Bool :=
  i.mode != .normal && (c.position != .top || isCombinator i)

def badNegation (i : Item) : Bool := i.negated && !canBeNegated i

def badEllipsis (c : Context) (i : Item) : Bool := i.isEllipsis && c.position != .child true

/-- An untyped hole that is no child of a node. -/
def badUntypedHole (c : Context) (i : Item) : Bool :=
  !i.isEllipsis && isUntypedHole i && !isChild c.position

def isDataHole : Option Datum → Bool
  | some (.hole _) => true
  | _ => false

/-- The faults of a data hole: `blocked` says that it can never be bound. -/
def dataHoleFaults (present blocked repeated : Bool) : List Diagnostic.Kind :=
  if !present then []
  else if blocked then [.holeUnderNegation]
  else if repeated then [.dataHoleInRepeated]
  else []

/-- `kind` if `bad` holds. -/
def faultIf (bad : Bool) (kind : Diagnostic.Kind) : List Diagnostic.Kind :=
  if bad then [kind] else []

/-- The faults of an item itself, whatever is inside it. -/
def ownFaults (c : Context) (i : Item) : List Diagnostic.Kind :=
  faultIf (badMode c i) .modeNotAllowed ++ faultIf (badNegation i) .negationNotAllowed ++
  faultIf (badEllipsis c i) .misplacedEllipsis ++
  faultIf (badUntypedHole c i) .untypedHoleAsNode ++
  match i with
  | .fixed t _ data _ => dataHoleFaults (isDataHole data) (c.negated || t.negated) c.repeated
  | .typedHole _ _ _ _ | .untypedHole _ _ _ => faultIf c.negated .holeUnderNegation
  | .symbolRange _ first last hole =>
    faultIf (last < first) .invalidSymbolRange ++
      dataHoleFaults hole.isSome c.negated c.repeated
  | .anyOf _ items | .allOf _ items => faultIf items.isEmpty .emptyCombinator
  | .rest _ => []

/-- The diagnostics of `kinds` about one item. -/
def reports (note : Diagnostic.Note) (i : Item) (kinds : List Diagnostic.Kind) :
    List Diagnostic :=
  kinds.map fun kind => .report kind i.span (some i.text) [note]

mutual

/-- The diagnostics of an item and of the items inside it. -/
def check (note : Diagnostic.Note) (c : Context) : Item → List Diagnostic
  | .fixed t type data children =>
    reports note (.fixed t type data children) (ownFaults c (.fixed t type data children)) ++
      checkChildren note (c.negated || t.negated) c.repeated children
  | .anyOf t items =>
    reports note (.anyOf t items) (ownFaults c (.anyOf t items)) ++
      checkAll note ⟨.combinator,c.negated || t.negated,c.repeated⟩ items
  | .allOf t items =>
    reports note (.allOf t items) (ownFaults c (.allOf t items)) ++
      checkAll note ⟨.combinator,c.negated || t.negated,c.repeated⟩ items
  | i => reports note i (ownFaults c i)

/-- The diagnostics of the children of a node. -/
def checkChildren (note : Diagnostic.Note) (negated repeated : Bool) :
    List Item → List Diagnostic
  | [] => []
  | i :: items =>
    check note ⟨.child items.isEmpty,negated,repeated⟩ i ++
      checkChildren note negated repeated items

/-- The diagnostics of items in one context. -/
def checkAll (note : Diagnostic.Note) (c : Context) : List Item → List Diagnostic
  | [] => []
  | i :: items => check note c i ++ checkAll note c items

end

/-- The diagnostics of the items of a left side. -/
def checkTop (note : Diagnostic.Note) (items : List Item) : List Diagnostic :=
  items.flatMap fun i => check note (.top i) i

end Shape

/-- The diagnostics about the shape of a rule's left side. -/
def Rule.shapeDiagnostics (r : Rule) : List Diagnostic :=
  (if r.pattern.isEmpty then [.report .emptyPattern r.span (some r.text) []] else []) ++
    Shape.checkTop r.note r.pattern

end TreeRules
