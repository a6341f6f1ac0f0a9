import TreeRules.Compile.Compilation
import TreeRules.Pattern.Printer

/-!
Compiling pattern items to matchers. The items inside an item are compiled first, so a matcher
refers to earlier ones only.
-/
namespace TreeRules

namespace Item

/-- What the name of an item's matcher begins with. -/
def plainBase : Item → String
  | fixed _ type _ _ | typedHole _ type _ _ => type
  | untypedHole _ _ _ => "Hole"
  | symbolRange _ _ _ _ => "Symbol"
  | anyOf _ _ => "Or"
  | allOf _ _ => "And"
  | rest _ => "Any"

@[inherit_doc plainBase]
def baseName (i : Item) : String := if i.negated then "Not" ++ i.plainBase else i.plainBase

def isTypedHole : Item → Bool
  | typedHole _ _ _ _ => true
  | _ => false

/-- What an item means among the children of a node. -/
inductive ChildRole where
  /-- Any child, captured. -/
  | any (hole : Hole)
  /-- All remaining children, captured. -/
  | remaining (hole : Hole)
  /-- All remaining children, which are of a type and captured. -/
  | remainingOf (type : String) (hole : Hole)
  /-- A child that is tested and captured. -/
  | captured (hole : Hole)
  /-- Nothing is asked. -/
  | free
  /-- A child that is tested and captured from. -/
  | nested

def childRole : Item → ChildRole
  | untypedHole _ h false => .any h
  | untypedHole _ h true => .remaining h
  | typedHole _ type h true => .remainingOf type h
  | typedHole _ _ h false => .captured h
  | rest _ => .free
  | _ => .nested

end Item

namespace Compilation

open Matcher (Id Condition ChildCondition Extraction TypeTest Parts)

/-- What the children of a node ask and capture. -/
structure ChildParts where
  conditions : List ChildCondition
  extractions : List Extraction

/-- Adds the matcher of an item. A negated item captures nothing, unless it is a typed hole, which
captures the node of another type. -/
def insertItem (s : Compilation) (item : Item) (parts : Parts) : Id × Compilation :=
  let kept := if item.negated && !item.isTypedHole then { parts with extractions := [] } else parts
  s.insertMatcher item.body item.baseName item.negated kept

/-- The matcher of `item`: the one that is there, or a new one from `compile`. -/
def share (s : Compilation) (item : Item) (compile : Compilation → Parts × Compilation) :
    Id × Compilation :=
  match s.lookup? item.body with
  | some id => (id,s)
  | none =>
    let made := compile s
    made.2.insertItem item made.1

/-- How many children a node must have: as many as there are items, or at least as many as stand
before an ellipsis. -/
def countCondition (children : List Item) : Condition :=
  match children.findIdx? Item.isEllipsis with
  | some start => .minChildCount start
  | none => .childCount children.length

def dataConditions : Option Datum → List Condition
  | none => []
  | some (.literal text) => [.dataEquals text]
  | some (.hole _) => [.hasData]

def dataExtractions : Option Datum → List Extraction
  | some (.hole h) => [.data h]
  | _ => []

/-- The parts of a node's matcher. Conditions on children make a procedure of their own if they are
more than `limit`. -/
def fixedParts (limit : Nat) (test : TypeTest) (data : Option Datum) (children : List Item)
    (below : ChildParts) : Parts :=
  let own := [.type test,countCondition children] ++ dataConditions data
  let extractions := dataExtractions data ++ below.extractions
  if below.conditions.length > limit then ⟨own ++ [.procedure],below.conditions,extractions⟩
  else ⟨own ++ below.conditions.map .children,[],extractions⟩

/-- The matchers among `ids` that capture something. -/
def extracting (s : Compilation) (ids : List Id) : List Id := ids.filter s.extracts

/-- The parts of the matcher of alternatives. -/
def anyOfParts (s : Compilation) (ids : List Id) : Parts :=
  ⟨[.anyOf ids],[],if (s.extracting ids).isEmpty then [] else [.firstOf ids]⟩

/-- The parts of the matcher of joint conditions. -/
def allOfParts (s : Compilation) (ids : List Id) : Parts :=
  ⟨[.allOf ids],[],
    if (s.extracting ids).isEmpty then [] else [.each (s.extracting ids)]⟩

mutual

/-- The matcher of an item, whatever the item's own mode. -/
def compileItem : Item → Compilation → Id × Compilation
  | .fixed t type data children, s =>
    s.share (.fixed t type data children) fun s =>
      let test := s.typeTest type
      let below := compileChildren 0 children test.2
      (fixedParts s.inlineLimit test.1 data children below.1,below.2)
  | .typedHole t type hole ellipsis, s =>
    s.share (.typedHole t type hole ellipsis) fun s =>
      let test := s.typeTest type
      (⟨[.type test.1],[],[.node hole]⟩,test.2)
  | .untypedHole t hole ellipsis, s =>
    s.share (.untypedHole t hole ellipsis) fun s => (⟨[],[],[.node hole]⟩,s)
  | .symbolRange t first last hole, s =>
    s.share (.symbolRange t first last hole) fun s =>
      (⟨[.charRange first last],[],hole.toList.map .data⟩,s)
  | .anyOf t items, s =>
    s.share (.anyOf t items) fun s =>
      let all := compileItems items s
      (all.2.anyOfParts all.1,all.2)
  | .allOf t items, s =>
    s.share (.allOf t items) fun s =>
      let all := compileItems items s
      (all.2.allOfParts all.1,all.2)
  | .rest t, s => s.share (.rest t) fun s => (⟨[],[],[]⟩,s)

/-- The matchers of items, one after the other. -/
def compileItems : List Item → Compilation → List Id × Compilation
  | [], s => ([],s)
  | i :: items, s =>
    let first := compileItem i s
    let others := compileItems items first.2
    (first.1 :: others.1,others.2)

/-- What the children from `index` on ask and capture. -/
def compileChildren (index : Nat) : List Item → Compilation → ChildParts × Compilation
  | [], s => (⟨[],[]⟩,s)
  | i :: items, s =>
    let first : ChildParts × Compilation :=
      match i.childRole with
      | .any h => (⟨[],[.child h index]⟩,s)
      | .remaining h => (⟨[],[.remaining h index]⟩,s)
      | .remainingOf type h =>
        let test := s.typeTest type
        (⟨[.remaining index test.1],[.remaining h index]⟩,test.2)
      | .captured h =>
        let m := compileItem i s
        (⟨[.child index m.1],[.child h index]⟩,m.2)
      | .free => (⟨[],[]⟩,s)
      | .nested =>
        let m := compileItem i s
        (⟨[.child index m.1],if m.2.extracts m.1 then [.nested index m.1] else []⟩,m.2)
    let others := compileChildren (index + 1) items first.2
    (⟨first.1.conditions ++ others.1.conditions,first.1.extractions ++ others.1.extractions⟩,
      others.2)

end

end Compilation

end TreeRules
