import TreeRules.Capture
import TreeRules.Matcher.Basic

/-!
Running matchers. A table lists matchers from the newest to the oldest, so that what a matcher
refers to is in the rest of the list behind it. Accepting a node captures nothing; capturing
assumes that the node was accepted.
-/
namespace TreeRules.Matcher

/-- Whether a node is of a type that counts. -/
def TypeTest.admits (symbols : SymbolTable) (test : TypeTest) (node : Tree) : Bool :=
  (symbols.get? node.type).any test.accepts.contains

/-- Whether the data is one character from `first` to `last`. -/
def inCharRange (first last : Char) : Option String → Bool
  | none => false
  | some text =>
    match text.toList with
    | [c] => first ≤ c && c ≤ last
    | _ => false

/-- Whether a condition holds; `refers` runs the matchers referred to. -/
def ChildCondition.holds (symbols : SymbolTable) (refers : Id → Tree → Bool) (node : Tree) :
    ChildCondition → Bool
  | child index m => node.children[index]?.any (refers m)
  | remaining start types => (node.children.drop start).all (types.admits symbols)

@[inherit_doc ChildCondition.holds]
def Condition.holds (symbols : SymbolTable) (refers : Id → Tree → Bool)
    (proc : List ChildCondition) (node : Tree) : Condition → Bool
  | type test => test.admits symbols node
  | childCount count => node.children.length == count
  | minChildCount count => count ≤ node.children.length
  | dataEquals text => node.data == some text
  | hasData => node.data.isSome
  | charRange first last => node.children.isEmpty && inCharRange first last node.data
  | children condition => condition.holds symbols refers node
  | procedure => proc.all (·.holds symbols refers node)
  | anyOf ms => ms.any (refers · node)
  | allOf ms => ms.all (refers · node)

/-- Whether a matcher accepts a node. -/
def holds (symbols : SymbolTable) (refers : Id → Tree → Bool) (m : Matcher) (node : Tree) :
    Bool :=
  m.conditions.all (·.holds symbols refers m.procedure node) != m.negated

/-- Whether matcher `id` of the table accepts the node. -/
def accepts (symbols : SymbolTable) : (table : List Matcher) → Id → Tree → Bool
  | [], _, _ => false
  | m :: older, id, node =>
    if m.id = id then m.holds symbols (accepts symbols older) node
    else accepts symbols older id node

/-- Takes one step of capturing; `refers` and `captures` run the matchers referred to. With
`accumulate` nodes are put behind those captured before. -/
def Extraction.run (accumulate : Bool) (refers : Id → Tree → Bool)
    (captures : Id → Tree → Captures → Captures) (node : Tree) (c : Captures) :
    Extraction → Captures
  | .node hole => if accumulate then c.pushNode hole node else c.bindNode hole node
  | .data hole => node.data.elim c (c.bindData hole)
  | .child hole index =>
    match node.children[index]? with
    | none => c
    | some n => if accumulate then c.pushNode hole n else c.bindNodes hole [n]
  | .remaining hole start =>
    if accumulate then c.extendNodes hole (node.children.drop start)
    else c.bindNodes hole (node.children.drop start)
  | .nested index m =>
    match node.children[index]? with
    | none => c
    | some n => captures m n c
  | .firstOf ms =>
    match ms.find? (refers · node) with
    | none => c
    | some m => captures m node c
  | .each ms => ms.foldl (fun c m => captures m node c) c

/-- Captures what matcher `id` of the table captures of the node. -/
def extract (symbols : SymbolTable) (accumulate : Bool) :
    (table : List Matcher) → Id → Tree → Captures → Captures
  | [], _, _, c => c
  | m :: older, id, node, c =>
    if m.id = id then
      m.extractions.foldl
        (Extraction.run accumulate (accepts symbols older) (extract symbols accumulate older) node)
        c
    else extract symbols accumulate older id node c

end TreeRules.Matcher
