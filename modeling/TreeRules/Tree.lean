import TreeRules.Text.Quote

/-!
Trees that rules match and build.
-/
namespace TreeRules

/-- The stretch of source text that a node covers. Nothing says that it starts before it ends. -/
structure Fragment where
  start : Nat
  stop : Nat
deriving DecidableEq

namespace Fragment

/-- From the earlier start to the later end. -/
def join (f g : Fragment) : Fragment := ⟨min f.start g.start,max f.stop g.stop⟩

/-- The smallest fragment that covers all of the list. -/
def cover : List Fragment → Option Fragment
  | [] => none
  | f :: fs => some (fs.foldl join f)

def text (f : Fragment) : String := toString f.start ++ ".." ++ toString f.stop

end Fragment

/-- A node with its type, data, children and fragment. -/
inductive Tree where
  | node (type : String) (data : Option String) (children : List Tree)
      (fragment : Option Fragment)

namespace Tree

def type : Tree → String
  | node type _ _ _ => type

def data : Tree → Option String
  | node _ data _ _ => data

def children : Tree → List Tree
  | node _ _ children _ => children

def fragment : Tree → Option Fragment
  | node _ _ _ fragment => fragment

/-- Data in quotes and angle brackets. -/
def dataText : Option String → String
  | none => ""
  | some d => "<" ++ Text.quoted d ++ ">"

mutual

/-- Type, data and children; fragments are not written. -/
def text : Tree → String
  | node type data children _ =>
    type ++ dataText data ++ Text.parenthesized children (listText children)

/-- Trees with commas between them. -/
def listText : List Tree → String
  | [] => ""
  | [t] => t.text
  | t :: u :: rest => t.text ++ ", " ++ listText (u :: rest)

end

end Tree

end TreeRules
