/-!
Settings of reading and compiling.
-/
namespace TreeRules

structure Config where
  /-- How many tokens may be read. -/
  parseFuel : Nat
  /-- How deeply items or templates may be nested. -/
  recursionLimit : Nat
  /-- How many conditions on children a matcher keeps among its own. -/
  inlineLimit : Nat
  /-- The language of rules outside the language blocks. -/
  defaultLanguage : String
deriving DecidableEq

def Config.default : Config := ⟨1000000,4096,4,"default"⟩

end TreeRules
