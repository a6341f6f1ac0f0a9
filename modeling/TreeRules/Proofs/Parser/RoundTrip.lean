import TreeRules.Proofs.Parser.Limits
import TreeRules.Proofs.Parser.Printed

/-! Rules, written and read back. The text of a rule is read back to the rule, up to where things
stand, exactly if none of its quoted characters is written by its code. -/
namespace TreeRules.Parser

open Grammar Lexer

variable {source : String} {config : Config}

section RoundTrip

variable {r : Rule}

end RoundTrip

namespace Sample

end Sample

end TreeRules.Parser
