import TreeRules.Diagnostic.Kind
import TreeRules.Text.Span

/-!
Located diagnostics. Lists of them are in report order.
-/
namespace TreeRules

/-- A second place that a diagnostic points at, with a note. -/
structure Diagnostic.Note where
  message : String
  span : Span
deriving DecidableEq

/-- A message about one place of a rule file. -/
structure Diagnostic where
  kind : Diagnostic.Kind
  span : Span
  message : String
  notes : List Diagnostic.Note
deriving DecidableEq

namespace Diagnostic

/-- The diagnostic of `kind` at `span`, worded with `detail` if there is one. -/
def report (kind : Kind) (span : Span) (detail : Option String) (notes : List Note) :
    Diagnostic :=
  ⟨kind,span,kind.message detail,notes⟩

def severity (d : Diagnostic) : Severity := d.kind.severity

def isError (d : Diagnostic) : Bool := d.severity == .error

def Note.text (n : Note) : String := " (related: " ++ n.message ++ " at " ++ n.span.text ++ ")"

/-- One line: severity, place, message, then the notes in parentheses. -/
def text (d : Diagnostic) : String :=
  d.severity.text ++ " at " ++ d.span.text ++ ": " ++ d.message ++
    String.join (d.notes.map Note.text)

/-- A diagnostic a line. -/
def listText (ds : List Diagnostic) : String := "\n".intercalate (ds.map text)

def errorCount (ds : List Diagnostic) : Nat := ds.countP isError

def hasErrors (ds : List Diagnostic) : Bool := ds.any isError

@[simp] theorem isError_eq_true (d : Diagnostic) : d.isError = true := rfl

@[simp] theorem hasErrors_eq_false_iff (ds : List Diagnostic) :
    hasErrors ds = false ↔ ds = [] := by
  cases ds <;> simp [hasErrors]

end Diagnostic

end TreeRules
