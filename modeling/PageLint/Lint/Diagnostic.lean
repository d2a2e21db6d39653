/-
# PageLint.Lint.Diagnostic — findings as a report shows them
-/
import PageLint.Lint.Path
import PageLint.Lint.Severity
import PageLint.Text.Position

namespace PageLint

set_option autoImplicit false

/-- A text that would mend a finding in place of its span, and what that does. -/
structure Fix where
  description : String
  replacement : String
  deriving DecidableEq, Repr

/-- A finding in a file: the rule that made it, where it lies, and what helps the
reader. -/
structure Diagnostic where
  ruleId : String
  severity : Severity
  message : String
  file : Path
  span : Span
  sourceLine : Option String := none
  help : Option String := none
  fix : Option Fix := none
  notes : List String := []
  deriving DecidableEq, Repr

namespace Diagnostic

/-- The line on which it begins. -/
def line (d : Diagnostic) : Nat := d.span.start.line

/-- The column at which it begins. -/
def column (d : Diagnostic) : Nat := d.span.start.column

/-- Whether it is a definite problem. -/
def isError (d : Diagnostic) : Bool := d.severity == .error

/-- How many characters to mark on its first line: all that it covers of the line,
and at least one. -/
def width (d : Diagnostic) : Nat :=
  let covered :=
    if d.span.finish.line = d.span.start.line then d.span.finish.column - d.span.start.column
    else ((d.sourceLine.map fun l => l.length - (d.span.start.column - 1)).getD 1)
  max covered 1

end Diagnostic

end PageLint
