/-
# PageLint.Output.Compact — one line for each finding

Where, how grave, by which rule and what, between colons; the middle two can be left
out. Files that could not be checked come last.
-/
import PageLint.Lint.Checker

namespace PageLint

set_option autoImplicit false

/-- What a line shows. -/
structure CompactOutput where
  severity : Bool := true
  rule : Bool := true
  deriving DecidableEq, Repr

namespace CompactOutput

/-- Where a finding lies. -/
def place (d : Diagnostic) : String :=
  d.file.text ++ ":" ++ toString d.line ++ ":" ++ toString d.column

/-- A finding, without the end of its line. -/
def diagnostic (out : CompactOutput) (d : Diagnostic) : String :=
  let parts :=
    [place d] ++ (if out.severity then [d.severity.word] else []) ++
      (if out.rule then [d.ruleId] else []) ++ [d.message]
  ": ".intercalate parts

/-- A file that could not be checked, without the end of its line. -/
def failure (f : FileFailure) : String := f.path.text ++ ": failure: " ++ f.message

/-- The findings and the failures of a run. -/
def result (out : CompactOutput) (r : LintResult) : String :=
  String.join (r.diagnostics.map fun d => out.diagnostic d ++ "\n") ++
    String.join (r.failures.map fun f => failure f ++ "\n")

end CompactOutput

end PageLint
