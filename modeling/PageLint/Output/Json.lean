/-
# PageLint.Output.Json — findings for a program

A run as one value of JSON. Members without a value are left out of a finding, and
so is an empty list of notes.
-/
import PageLint.Json.Value
import PageLint.Lint.Checker

namespace PageLint

set_option autoImplicit false

/-- How the value is laid out. -/
structure JsonOutput where
  pretty : Bool := false
  deriving DecidableEq, Repr

namespace JsonOutput

/-- The style of writing. -/
def style (out : JsonOutput) : JsonValue.Style := if out.pretty then .pretty else .compact

/-- A member, if it has a value. -/
def optional (name : String) (value : Option JsonValue) : List (String × JsonValue) :=
  (value.map fun v => (name, v)).toList

/-- A fix as a value. -/
def fixValue (f : Fix) : JsonValue :=
  .object [("description", .text f.description), ("replacement", .text f.replacement)]

/-- A finding as a value. -/
def diagnosticValue (d : Diagnostic) : JsonValue :=
  let notes := if d.notes.isEmpty then none else some (JsonValue.list (d.notes.map .text))
  .object <|
    [("rule_id", .text d.ruleId), ("severity", .text d.severity.word),
      ("message", .text d.message), ("file", .text d.file.text),
      ("line", .natural d.span.start.line), ("column", .natural d.span.start.column),
      ("end_line", .natural d.span.finish.line), ("end_column", .natural d.span.finish.column),
      ("length", .natural d.width)] ++
      optional "source_line" (d.sourceLine.map .text) ++ optional "help" (d.help.map .text) ++
      optional "fix" (d.fix.map fixValue) ++ optional "notes" notes

/-- A file that could not be checked, as a value. -/
def failureValue (f : FileFailure) : JsonValue :=
  .object [("file", .text f.path.text), ("error", .text f.message)]

/-- The counts and the time of a run, in whole milliseconds. -/
def summaryValue (s : Summary) (elapsed : Nat) : JsonValue :=
  .object
    [("files_processed", .natural s.filesProcessed),
      ("files_with_errors", .natural s.filesWithErrors),
      ("files_with_warnings", .natural s.filesWithWarnings),
      ("error_count", .natural s.errorCount), ("warning_count", .natural s.warningCount),
      ("failure_count", .natural s.failureCount), ("exit_code", .natural s.exitCode),
      ("duration_ms", .natural (elapsed / Nat.pow 10 6))]

/-- A finding. -/
def diagnostic (out : JsonOutput) (d : Diagnostic) : String :=
  (diagnosticValue d).render out.style

/-- A run. -/
def result (out : JsonOutput) (r : LintResult) : String :=
  JsonValue.render out.style <|
    .object
      [("diagnostics", .list (r.diagnostics.map diagnosticValue)),
        ("failures", .list (r.failures.map failureValue)),
        ("summary", summaryValue r.summary r.elapsed)]

end JsonOutput

end PageLint
