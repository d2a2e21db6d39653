/-
# PageLint.Lint.Report — findings in order, once each, and counted

A report lists findings by file, line and column, then by rule, by where they end
and by message; of findings of one rule at one stretch of one file the first
stays. A `Summary` counts them.
-/
import PageLint.Lint.Diagnostic

namespace PageLint

set_option autoImplicit false

namespace Diagnostic

/-- The order of a report. -/
def compare (a b : Diagnostic) : Ordering :=
  (a.file.compare b.file).then <|
    (Ord.compare a.line b.line).then <|
      (Ord.compare a.column b.column).then <|
        (Ord.compare a.ruleId b.ruleId).then <|
          (Ord.compare a.span.finish.offset b.span.finish.offset).then <|
            Ord.compare a.message b.message

/-- Whether two findings are of one rule at one stretch of one file. -/
def repeats (later earlier : Diagnostic) : Bool :=
  later.ruleId == earlier.ruleId && later.file.same earlier.file && later.span == earlier.span

end Diagnostic

/-- The findings that do not repeat the one kept before them. -/
def dropRepeats : List Diagnostic → List Diagnostic
  | [] => []
  | d :: ds => d :: after d ds
where
  /-- What is kept after `kept`. -/
  after (kept : Diagnostic) : List Diagnostic → List Diagnostic
    | [] => []
    | d :: ds => if d.repeats kept then after kept ds else d :: after d ds

/-- Findings in the order of a report, without repetitions. -/
def report (ds : List Diagnostic) : List Diagnostic :=
  dropRepeats (ds.mergeSort fun a b => (a.compare b).isLE)

/-- Number of files, however their names are written. -/
def countFiles (paths : List Path) : Nat :=
  (paths.map Path.components).eraseDups.length

/-- The counts of a run. `failureCount` is the number of files that could not be
checked at all. -/
structure Summary where
  filesProcessed : Nat
  filesWithErrors : Nat
  filesWithWarnings : Nat
  errorCount : Nat
  warningCount : Nat
  failureCount : Nat
  deriving DecidableEq, Repr

namespace Summary

/-- Counts findings. -/
def ofDiagnostics (filesProcessed : Nat) (ds : List Diagnostic) (failureCount : Nat) : Summary :=
  let errors := ds.filter (·.isError)
  let warnings := ds.filter fun d => !d.isError
  { filesProcessed
    filesWithErrors := countFiles (errors.map (·.file))
    filesWithWarnings := countFiles (warnings.map (·.file))
    errorCount := errors.length
    warningCount := warnings.length
    failureCount }

/-- Number of findings. -/
def total (s : Summary) : Nat := s.errorCount + s.warningCount

/-- No findings, and every file could be checked. -/
def isClean (s : Summary) : Bool := s.total == 0 && s.failureCount == 0

/-- What a run tells its caller: 2 for errors and for files that could not be
checked, 1 for warnings alone, 0 for neither. -/
def exitCode (s : Summary) : Nat :=
  if s.errorCount > 0 || s.failureCount > 0 then 2 else if s.warningCount > 0 then 1 else 0

end Summary

end PageLint
