/-
# PageLint.Lint.Checker — checking files

A checker has a catalog of rules, a configuration and readers. It walks over a document
and hands each subject to the rules that run and look at its kind, one after the other;
what they find goes into one list. A rule that fails is not asked again in that file,
and its failure is reported where it failed.
-/
import PageLint.Lint.Config
import PageLint.Lint.Reader
import PageLint.Lint.Report
import PageLint.Lint.Timing

namespace PageLint

set_option autoImplicit false

namespace Rule

/-- What the reader of a report is told when the rule fails. -/
def failureMessage (r : Rule) : String :=
  "rule '" ++ r.id ++ "' failed while checking this file"

/-- The failure of a rule on a subject, as a finding. -/
def failureOn (r : Rule) (file : Path) (subject : Subject) (reason : String) : Diagnostic :=
  { ruleId := ruleFailureId
    severity := .error
    message := r.failureMessage
    file
    span := subject.span?.getD (.emptyAt .start)
    notes := [reason] }

end Rule

/-- A fault of structure, as a finding. -/
def ParseIssue.diagnostic (issue : ParseIssue) (file : Path) : Diagnostic :=
  { ruleId := parseErrorId, severity := .error, message := issue.message, file, span := issue.span }

/-- Why a file could not be checked. -/
inductive FailureCause where
  | unsupported
  | unreadable (reason : String)
  deriving DecidableEq, Repr

/-- A file that could not be checked. -/
structure FileFailure where
  path : Path
  cause : FailureCause
  deriving DecidableEq, Repr

/-- What the reader of a report is told. -/
def FileFailure.message (f : FileFailure) : String :=
  match f.cause with
  | .unsupported => "no plugin handles files like " ++ f.path.text
  | .unreadable reason => "failed to read " ++ f.path.text ++ ": " ++ reason

/-- A file to check: its name, and its text or why there is none. -/
structure Input where
  path : Path
  text : Except String (List Char)

/-- A file whose text is at hand. -/
structure TextFile where
  path : Path
  text : List Char
  deriving DecidableEq, Repr

/-- Such a file, to be checked. -/
def TextFile.input (f : TextFile) : Input := ⟨f.path, .ok f.text⟩

/-- What checking one file gives. -/
structure FileReport where
  diagnostics : List Diagnostic
  timings : List Timing
  deriving DecidableEq, Repr

/-- What a walk over a document has come to: all that was found so far, in the order in
which it was found, what each rule did, and the rules that have failed. -/
structure Walk where
  diagnostics : List Diagnostic
  /-- In ascending order of the rules. -/
  timings : List Timing := []
  failed : List String := []
  deriving DecidableEq, Repr

/-- What a run gives. -/
structure LintResult where
  diagnostics : List Diagnostic
  failures : List FileFailure
  summary : Summary
  /-- Nanoseconds. -/
  elapsed : Nat := 0
  timings : List Timing := []
  deriving DecidableEq, Repr

/-- How workers go about a batch: they check its files and hand back what each one gave. -/
abbrev Workers :=
  (Input → Except FileFailure FileReport) → List Input → List (Except FileFailure FileReport)

/-- What files are checked on: a number of processors, and workers, so many at once, if they can
be had. -/
structure Machine where
  processors : Nat
  workers? : Nat → Option Workers

/-- The workers for a batch; none where its files are checked one after the other. -/
def EngineSettings.workers? (s : EngineSettings) (machine : Machine) (batch : Nat) :
    Option Workers :=
  if !s.parallel || batch < 2 then none
  else machine.workers? (if s.jobs > 0 then s.jobs else machine.processors)

/-- Checks files by the rules of a catalog under a configuration. The last reader to
be registered stands first. -/
structure Checker where
  catalog : Catalog := StyleGuide.catalog
  config : Config := Config.default
  readers : List Reader := [.css, .html]

namespace Checker

/-- Registers a reader. -/
def register (c : Checker) (r : Reader) : Checker := { c with readers := r :: c.readers }

/-- The rules that run. -/
def enabledRules (c : Checker) : List Rule := c.catalog.rules.filter fun r => c.config.isEnabled r.id

/-- The severity of a rule's findings. -/
def severityOf (c : Checker) (r : Rule) : Severity := (c.config.severity? r.id).getD r.severity

/-- Asks a rule about a subject, if it looks at its kind and has not failed before. -/
def ask (c : Checker) (file : Path) (doc : Document) (subject : Subject) (w : Walk) (r : Rule) :
    Walk :=
  if r.appliesTo subject.target doc.language && !w.failed.contains r.id then
    match r.check doc subject with
    | .ok found =>
      { w with
        diagnostics := w.diagnostics ++ found.map (r.diagnostic (c.severityOf r) file)
        timings := Timing.absorb { ruleId := r.id, evaluations := 1, findings := found.length } w.timings }
    | .error reason =>
      { diagnostics := w.diagnostics ++ [r.failureOn file subject reason]
        timings := Timing.absorb { ruleId := r.id, evaluations := 1 } w.timings
        failed := r.id :: w.failed }
  else w

/-- Asks rules about a subject, one after the other. -/
def visit (c : Checker) (file : Path) (doc : Document) (rules : List Rule) (w : Walk)
    (subject : Subject) : Walk :=
  rules.foldl (c.ask file doc subject) w

/-- Asks the rules that run about a document: the source first, then subject by subject.
Faults of structure stand in front of all that is found. -/
def walk (c : Checker) (file : Path) (doc : Document) : Walk :=
  (.source :: doc.subjects).foldl (c.visit file doc c.enabledRules)
    { diagnostics := doc.issues.map (·.diagnostic file) }

/-- Adds to a finding the line on which it begins, out of a table of the document's
lines, and what its rule is for. -/
def decorate (c : Checker) (lines : Array (List Char)) (d : Diagnostic) : Diagnostic :=
  { d with
    sourceLine := ((Source.lineOf? lines d.line).map String.ofList).or d.sourceLine
    help := ((c.catalog.get? d.ruleId).bind Rule.description).or d.help }

/-- Checks a document. -/
def examine (c : Checker) (file : Path) (doc : Document) : FileReport :=
  let walk := c.walk file doc
  let suppressions := Suppressions.ofDocument doc
  let heard := walk.diagnostics.filter fun d => !suppressions.isSuppressed d.ruleId d.line
  { diagnostics := report (heard.map (c.decorate doc.source.lineTable))
    timings := walk.timings }

/-- Checks a file. -/
def checkInput (c : Checker) (input : Input) : Except FileFailure FileReport :=
  match Reader.for? c.readers input.path with
  | none => .error ⟨input.path, .unsupported⟩
  | some reader =>
    match input.text with
    | .error reason => .error ⟨input.path, .unreadable reason⟩
    | .ok text => .ok (c.examine input.path (reader.read text))

/-- Checks the text of a file. -/
def checkFile (c : Checker) (path : Path) (text : List Char) :
    Except FileFailure (List Diagnostic) :=
  (c.checkInput ⟨path, .ok text⟩).map FileReport.diagnostics

/-- The reports of the files that could be checked. -/
def reportsOf (outcomes : List (Except FileFailure FileReport)) : List FileReport :=
  outcomes.filterMap Except.toOption

/-- The files that could not be checked. -/
def failuresOf (outcomes : List (Except FileFailure FileReport)) : List FileFailure :=
  outcomes.filterMap fun
    | .error f => some f
    | .ok _ => none

/-- What a run gives, from what each file gave. -/
def gather (outcomes : List (Except FileFailure FileReport)) : LintResult :=
  let reports := reportsOf outcomes
  let failures := failuresOf outcomes
  let diagnostics := report (reports.flatMap FileReport.diagnostics)
  { diagnostics
    failures
    summary := .ofDiagnostics reports.length diagnostics failures.length
    timings := Timing.gather (reports.flatMap FileReport.timings) }

/-- Checks files, one after the other. -/
def checkFiles (c : Checker) (inputs : List Input) : LintResult :=
  gather (inputs.map c.checkInput)

/-- Checks files on a machine, shared among workers as the settings say. -/
def checkFilesOn (c : Checker) (machine : Machine) (inputs : List Input) : LintResult :=
  gather <|
    match c.config.engine.workers? machine inputs.length with
    | some workers => workers c.checkInput inputs
    | none => inputs.map c.checkInput

end Checker

namespace LintResult

/-- Whether there are errors among the findings. -/
def hasErrors (r : LintResult) : Bool := r.summary.errorCount > 0

/-- Whether there are warnings among the findings. -/
def hasWarnings (r : LintResult) : Bool := r.summary.warningCount > 0

end LintResult

end PageLint
