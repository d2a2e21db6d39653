/-
# PageLint.Proofs.Output.Compact — one line for each finding, and its exceptions

What is written is a line for each finding and each failure, one below the other
(`toList_result`). The file, the place, the severity and the id keep to one line, so what is
written of a finding breaks as often as its message does (`count_diagnostic`). So the findings and
failures of a run are the lines of what is written if and only if all messages lie on one line,
and a message that does not is one of those that quote the text (`linewise_checkFiles`).
-/
import PageLint.Output.Compact
import PageLint.Proofs.Lint.Messages

namespace PageLint

set_option autoImplicit false

open Text

namespace CompactOutput

/-- **What is written of each finding and each failure stands one below the other.** -/
theorem toList_result (out : CompactOutput) (r : LintResult) :
    (out.result r).toList =
      ((r.diagnostics.map out.diagnostic ++ r.failures.map failure).map String.toList).flatMap
        (· ++ ['\n']) := by
  simp [result, String.toList_join, List.flatMap_map]

theorem newline_notMem_place {d : Diagnostic} (file : '\n' ∉ d.file.text.toList) :
    '\n' ∉ (place d).toList := by
  have line := newline_notMem_toDigits d.line
  have column := newline_notMem_toDigits d.column
  simp [place, file, line, column]

/-- **What is written of a finding breaks as often as its message.** -/
theorem count_diagnostic (out : CompactOutput) {d : Diagnostic} (file : '\n' ∉ d.file.text.toList)
    (ruleId : '\n' ∉ d.ruleId.toList) :
    (out.diagnostic d).toList.count '\n' = d.message.toList.count '\n' := by
  have place := List.count_eq_zero.mpr (newline_notMem_place file)
  have ruleId := List.count_eq_zero.mpr ruleId
  have word : d.severity.word.toList.count '\n' = 0 := by
    cases d.severity <;> rfl
  obtain ⟨severity, rule⟩ := out
  cases severity <;> cases rule <;> simp [diagnostic, place, word, ruleId]

theorem newline_notMem_failure {f : FileFailure} (path : '\n' ∉ f.path.text.toList)
    (cause : f.cause = .unsupported) : '\n' ∉ (failure f).toList := by
  simp [failure, FileFailure.message, cause, path]

/-- What is written of a run, line by line. -/
structure Linewise (out : CompactOutput) (r : LintResult) : Prop where
  /-- Of each finding, then of each failure, and the end of a line behind each. -/
  written : (out.result r).toList =
    ((r.diagnostics.map out.diagnostic ++ r.failures.map failure).map String.toList).flatMap
      (· ++ ['\n'])
  /-- Only messages add to the lines that end. -/
  count : (out.result r).toList.count '\n' = r.diagnostics.length + r.failures.length +
    (r.diagnostics.map fun d => d.message.toList.count '\n').sum
  /-- Line by line, it is that of each finding and failure if and only if no message breaks. -/
  readBack : splitBy (· == '\n') (out.result r).toList =
      (r.diagnostics.map out.diagnostic ++ r.failures.map failure).map String.toList ++ [[]] ↔
    ∀ d ∈ r.diagnostics, '\n' ∉ d.message.toList
  /-- A message that breaks quotes a piece of the text, by one of five rules or as a fault. -/
  quotes : ∀ d ∈ r.diagnostics, '\n' ∈ d.message.toList →
    d.ruleId ∈ StyleGuide.quotingRules ∨ d.ruleId = parseErrorId ∧ QuotesText d.message

/-- A run whose findings break where their messages do, and whose failures do not, is written line
by line. -/
theorem linewise_of_breaks {out : CompactOutput} {r : LintResult}
    (findings : ∀ d ∈ r.diagnostics,
      (out.diagnostic d).toList.count '\n' = d.message.toList.count '\n')
    (failures : ∀ f ∈ r.failures, '\n' ∉ (failure f).toList)
    (quotes : ∀ d ∈ r.diagnostics, '\n' ∈ d.message.toList →
      d.ruleId ∈ StyleGuide.quotingRules ∨ d.ruleId = parseErrorId ∧ QuotesText d.message) :
    out.Linewise r where
  written := toList_result out r
  count := by
    have more : (r.diagnostics.map fun d => (out.diagnostic d).toList.count '\n') =
        r.diagnostics.map fun d => d.message.toList.count '\n' := List.map_congr_left findings
    have none_ : (r.failures.map fun f => (failure f).toList.count '\n').sum = 0 := by
      refine List.sum_eq_zero fun n member => ?_
      obtain ⟨f, failed, rfl⟩ := List.mem_map.mp member
      exact List.count_eq_zero.mpr (failures f failed)
    rw [toList_result, count_lines]
    simp only [List.map_append, List.map_map, Function.comp_def, List.sum_append, more, none_,
      List.length_append, List.length_map, Nat.add_zero]
  readBack := by
    rw [toList_result, splitBy_lines_iff, List.forall_mem_map, List.forall_mem_append,
      List.forall_mem_map, List.forall_mem_map, and_iff_left failures]
    refine forall₂_congr fun d member => ?_
    rw [← List.count_eq_zero, ← List.count_eq_zero, findings d member]
  quotes := quotes

/-- **What is written of a run is written line by line**, if the names of the files are texts of one
line, whatever is shown, whatever the configuration, and however the files are shared among
workers. -/
theorem linewise_checkFiles (config : Config) (machine : Machine) (keeps : machine.KeepsOrder)
    (out : CompactOutput) (files : List TextFile) (paths : ∀ f ∈ files, '\n' ∉ f.path.text.toList) :
    out.Linewise (({ config } : Checker).checkFilesOn machine (files.map TextFile.input)) := by
  rw [Checker.checkFilesOn_eq keeps]
  have plain := Checker.plain_checkFiles config files
  apply linewise_of_breaks
  · intro d found
    obtain ⟨f, isFile, own⟩ := plain d found
    exact count_diagnostic out (own.file ▸ paths f isFile) own.ruleId
  · intro f failed
    change f ∈ Checker.failuresOf ((files.map TextFile.input).map _) at failed
    rw [Checker.failuresOf_files] at failed
    obtain ⟨file, unread, rfl⟩ := List.mem_map.mp failed
    exact newline_notMem_failure (paths file (List.mem_of_mem_filter unread)) rfl
  · intro d found broken
    obtain ⟨f, -, own⟩ := plain d found
    exact own.quotes broken

/-- The run over a stylesheet, notes that nobody reads, and a page, by two workers. -/
theorem linewise_checkFiles_threeFiles :
    Checker.dual.KeepsOrder ∧ (∀ f ∈ Checker.threeFiles, '\n' ∉ f.path.text.toList) ∧
      ({ rule := false } : CompactOutput).Linewise (({ config := .only [] } : Checker).checkFilesOn
        Checker.dual (Checker.threeFiles.map TextFile.input)) :=
  have paths : ∀ f ∈ Checker.threeFiles, '\n' ∉ f.path.text.toList := by decide
  ⟨Checker.keepsOrder_dual, paths,
    linewise_checkFiles _ Checker.dual Checker.keepsOrder_dual _ Checker.threeFiles paths⟩

/-- A page with a bogus comment that goes over two lines. -/
def bogusPage : TextFile := ⟨⟨"a.html"⟩, "<!a\nb>".toList⟩

/-- All of it is a fault. -/
def bogusMarkup : ParseIssue := ⟨"unexpected markup '<!a\nb>'", ⟨⟨0, 1, 1⟩, ⟨6, 2, 3⟩⟩⟩

/-- The run over it, no rules running. -/
def bogusRun : LintResult := ({ config := .only [] } : Checker).checkFiles [bogusPage.input]

theorem diagnostics_bogusRun : bogusRun.diagnostics =
    [({ config := .only [] } : Checker).decorate (Source.lineTable ⟨bogusPage.text⟩)
      (bogusMarkup.diagnostic bogusPage.path)] := by
  have heard : ({ config := .only [] } : Checker).heard bogusPage.path
      (Reader.html.read bogusPage.text) = [bogusMarkup.diagnostic bogusPage.path] := by
    decide +kernel
  have known : Reader.for? [.css, .html] bogusPage.path = some .html := by decide
  rw [bogusRun, Checker.diagnostics_checkFiles_one, Checker.foundIn_of_reader known,
    Checker.diagnostics_examine, heard, report, List.mergeSort_singleton]
  rfl

/-- The run finds one thing and writes two lines, whatever is shown. -/
theorem result_bogusRun : bogusRun.diagnostics.length + bogusRun.failures.length = 1 ∧
    ∀ out : CompactOutput, (out.result bogusRun).toList.count '\n' = 2 := by
  have failures : bogusRun.failures = [] := rfl
  constructor
  · rw [diagnostics_bogusRun, failures]
    rfl
  · rintro ⟨severity, rule⟩
    rw [result, diagnostics_bogusRun, failures]
    cases severity <;> cases rule <;> decide

end CompactOutput

end PageLint
