/-
# PageLint.Proofs.Lint.Batch — many files are checked as each of them is

A run sorts what each file gave once more, all of it together. Findings of different files are never
repetitions of each other, and findings of one file come out of its check in order; so what the run
reports is what the files gave, one after the other in the order of their paths
(`report_flatMap_files`), in whatever order they were handed over. The accounts of the rules are
added up (`tally_gather`). Workers that hand back what each file gave, in the order of the files,
change nothing (`checkFilesOn_eq`).

Together: a run is the checks of its files, merged (`checkFiles_merges`).
-/
import PageLint.Proofs.Lint.Isolation
import PageLint.Proofs.Lint.Sorted

namespace PageLint

set_option autoImplicit false

/-! ## Findings of different files -/

namespace Path

theorem same_iff {p q : Path} : p.same q ↔ p.components = q.components := by
  rw [same, beq_iff_eq]

theorem compare_swap (p q : Path) : q.compare p = (p.compare q).swap := Std.OrientedCmp.eq_swap

/-- Things in the order of their paths. -/
def sorted {β : Type} (file : β → Path) (parts : List β) : List β :=
  parts.mergeSort fun s t => ((file s).compare (file t)).isLE

variable {β : Type} {file : β → Path} {parts : List β}

theorem mem_sorted {s : β} : s ∈ sorted file parts ↔ s ∈ parts := List.mem_mergeSort

theorem sorted_perm (file : β → Path) (parts : List β) : (sorted file parts).Perm parts :=
  List.mergeSort_perm parts _

/-- What different files sort to ascends strictly. -/
theorem sorted_ascends (distinct : parts.Pairwise fun s t => ¬ (file s).same (file t)) :
    (sorted file parts).Pairwise fun s t => (file s).compare (file t) = .lt := by
  have ordered : (sorted file parts).Pairwise fun s t => ((file s).compare (file t)).isLE := by
    apply List.pairwise_mergeSort
    · intro s t u first second
      exact Std.TransCmp.isLE_trans first second
    · intro s t
      rw [compare_swap (file s) (file t)]
      cases (file s).compare (file t) <;> rfl
  have apart : (sorted file parts).Pairwise fun s t => ¬ (file s).same (file t) :=
    ((sorted_perm file parts).pairwise_iff
      fun different same => different (same_comm.trans same)).mpr distinct
  refine ordered.imp₂ ?_ apart
  intro s t isLE different
  cases order : (file s).compare (file t) with
  | lt => rfl
  | eq => exact absurd (compare_eq_eq_iff.mp order) different
  | gt => rw [order] at isLE; cases isLE

/-- Different files sort to one list, in whatever order they are given. -/
theorem sorted_eq_of_perm {other : List β}
    (distinct : parts.Pairwise fun s t => ¬ (file s).same (file t))
    (reordered : other.Perm parts) : sorted file other = sorted file parts := by
  have distinctToo : other.Pairwise fun s t => ¬ (file s).same (file t) :=
    (reordered.pairwise_iff fun different same => different (same_comm.trans same)).mpr distinct
  refine List.Perm.eq_of_pairwise ?_ (sorted_ascends distinctToo) (sorted_ascends distinct)
    ((sorted_perm file other).trans (reordered.trans (sorted_perm file parts).symm))
  intro s t _ _ forth back
  rw [compare_swap (file s) (file t), forth] at back
  cases back

end Path

open Diagnostic in
/-- Between a finding and a repetition of it lie findings of its file alone. -/
theorem unbroken_file (p : Path) (ds : List Diagnostic) : Unbroken (·.file.same p) ds := by
  intro a _ b _ c _ first second again
  have alike : a.compareRule b = .eq :=
    eq_of_isLE_of_eq (isLE_compareRule first) (isLE_compareRule second)
      (compareRule_of_repeats again)
  simp only [compareRule, compareLex, compareOn, Ordering.then_eq_eq, Path.compare_eq_eq_iff,
    Path.same_iff] at alike
  show b.file.same p = a.file.same p
  rw [Path.same, Path.same, alike.1]

/-- Of what different files give, what lies in one of them is what that one gives. -/
theorem filter_flatMap_file {β : Type} (file : β → Path) {give : β → List Diagnostic}
    {parts : List β} (own : ∀ s ∈ parts, ∀ d ∈ give s, d.file.same (file s))
    (distinct : parts.Pairwise fun s t => ¬ (file s).same (file t)) {s : β} (isPart : s ∈ parts) :
    (parts.flatMap give).filter (·.file.same (file s)) = give s := by
  have other : ∀ {t u : β} {d : Diagnostic}, ¬ (file t).same (file u) → d.file.same (file t) →
      d.file.same (file u) = false := by
    intro t u d different inFile
    rw [Bool.eq_false_iff]
    intro inOther
    rw [Path.same_iff] at *
    exact different (inFile.symm.trans inOther)
  refine filter_flatMap_own (p := fun s (d : Diagnostic) => d.file.same (file s)) own ?_ isPart
  refine distinct.imp_of_mem ?_
  intro t u one two different
  have differentToo : ¬ (file u).same (file t) := fun same => different (Path.same_comm.trans same)
  exact ⟨fun d member => other different (own t one d member),
    fun d member => other differentToo (own u two d member)⟩

/-- **The report of findings in different files is the reports of the files**, one after the other
in the order of their paths. -/
theorem report_flatMap_files {β : Type} (file : β → Path) {give : β → List Diagnostic}
    {parts : List β} (own : ∀ s ∈ parts, ∀ d ∈ give s, d.file.same (file s))
    (distinct : parts.Pairwise fun s t => ¬ (file s).same (file t)) :
    report (parts.flatMap give) = (Path.sorted file parts).flatMap fun s => report (give s) := by
  have ownReported : ∀ s ∈ Path.sorted file parts, ∀ d ∈ report (give s), d.file.same (file s) :=
    fun s isPart d reported => own s (Path.mem_sorted.mp isPart) d (mem_of_mem_report reported)
  have ascends := Path.sorted_ascends distinct
  have same : ∀ s ∈ parts, (report (parts.flatMap give)).filter (·.file.same (file s)) =
      ((Path.sorted file parts).flatMap fun t => report (give t)).filter (·.file.same (file s)) := by
    intro s isPart
    rw [report_filter (unbroken_file _ _), filter_flatMap_file file own distinct isPart,
      filter_flatMap_file file ownReported ?_ (Path.mem_sorted.mpr isPart)]
    refine ascends.imp fun less same => ?_
    rw [Path.compare_eq_eq_iff.mpr same] at less
    cases less
  refine eq_of_filter_parts (p := fun s (d : Diagnostic) => d.file.same (file s))
    (pairwise_report _) ?_ same ?_ ?_
  · refine List.pairwise_flatMap.mpr ⟨fun s _ => pairwise_report _, ?_⟩
    refine ascends.imp_of_mem ?_
    intro s t isPart isPart' less a inFirst b inSecond
    have first := ownReported s isPart a inFirst
    have second := ownReported t isPart' b inSecond
    rw [Path.same_iff] at first second
    refine Diagnostic.isLE_compare_iff.mpr (.inl ?_)
    rwa [Path.compare, first, second]
  · intro d member
    rcases List.mem_append.mp member with reported | inFile
    · obtain ⟨s, isPart, given⟩ := List.mem_flatMap.mp (mem_of_mem_report reported)
      exact ⟨s, isPart, own s isPart d given⟩
    · obtain ⟨s, isPart, given⟩ := List.mem_flatMap.mp inFile
      exact ⟨s, Path.mem_sorted.mp isPart, ownReported s isPart d given⟩
  · intro s _ a b forth back
    have alike : a.compare b = .eq := Std.OrientedCmp.isLE_antisymm forth back
    simp only [Diagnostic.compare, Ordering.then_eq_eq, Path.compare_eq_eq_iff,
      Path.same_iff] at alike
    show a.file.same (file s) = b.file.same (file s)
    rw [Path.same, Path.same, alike.1]

/-! ## Accounts, added up -/

namespace Timing

/-- What is counted for a rule in some accounts. -/
def tally (count : Timing → Nat) (id : String) (ts : List Timing) : Nat :=
  ((ts.filter (·.ruleId == id)).map count).sum

/-- Counts that add up when accounts do. -/
def Additive (count : Timing → Nat) : Prop := ∀ t u : Timing, count (t.add u) = count t + count u

variable {count : Timing → Nat} {id : String}

theorem tally_append (ts us : List Timing) :
    tally count id (ts ++ us) = tally count id ts + tally count id us := by
  simp [tally]

theorem tally_flatMap {β : Type} (parts : List β) (give : β → List Timing) :
    tally count id (parts.flatMap give) = (parts.map fun s => tally count id (give s)).sum := by
  induction parts with
  | nil => rfl
  | cons s rest ih => rw [List.flatMap_cons, tally_append, ih, List.map_cons, List.sum_cons]

theorem tally_absorb (additive : Additive count) (u : Timing) (ts : List Timing) :
    tally count id (absorb u ts) = tally count id ts + tally count id [u] := by
  induction ts with
  | nil => simp [absorb, tally]
  | cons t ts ih =>
      have front : ∀ v vs, tally count id (v :: vs) = tally count id [v] + tally count id vs :=
        fun v vs => tally_append [v] vs
      rw [absorb]
      split
      · rw [front u (t :: ts), Nat.add_comm]
      · split
        next same =>
          have both : tally count id [t.add u] = tally count id [t] + tally count id [u] := by
            have ids : (t.add u).ruleId = t.ruleId := rfl
            simp only [tally, List.filter_cons, List.filter_nil, ids, same]
            split
            · simp [additive t u]
            · rfl
          rw [front (t.add u) ts, front t ts, both]
          omega
        · rw [front t (absorb u ts), front t ts, ih]
          omega

/-- **To gather accounts is to add them up.** -/
theorem tally_gather (additive : Additive count) (ts : List Timing) :
    tally count id (gather ts) = tally count id ts := by
  have folded : ∀ all, tally count id (ts.foldl (fun all t => absorb t all) all) =
      tally count id all + tally count id ts := by
    induction ts with
    | nil => intro all; rfl
    | cons t ts ih =>
        intro all
        rw [List.foldl_cons, ih, tally_absorb additive, Nat.add_assoc, ← tally_append]
        rfl
  rw [gather, folded]
  exact Nat.zero_add _

theorem ascending_gather (ts : List Timing) : Ascending (gather ts) := by
  have folded : ∀ all, Ascending all → Ascending (ts.foldl (fun all t => absorb t all) all) := by
    induction ts with
    | nil => exact fun _ ascending => ascending
    | cons t ts ih => exact fun all ascending => ih _ (ascending.absorb t)
  exact folded [] .nil

/-- Of accounts in order a rule has one at most. -/
theorem Ascending.tally_eq {ts : List Timing} (ascending : Ascending ts) :
    tally count id ts = ((ts.find? (·.ruleId == id)).map count).getD 0 := by
  induction ts with
  | nil => rfl
  | cons t ts ih =>
      obtain ⟨first, rest⟩ := List.pairwise_cons.mp ascending
      rw [List.find?_cons]
      cases here : t.ruleId == id with
      | false =>
          have skipped : tally count id (t :: ts) = tally count id ts := by simp [tally, here]
          rw [skipped, ih rest]
      | true =>
          have none_ : ts.filter (·.ruleId == id) = [] := by
            apply List.filter_eq_nil_iff.mpr
            intro u later same
            have less := first u later
            rw [beq_iff_eq.mp here, beq_iff_eq.mp same] at less
            exact absurd less (lt_irrefl id)
          simp [tally, here, none_]

end Timing

namespace LintResult

/-- What a run has counted for a rule; nothing if the rule has no account. -/
def counted (r : LintResult) (count : Timing → Nat) (id : String) : Nat :=
  ((r.timings.find? (·.ruleId == id)).map count).getD 0

end LintResult

/-! ## Checks of files -/

namespace Rule

variable {r : Rule} {severity : Severity} {file : Path} {doc : Document}

/-- What a run of a rule finds is in the file. -/
theorem file_runOver (subjects : List Subject) :
    ∀ d ∈ (r.runOver severity file doc subjects).diagnostics, d.file = file := by
  intro d member
  rw [runOver_eq] at member
  rcases List.mem_append.mp member with found | failure
  · obtain ⟨subject, -, found⟩ := List.mem_flatMap.mp found
    obtain ⟨-, -, f, -, rfl⟩ := mem_found found
    rfl
  · obtain ⟨⟨subject, reason⟩, -, rfl⟩ := List.mem_map.mp failure
    rfl

end Rule

namespace Checker

variable {c : Checker} {path : Path} {doc : Document}

/-- What the check of a document reports is in its file. -/
theorem file_examine : ∀ d ∈ (c.examine path doc).diagnostics, d.file = path := by
  intro d member
  rw [diagnostics_examine] at member
  obtain ⟨e, reported, rfl⟩ := List.mem_map.mp member
  show e.file = path
  rcases List.mem_append.mp (List.mem_of_mem_filter (mem_of_mem_report reported)) with issue | run
  · obtain ⟨i, -, rfl⟩ := List.mem_map.mp issue
    rfl
  · obtain ⟨r, -, found⟩ := List.mem_flatMap.mp run
    exact Rule.file_runOver _ e found

/-- What the check of a document reports is a report. -/
theorem report_examine :
    report (c.examine path doc).diagnostics = (c.examine path doc).diagnostics :=
  report_report _

/-- Whether a file has a reader. -/
def reads (c : Checker) (f : TextFile) : Bool := (Reader.for? c.readers f.path).isSome

/-- What the check of a file gives, if it has a reader. -/
def reportOf? (c : Checker) (f : TextFile) : Option FileReport :=
  (Reader.for? c.readers f.path).map fun reader => c.examine f.path (reader.read f.text)

/-- What is found in a file. -/
def foundIn (c : Checker) (f : TextFile) : List Diagnostic :=
  (c.reportOf? f).toList.flatMap FileReport.diagnostics

/-- The accounts of a file. -/
def accountsOf (c : Checker) (f : TextFile) : List Timing :=
  (c.reportOf? f).toList.flatMap FileReport.timings

theorem checkInput_input (f : TextFile) : c.checkInput f.input =
    match c.reportOf? f with
    | some report => .ok report
    | none => .error ⟨f.path, .unsupported⟩ := by
  rw [checkInput, reportOf?, TextFile.input]
  cases Reader.for? c.readers f.path <;> rfl

/-- What is found in a file that has a reader is what the check of the file gives. -/
theorem checkFile_foundIn {f : TextFile} (reads : c.reads f) :
    c.checkFile f.path f.text = .ok (c.foundIn f) := by
  have checked : c.checkFile f.path f.text = (c.checkInput f.input).map FileReport.diagnostics :=
    rfl
  rw [checked, checkInput_input, foundIn, reportOf?]
  obtain ⟨reader, known⟩ := Option.isSome_iff_exists.mp reads
  rw [known]
  simp [Except.map]

theorem foundIn_of_reader {f : TextFile} {reader : Reader}
    (known : Reader.for? c.readers f.path = some reader) :
    c.foundIn f = (c.examine f.path (reader.read f.text)).diagnostics := by
  rw [foundIn, reportOf?, known]
  exact List.append_nil _

theorem foundIn_of_none {f : TextFile} (none_ : Reader.for? c.readers f.path = none) :
    c.foundIn f = [] := by
  rw [foundIn, reportOf?, none_]
  rfl

theorem file_foundIn {f : TextFile} : ∀ d ∈ c.foundIn f, d.file.same f.path := by
  intro d member
  cases known : Reader.for? c.readers f.path with
  | none =>
      rw [foundIn_of_none known] at member
      cases member
  | some reader =>
      rw [foundIn_of_reader known] at member
      rw [file_examine d member]
      exact Path.same_iff.mpr rfl

theorem report_foundIn (f : TextFile) : report (c.foundIn f) = c.foundIn f := by
  cases known : Reader.for? c.readers f.path with
  | none =>
      rw [foundIn_of_none known]
      simp [report, dropRepeats]
  | some reader => rw [foundIn_of_reader known, report_examine]

variable {files : List TextFile}

theorem reportsOf_files :
    reportsOf ((files.map TextFile.input).map c.checkInput) = files.filterMap c.reportOf? := by
  rw [reportsOf, List.map_map, List.filterMap_map]
  apply List.filterMap_congr
  intro f _
  show (c.checkInput f.input).toOption = c.reportOf? f
  rw [checkInput_input]
  cases c.reportOf? f <;> rfl

theorem failuresOf_files :
    failuresOf ((files.map TextFile.input).map c.checkInput) =
      (files.filter fun f => !c.reads f).map fun f => ⟨f.path, .unsupported⟩ := by
  rw [failuresOf, List.map_map, List.filterMap_map, ← List.filterMap_eq_map, List.filterMap_filter]
  apply List.filterMap_congr
  intro f _
  rw [Function.comp_apply, Function.comp_apply, checkInput_input, reportOf?, reads]
  cases Reader.for? c.readers f.path <;> rfl

theorem flatMap_reports {β : Type} (part : FileReport → List β) :
    (files.filterMap c.reportOf?).flatMap part =
      files.flatMap fun f => (c.reportOf? f).toList.flatMap part := by
  rw [List.filterMap_eq_flatMap_toList, List.flatMap_assoc]

theorem length_reports : (files.filterMap c.reportOf?).length = (files.filter c.reads).length := by
  rw [List.length_filterMap_eq_countP, List.countP_eq_length_filter]
  congr 1
  apply List.filter_congr
  intro f _
  simp [reportOf?, reads]

/-- Of files only those that have a reader are found something in. -/
theorem flatMap_foundIn : files.flatMap c.foundIn = (files.filter c.reads).flatMap c.foundIn := by
  induction files with
  | nil => rfl
  | cons f rest ih =>
      rw [List.flatMap_cons, ih, List.filter_cons]
      split
      · rfl
      next unread =>
        have none_ : Reader.for? c.readers f.path = none := by simpa [reads] using unread
        rw [foundIn_of_none none_, List.nil_append]

/-- What a run finds is the report of what it finds in its files. -/
theorem diagnostics_checkFiles (files : List TextFile) :
    (c.checkFiles (files.map TextFile.input)).diagnostics = report (files.flatMap c.foundIn) := by
  show report ((reportsOf _).flatMap _) = _
  rw [reportsOf_files, flatMap_reports]
  rfl

/-- A run over one file finds what the check of the file gives. -/
theorem diagnostics_checkFiles_one (f : TextFile) :
    (c.checkFiles [f.input]).diagnostics = c.foundIn f := by
  have run := diagnostics_checkFiles (c := c) [f]
  rwa [List.flatMap_singleton, report_foundIn] at run

/-- **What a run gives**, file by file. -/
theorem checkFiles_files (distinct : files.Pairwise fun f g => ¬ f.path.same g.path) :
    c.checkFiles (files.map TextFile.input) =
      { diagnostics := (Path.sorted TextFile.path (files.filter c.reads)).flatMap c.foundIn
        failures := (files.filter fun f => !c.reads f).map fun f => ⟨f.path, .unsupported⟩
        summary := .ofDiagnostics (files.filter c.reads).length
          ((Path.sorted TextFile.path (files.filter c.reads)).flatMap c.foundIn)
          (files.filter fun f => !c.reads f).length
        timings := Timing.gather (files.flatMap c.accountsOf) } := by
  have found : report ((files.filterMap c.reportOf?).flatMap FileReport.diagnostics) =
      (Path.sorted TextFile.path (files.filter c.reads)).flatMap c.foundIn := by
    rw [flatMap_reports]
    show report (files.flatMap c.foundIn) = _
    rw [flatMap_foundIn, report_flatMap_files TextFile.path (fun f _ => file_foundIn)
      (distinct.sublist List.filter_sublist)]
    simp only [report_foundIn]
  rw [checkFiles, gather, reportsOf_files, failuresOf_files, found, length_reports, flatMap_reports,
    List.length_map]
  rfl

end Checker

/-! ## Runs on a machine -/

/-- Workers of a machine hand back what each file gave, in the order of the files. -/
def Machine.KeepsOrder (machine : Machine) : Prop :=
  ∀ jobs workers, machine.workers? jobs = some workers →
    ∀ check inputs, workers check inputs = inputs.map check

/-- A run comes to the checks of its files, merged. -/
structure LintResult.Merges (r : LintResult) (c : Checker) (files : List TextFile) : Prop where
  /-- What was found in the files that have a reader, in the order of the paths. -/
  diagnostics : ∃ ordered found, ordered.Perm (files.filter c.reads) ∧
    (ordered.Pairwise fun f g => f.path.compare g.path = .lt) ∧
    List.Forall₂ (fun f ds => c.checkFile f.path f.text = .ok ds) ordered found ∧
    r.diagnostics = found.flatten
  /-- One for each other file, as they come. -/
  failures : r.failures = (files.filter fun f => !c.reads f).map fun f => ⟨f.path, .unsupported⟩
  files_length : r.summary.filesProcessed + r.summary.failureCount = files.length
  diagnostics_length : r.summary.errorCount + r.summary.warningCount = r.diagnostics.length
  evaluations : ∀ id, r.counted Timing.evaluations id =
    (files.map fun f => (c.checkFiles [f.input]).counted Timing.evaluations id).sum
  findings : ∀ id, r.counted Timing.findings id =
    (files.map fun f => (c.checkFiles [f.input]).counted Timing.findings id).sum
  clean_iff : r.summary.exitCode = 0 ↔ r.diagnostics = [] ∧ r.failures = []
  broken_iff : r.summary.exitCode = 2 ↔
    (∃ d ∈ r.diagnostics, d.severity = .error) ∨ r.failures ≠ []

namespace Summary

variable (processed failed : Nat) (ds : List Diagnostic)

theorem ofDiagnostics_length : (ofDiagnostics processed ds failed).errorCount +
    (ofDiagnostics processed ds failed).warningCount = ds.length := by
  show (ds.filter (·.isError)).length + (ds.filter fun d => !d.isError).length = ds.length
  rw [← List.countP_eq_length_filter, ← List.countP_eq_length_filter,
    List.length_eq_countP_add_countP (·.isError)]
  simp

theorem errorCount_pos_iff :
    0 < (ofDiagnostics processed ds failed).errorCount ↔ ∃ d ∈ ds, d.severity = .error := by
  show 0 < (ds.filter (·.isError)).length ↔ _
  rw [List.length_filter_pos_iff]
  simp [Diagnostic.isError]

theorem exitCode_eq_zero_iff :
    (ofDiagnostics processed ds failed).exitCode = 0 ↔ ds = [] ∧ failed = 0 := by
  have counts := ofDiagnostics_length processed failed ds
  have failures : (ofDiagnostics processed ds failed).failureCount = failed := rfl
  rw [← List.length_eq_zero_iff, ← counts]
  unfold exitCode
  grind

theorem exitCode_eq_two_iff : (ofDiagnostics processed ds failed).exitCode = 2 ↔
    (∃ d ∈ ds, d.severity = .error) ∨ 0 < failed := by
  have failures : (ofDiagnostics processed ds failed).failureCount = failed := rfl
  rw [← errorCount_pos_iff processed failed]
  unfold exitCode
  grind

end Summary

namespace Checker

variable {c : Checker} {machine : Machine}

/-- **Workers that keep the order of the files change nothing.** -/
theorem checkFilesOn_eq (keeps : machine.KeepsOrder) (inputs : List Input) :
    c.checkFilesOn machine inputs = c.checkFiles inputs := by
  rw [checkFilesOn, checkFiles]
  cases had : c.config.engine.workers? machine inputs.length with
  | none => rfl
  | some workers =>
      have given : ∃ jobs, machine.workers? jobs = some workers := by
        unfold EngineSettings.workers? at had
        split at had
        · cases had
        · exact ⟨_, had⟩
      obtain ⟨jobs, given⟩ := given
      exact congrArg gather (keeps jobs workers given c.checkInput inputs)

/-- How files are shared among workers is nothing to the check of a file. -/
theorem checkFiles_withEngine (engine : EngineSettings) (inputs : List Input) :
    ({ c with config := c.config.withEngine engine } : Checker).checkFiles inputs =
      c.checkFiles inputs := rfl

/-- What is counted for a rule in a run is what its accounts add up to. -/
theorem counted_checkFiles {count : Timing → Nat} (additive : Timing.Additive count) (id : String)
    (files : List TextFile) :
    (c.checkFiles (files.map TextFile.input)).counted count id =
      (files.map fun f => Timing.tally count id (c.accountsOf f)).sum := by
  have timings : (c.checkFiles (files.map TextFile.input)).timings =
      Timing.gather (files.flatMap c.accountsOf) := by
    show Timing.gather ((reportsOf _).flatMap FileReport.timings) = _
    rw [reportsOf_files, flatMap_reports]
    rfl
  rw [LintResult.counted, timings, ← (Timing.ascending_gather _).tally_eq,
    Timing.tally_gather additive, Timing.tally_flatMap]

theorem counted_files {count : Timing → Nat} (additive : Timing.Additive count)
    (files : List TextFile) (id : String) :
    (c.checkFiles (files.map TextFile.input)).counted count id =
      (files.map fun f => (c.checkFiles [f.input]).counted count id).sum := by
  have single : ∀ f : TextFile, (c.checkFiles [f.input]).counted count id =
      Timing.tally count id (c.accountsOf f) := fun f =>
    (counted_checkFiles additive id [f]).trans (Nat.add_zero _)
  rw [counted_checkFiles additive]
  exact congrArg List.sum (List.map_congr_left fun f _ => (single f).symm)

theorem merges_checkFiles {files : List TextFile}
    (distinct : files.Pairwise fun f g => ¬ f.path.same g.path) :
    (c.checkFiles (files.map TextFile.input)).Merges c files where
  diagnostics := by
    let ordered := Path.sorted TextFile.path (files.filter c.reads)
    refine ⟨ordered, ordered.map c.foundIn, Path.sorted_perm _ _,
      Path.sorted_ascends (distinct.sublist List.filter_sublist), ?_, ?_⟩
    · rw [List.forall₂_map_right_iff, List.forall₂_same]
      intro f member
      exact checkFile_foundIn (List.mem_filter.mp (Path.mem_sorted.mp member)).2
    · rw [checkFiles_files distinct, List.flatMap_def]
  failures := by rw [checkFiles_files distinct]
  files_length := by
    rw [checkFiles_files distinct]
    show (files.filter c.reads).length + (files.filter fun f => !c.reads f).length = files.length
    rw [← List.countP_eq_length_filter, ← List.countP_eq_length_filter,
      List.length_eq_countP_add_countP c.reads]
    simp
  diagnostics_length := Summary.ofDiagnostics_length _ _ _
  evaluations := counted_files (fun _ _ => rfl) files
  findings := counted_files (fun _ _ => rfl) files
  clean_iff := (Summary.exitCode_eq_zero_iff _ _ _).trans
    (and_congr_right fun _ => List.length_eq_zero_iff)
  broken_iff := (Summary.exitCode_eq_two_iff _ _ _).trans (or_congr_right List.length_pos_iff)

/-- **A run is the checks of its files, merged**: what each file gives alone, in the order of the
paths, a failure for each file that has no reader, and the sums of what was counted. It is the same
for all ways to share files among workers, and in whatever order the files come, their failures
come in that order and nothing else changes. -/
theorem checkFiles_merges (c : Checker) (machine : Machine) (keeps : machine.KeepsOrder)
    (files : List TextFile) (distinct : files.Pairwise fun f g => ¬ f.path.same g.path) :
    (c.checkFilesOn machine (files.map TextFile.input)).Merges c files ∧
      (∀ engine, ({ c with config := c.config.withEngine engine } : Checker).checkFilesOn machine
        (files.map TextFile.input) = c.checkFilesOn machine (files.map TextFile.input)) ∧
      ∀ other : List TextFile, other.Perm files →
        (c.checkFilesOn machine (other.map TextFile.input)).diagnostics =
          (c.checkFilesOn machine (files.map TextFile.input)).diagnostics ∧
        (c.checkFilesOn machine (other.map TextFile.input)).summary =
          (c.checkFilesOn machine (files.map TextFile.input)).summary := by
  simp only [checkFilesOn_eq keeps]
  refine ⟨merges_checkFiles distinct, fun engine => checkFiles_withEngine engine _, ?_⟩
  intro other reordered
  have distinctToo : other.Pairwise fun f g => ¬ f.path.same g.path :=
    (reordered.pairwise_iff
      fun different same => different (Path.same_comm.trans same)).mpr distinct
  have inOrder : Path.sorted TextFile.path (other.filter c.reads) =
      Path.sorted TextFile.path (files.filter c.reads) :=
    Path.sorted_eq_of_perm (distinct.sublist List.filter_sublist) (reordered.filter _)
  rw [checkFiles_files distinct, checkFiles_files distinctToo, inOrder,
    (reordered.filter c.reads).length_eq, (reordered.filter fun f => !c.reads f).length_eq]
  exact ⟨rfl, rfl⟩

/-- Two workers: one checks the second half of the files, the other the first. -/
def halves : Workers := fun check inputs =>
  let second := (inputs.drop (inputs.length / 2)).map check
  let first := (inputs.take (inputs.length / 2)).map check
  first ++ second

/-- A machine with two processors. -/
def dual : Machine where
  processors := 2
  workers? jobs := if jobs = 2 then some halves else none

theorem keepsOrder_dual : dual.KeepsOrder := by
  intro jobs workers had check inputs
  change (if jobs = 2 then some halves else none) = some workers at had
  split at had
  · cases had
    rw [halves, ← List.map_append, List.take_append_drop]
  · cases had

/-- A stylesheet, notes that nobody reads, and a page. -/
def threeFiles : List TextFile :=
  [⟨⟨"b.css"⟩, "a{b:c}".toList⟩, ⟨⟨"notes.txt"⟩, []⟩, ⟨⟨"a.html"⟩, "<b>".toList⟩]

theorem checkFiles_merges_threeFiles :
    dual.KeepsOrder ∧ (threeFiles.Pairwise fun f g => ¬ f.path.same g.path) ∧
      (({} : Checker).checkFilesOn dual (threeFiles.map TextFile.input)).Merges {} threeFiles :=
  have distinct : threeFiles.Pairwise fun f g => ¬ f.path.same g.path := by decide
  ⟨keepsOrder_dual, distinct, (checkFiles_merges {} dual keepsOrder_dual threeFiles distinct).1⟩

end Checker

end PageLint
