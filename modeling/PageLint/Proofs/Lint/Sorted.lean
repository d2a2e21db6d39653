/-
# PageLint.Proofs.Lint.Sorted — a report is sorted, and tells each thing once

The order of a report compares keys that differ from what makes a finding a repetition: it looks at
where a finding begins by line and column, at where it ends by the offset alone, and at the message,
while findings repeat each other when file, rule and stretch are the same, whatever they say. Only
neighbours are compared. Where the places of a file are those of one text the two fit together:
findings that are alike in all but the message repeat each other, so repetitions are neighbours
(`report_sorted_once`). To report a report changes nothing, wherever findings say they are
(`report_report`).
-/
import PageLint.Proofs.Lint.Report

namespace PageLint

set_option autoImplicit false

/-! ## Files -/

namespace Component

theorem codes_inj {a b : Component} (rank : a.rank = b.rank) (codes : a.codes = b.codes) :
    a = b := by
  have chars : Function.Injective (List.map Char.toNat) :=
    List.map_injective_iff.mpr fun c d same => Char.toNat_inj.mp same
  cases a <;> cases b <;> simp_all [Component.rank, Component.codes, chars.eq_iff]

instance lawfulEqCmpComponent : Std.LawfulEqCmp compare where
  eq_of_compare {a b} alike := by
    rw [compare_eq] at alike
    simp only [compareLex, compareOn, Ordering.then_eq_eq, Std.LawfulEqCmp.compare_eq_iff_eq]
      at alike
    exact codes_inj alike.1 alike.2

end Component

namespace Path

/-- **Paths tie in their order if they name the same file**, and not else. -/
theorem compare_eq_eq_iff {p q : Path} : p.compare q = .eq ↔ p.same q := by
  rw [Path.compare, compareComponents_eq, same, beq_iff_eq]
  exact Std.LawfulEqCmp.compare_eq_iff_eq

theorem same_comm {p q : Path} : p.same q = q.same p := by
  rw [same, same, Bool.eq_iff_iff, beq_iff_eq, beq_iff_eq, eq_comm]

end Path

namespace Diagnostic

/-! ## The order, spelled out -/

/-- By file, then by line, column, rule and end, then by message, the first difference deciding: `a`
does not come after `b`. -/
def InOrder (a b : Diagnostic) : Prop :=
  a.file.compare b.file = .lt ∨ a.file.same b.file ∧
    (a.line < b.line ∨ a.line = b.line ∧
      (a.column < b.column ∨ a.column = b.column ∧
        (a.ruleId < b.ruleId ∨ a.ruleId = b.ruleId ∧
          (a.span.finish.offset < b.span.finish.offset ∨
            a.span.finish.offset = b.span.finish.offset ∧ a.message ≤ b.message))))

theorem isLE_compare_iff {a b : Diagnostic} : (a.compare b).isLE ↔ a.InOrder b := by
  have messages : (Ord.compare a.message b.message).isLE ↔ a.message ≤ b.message := by
    rw [Ordering.isLE_iff_ne_gt]
    exact compare_le_iff_le
  simp only [Diagnostic.compare, Ordering.isLE_then_iff_or, InOrder, compare_lt_iff_lt,
    compare_eq_iff_eq, Path.compare_eq_eq_iff, messages]

/-! ## Repetitions are neighbours -/

/-- The order of findings, messages apart. -/
def compareStretch : Diagnostic → Diagnostic → Ordering :=
  compareLex (fun a b => a.file.compare b.file) comparePlace

instance transCmpStretch : Std.TransCmp compareStretch := by
  have files : Std.TransCmp fun a b : Diagnostic => a.file.compare b.file := transCmp_on file
  rw [compareStretch]
  infer_instance

theorem isLE_compareStretch {a b : Diagnostic} (ordered : (a.compare b).isLE) :
    (a.compareStretch b).isLE := by
  have parts : a.compare b = (a.compareStretch b).then (compareOn message a b) := by
    rw [compare_eq, compareLex, compareStretch, compareLex, compareLex, Ordering.then_assoc]
  rw [parts, Ordering.isLE_then_iff_or] at ordered
  rcases ordered with less | ⟨equal, -⟩
  · rw [less]; rfl
  · rw [equal]; rfl

theorem compareStretch_of_repeats {a b : Diagnostic} (again : b.repeats a) :
    a.compareStretch b = .eq := by
  have files : a.file.compare b.file = .eq :=
    Path.compare_eq_eq_iff.mpr (beq_iff_eq.mpr (repeats_iff.mp again).2.1.symm)
  rw [compareStretch, compareLex, files, Ordering.eq_then, comparePlace_of_repeats again]

end Diagnostic

/-- The places where a stretch begins and ends. -/
def Span.ends (s : Span) : List Position := [s.start, s.finish]

/-- In each file the findings lie at places of one text: of two places there the line and the
column are the same just if the offset is. -/
def OneText (ds : List Diagnostic) : Prop :=
  ∀ a ∈ ds, ∀ b ∈ ds, a.file.same b.file → ∀ p ∈ a.span.ends, ∀ q ∈ b.span.ends,
    p.line = q.line ∧ p.column = q.column ↔ p.offset = q.offset

theorem Position.eq_of_fields {p q : Position} (offset : p.offset = q.offset)
    (line : p.line = q.line) (column : p.column = q.column) : p = q := by
  cases p
  cases q
  simp only at offset line column
  rw [offset, line, column]

open Diagnostic in
/-- At places of one text findings that are alike in all but the message repeat each other. -/
theorem OneText.repeats {ds : List Diagnostic} (places : OneText ds) {a b : Diagnostic}
    (one : a ∈ ds) (other : b ∈ ds) (alike : a.compareStretch b = .eq) : b.repeats a := by
  simp only [compareStretch, comparePlace, compareLex, compareOn, Ordering.then_eq_eq,
    compare_eq_iff_eq, Path.compare_eq_eq_iff] at alike
  obtain ⟨file, line, column, rule, last⟩ := alike
  have start := (places a one b other file a.span.start (by simp [Span.ends]) b.span.start
    (by simp [Span.ends])).mp ⟨line, column⟩
  have finish := (places a one b other file a.span.finish (by simp [Span.ends]) b.span.finish
    (by simp [Span.ends])).mpr last
  have spans : a.span = b.span := by
    obtain ⟨s, t⟩ : a.span.start = b.span.start ∧ a.span.finish = b.span.finish :=
      ⟨Position.eq_of_fields start line column, Position.eq_of_fields last finish.1 finish.2⟩
    cases hs : a.span
    cases ht : b.span
    simp only [hs, ht] at s t
    rw [s, t]
  exact repeats_iff.mpr ⟨rule.symm, (beq_iff_eq.mp file).symm, spans.symm⟩

/-! ## Reporting twice -/

theorem after_after (kept : Diagnostic) (ds : List Diagnostic) :
    dropRepeats.after kept (dropRepeats.after kept ds) = dropRepeats.after kept ds := by
  induction ds generalizing kept with
  | nil => rfl
  | cons d ds ih =>
      rw [dropRepeats.after]
      split
      next => exact ih kept
      next new => rw [dropRepeats.after, if_neg new, ih d]

theorem dropRepeats_dropRepeats (ds : List Diagnostic) :
    dropRepeats (dropRepeats ds) = dropRepeats ds := by
  cases ds with
  | nil => rfl
  | cons d ds => rw [dropRepeats, dropRepeats, after_after]

theorem pairwise_report (ds : List Diagnostic) :
    (report ds).Pairwise fun a b => (a.compare b).isLE :=
  (Diagnostic.pairwise_sorted ds).sublist (dropRepeats_sublist _)

/-- **To report a report changes nothing.** -/
theorem report_report (ds : List Diagnostic) : report (report ds) = report ds := by
  rw [report, List.mergeSort_of_pairwise (pairwise_report ds), report, dropRepeats_dropRepeats]

/-! ## Sorted, and once each -/

/-- **A report is sorted and tells each thing once.** Of findings that in each file lie at places of
one text it keeps some, in the order of files, lines, columns, rules, ends and messages; for each
finding it keeps one of the same file, rule and stretch, and no two are the same in these; and to
report a report changes nothing. -/
theorem report_sorted_once (ds : List Diagnostic) (places : OneText ds) :
    (report ds).Pairwise Diagnostic.InOrder ∧ (report ds).Subperm ds ∧
      (∀ d ∈ ds, ∃ k ∈ report ds, k.file.same d.file ∧ k.ruleId = d.ruleId ∧ k.span = d.span) ∧
      (report ds).Pairwise (fun a b =>
        ¬ (a.file.same b.file ∧ a.ruleId = b.ruleId ∧ a.span = b.span)) ∧
      report (report ds) = report ds := by
  refine ⟨(pairwise_report ds).imp Diagnostic.isLE_compare_iff.mp, ?_, ?_, ?_, report_report ds⟩
  · exact (dropRepeats_sublist _).subperm.trans (List.mergeSort_perm ds _).subperm
  · intro d member
    obtain ⟨k, kept, again, -⟩ := exists_mem_report member
    obtain ⟨rule, file, span⟩ := Diagnostic.repeats_iff.mp again
    exact ⟨k, kept, beq_iff_eq.mpr file.symm, rule.symm, span.symm⟩
  · have ascends : (report ds).Pairwise fun a b => a.compareStretch b = .lt :=
      report_pairwise_lt (fun a _ b _ => Diagnostic.isLE_compareStretch)
        fun a one b other => places.repeats one other
    refine ascends.imp ?_
    rintro a b less ⟨file, rule, span⟩
    have again : b.repeats a :=
      Diagnostic.repeats_iff.mpr ⟨rule.symm, (beq_iff_eq.mp file).symm, span.symm⟩
    rw [Diagnostic.compareStretch_of_repeats again] at less
    cases less

/-- Findings of two files out of order, of which one says a thing twice, and one of its names has a
slash too many. -/
def scattered : List Diagnostic :=
  let at_ (file message : String) (start finish : Position) : Diagnostic :=
    { ruleId := "r", severity := .warning, message, file := ⟨file⟩, span := ⟨start, finish⟩ }
  [at_ "b.css" "m" ⟨0, 1, 1⟩ ⟨2, 1, 3⟩, at_ "a/b.css" "n" ⟨4, 2, 1⟩ ⟨5, 2, 2⟩,
    at_ "a//b.css" "m" ⟨4, 2, 1⟩ ⟨5, 2, 2⟩, at_ "a/b.css" "m" ⟨0, 1, 1⟩ ⟨5, 2, 2⟩]

theorem report_sorted_once_scattered :
    OneText scattered ∧ (report scattered).Pairwise Diagnostic.InOrder ∧
      (report scattered).Subperm scattered ∧
      (report scattered).Pairwise (fun a b =>
        ¬ (a.file.same b.file ∧ a.ruleId = b.ruleId ∧ a.span = b.span)) ∧
      report (report scattered) = report scattered := by
  have places : OneText scattered := by
    unfold OneText
    decide
  obtain ⟨sorted, fewer, -, once, again⟩ := report_sorted_once scattered places
  exact ⟨places, sorted, fewer, once, again⟩

end PageLint
