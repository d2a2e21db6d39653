/-
# PageLint.Proofs.Lint.Report — the order of a report

A report is sorted by file, then by the place of a finding, then by its message
(`compare_eq`). The order is total and transitive, whatever the findings are, so what comes
out of the sort ascends (`pairwise_mergeSort`).

Of two neighbours only the one that repeats the other is dropped. That leaves at most one
finding at each place when findings at one place repeat each other, which is so when the
line and the column of a stretch tell its offset (`report_ascends`).

A change to every finding that keeps order and repetitions may be made before the report or
after it (`report_map`).
-/
import Mathlib
import PageLint.Lint.Report

namespace PageLint

set_option autoImplicit false

/-! ## Total orders -/

/-- Comparing what a function gives is as good as comparing. -/
theorem transCmp_on {α β : Type} {cmp : β → β → Ordering} [Std.TransCmp cmp] (f : α → β) :
    Std.TransCmp fun a b => cmp (f a) (f b) where
  eq_swap := Std.OrientedCmp.eq_swap
  isLE_trans := Std.TransCmp.isLE_trans

namespace Component

theorem compare_eq : compare = compareLex (compareOn rank) (compareOn codes) := rfl

instance transCmpComponent : Std.TransCmp compare := by
  rw [compare_eq]
  infer_instance

end Component

namespace Path

theorem compareComponents_eq (as bs : List Component) :
    compareComponents as bs = List.compareLex Component.compare as bs := by
  induction as generalizing bs with
  | nil => cases bs <;> rfl
  | cons a as ih =>
      cases bs with
      | nil => rfl
      | cons b bs => rw [compareComponents, List.compareLex_cons_cons, ih]

instance transCmpPath : Std.TransCmp Path.compare := by
  have same : Path.compare = fun p q => List.compareLex Component.compare p.components q.components := by
    funext p q
    exact compareComponents_eq p.components q.components
  rw [same]
  exact transCmp_on components

end Path

namespace Diagnostic

/-! ## Places of findings -/

/-- The order of findings in one file, messages apart: by where they begin, by rule, and by
where they end. -/
def comparePlace : Diagnostic → Diagnostic → Ordering :=
  compareLex (compareOn line) <| compareLex (compareOn column) <|
    compareLex (compareOn ruleId) (compareOn fun d => d.span.finish.offset)

theorem compare_eq : Diagnostic.compare =
    compareLex (fun a b => a.file.compare b.file)
      (compareLex comparePlace (compareOn message)) := by
  funext a b
  simp only [Diagnostic.compare, comparePlace, compareLex, compareOn, Ordering.then_assoc]

/-- The order of findings as far as their rule. -/
def compareRule : Diagnostic → Diagnostic → Ordering :=
  compareLex (fun a b => a.file.compare b.file) <| compareLex (compareOn line) <|
    compareLex (compareOn column) (compareOn ruleId)

theorem compare_eq_rule : Diagnostic.compare =
    compareLex compareRule (compareLex (compareOn fun d => d.span.finish.offset)
      (compareOn message)) := by
  funext a b
  simp only [Diagnostic.compare, compareRule, compareLex, compareOn, Ordering.then_assoc]

instance transCmpPlace : Std.TransCmp comparePlace := by
  rw [comparePlace]
  infer_instance

instance transCmpDiagnostic : Std.TransCmp Diagnostic.compare := by
  have files : Std.TransCmp fun a b : Diagnostic => a.file.compare b.file := transCmp_on file
  rw [compare_eq]
  infer_instance

instance transCmpRule : Std.TransCmp compareRule := by
  have files : Std.TransCmp fun a b : Diagnostic => a.file.compare b.file := transCmp_on file
  rw [compareRule]
  infer_instance

/-- Strictly before in the order of places: by line, then column, then rule, then end. -/
def Before (a b : Diagnostic) : Prop :=
  a.line < b.line ∨ a.line = b.line ∧
    (a.column < b.column ∨ a.column = b.column ∧
      (a.ruleId < b.ruleId ∨ a.ruleId = b.ruleId ∧ a.span.finish.offset < b.span.finish.offset))

theorem before_iff {a b : Diagnostic} : a.Before b ↔ a.comparePlace b = .lt := by
  simp only [Before, comparePlace, compareLex, compareOn, Ordering.then_eq_lt, compare_lt_iff_lt,
    compare_eq_iff_eq]

/-- What is not after and no tie is before. -/
theorem lt_of_isLE {cmp : Diagnostic → Diagnostic → Ordering} {a b : Diagnostic}
    (ordered : (cmp a b).isLE) (different : cmp a b ≠ .eq) : cmp a b = .lt := by
  cases order : cmp a b with
  | lt => rfl
  | eq => exact absurd order different
  | gt => rw [order] at ordered; cases ordered

theorem isLE_comparePlace {a b : Diagnostic} (file : a.file = b.file)
    (ordered : (a.compare b).isLE) : (a.comparePlace b).isLE := by
  have same : a.file.compare b.file = .eq := by
    rw [file]
    exact Std.ReflCmp.compare_self
  rw [compare_eq, compareLex, same, Ordering.eq_then, compareLex,
    Ordering.isLE_then_iff_or] at ordered
  rcases ordered with less | ⟨equal, -⟩
  · rw [less]; rfl
  · rw [equal]; rfl

theorem isLE_trans {a b c : Diagnostic} (first : (a.compare b).isLE) (second : (b.compare c).isLE) :
    (a.compare c).isLE := Std.TransCmp.isLE_trans first second

theorem isLE_total (a b : Diagnostic) : ((a.compare b).isLE || (b.compare a).isLE) = true := by
  have swap : b.compare a = (a.compare b).swap := Std.OrientedCmp.eq_swap
  rw [swap]
  cases a.compare b <;> rfl

theorem isLE_compareRule {a b : Diagnostic} (ordered : (a.compare b).isLE) :
    (a.compareRule b).isLE := by
  rw [compare_eq_rule, compareLex, Ordering.isLE_then_iff_or] at ordered
  rcases ordered with less | ⟨equal, -⟩
  · rw [less]; rfl
  · rw [equal]; rfl

/-- What lies between two that are alike in order is alike. -/
theorem eq_of_isLE_of_eq {cmp : Diagnostic → Diagnostic → Ordering} [Std.TransCmp cmp]
    {a b c : Diagnostic} (first : (cmp a b).isLE) (second : (cmp b c).isLE) (equal : cmp a c = .eq) :
    cmp a b = .eq := by
  cases order : cmp a b with
  | lt =>
      rw [Std.TransCmp.lt_of_lt_of_isLE order second] at equal
      cases equal
  | eq => rfl
  | gt => rw [order] at first; cases first

theorem isLE_refl (a : Diagnostic) : (a.compare a).isLE := by
  have same : a.compare a = .eq := Std.ReflCmp.compare_self
  rw [same]
  rfl

theorem pairwise_sorted (ds : List Diagnostic) :
    (ds.mergeSort fun a b => (a.compare b).isLE).Pairwise fun a b => (a.compare b).isLE := by
  apply List.pairwise_mergeSort
  · intro a b c first second
    exact isLE_trans first second
  · exact isLE_total

end Diagnostic

/-! ## Repetitions -/

namespace Diagnostic

theorem repeats_iff {a b : Diagnostic} :
    b.repeats a ↔ b.ruleId = a.ruleId ∧ b.file.components = a.file.components ∧ b.span = a.span := by
  simp [repeats, Path.same, and_assoc]

theorem repeats_self (d : Diagnostic) : d.repeats d := repeats_iff.mpr ⟨rfl, rfl, rfl⟩

theorem repeats_symm {a b : Diagnostic} (again : b.repeats a) : a.repeats b := by
  obtain ⟨rule, file, span⟩ := repeats_iff.mp again
  exact repeats_iff.mpr ⟨rule.symm, file.symm, span.symm⟩

theorem repeats_trans {a b c : Diagnostic} (first : b.repeats a) (second : c.repeats b) :
    c.repeats a := by
  obtain ⟨rule, file, span⟩ := repeats_iff.mp first
  obtain ⟨rule', file', span'⟩ := repeats_iff.mp second
  exact repeats_iff.mpr ⟨rule'.trans rule, file'.trans file, span'.trans span⟩

theorem comparePlace_of_repeats {a b : Diagnostic} (again : b.repeats a) : a.comparePlace b = .eq := by
  obtain ⟨rule, -, span⟩ := repeats_iff.mp again
  simp [comparePlace, compareLex, compareOn, line, column, rule, span]

theorem Before.not_repeats {a b : Diagnostic} (before : a.Before b) : b.repeats a = false := by
  cases again : b.repeats a with
  | false => rfl
  | true =>
      rw [before_iff, comparePlace_of_repeats again] at before
      cases before

theorem comparePlace_of_compare {a b : Diagnostic} (alike : a.compare b = .eq) :
    a.comparePlace b = .eq := by
  rw [compare_eq, compareLex, Ordering.then_eq_eq, compareLex, Ordering.then_eq_eq] at alike
  exact alike.2.1

theorem compareRule_of_repeats {a b : Diagnostic} (again : b.repeats a) : a.compareRule b = .eq := by
  obtain ⟨rule, file, span⟩ := repeats_iff.mp again
  have files : a.file.compare b.file = .eq := by
    rw [Path.compare, file]
    show a.file.compare a.file = .eq
    exact Std.ReflCmp.compare_self
  simp [compareRule, compareLex, compareOn, line, column, rule, span, files]

/-- Findings that repeat each other are in the order of their messages. -/
theorem isLE_iff_of_repeats {a b : Diagnostic} (again : b.repeats a) :
    (a.compare b).isLE ↔ a.message ≤ b.message := by
  have ends : compareOn (fun d : Diagnostic => d.span.finish.offset) a b = .eq := by
    simp [compareOn, (repeats_iff.mp again).2.2]
  rw [compare_eq_rule, compareLex, compareRule_of_repeats again, Ordering.eq_then, compareLex, ends,
    Ordering.eq_then, compareOn, Ordering.isLE_iff_ne_gt]
  exact compare_le_iff_le

/-- Findings between two that repeat each other are of their rule. -/
theorem ruleId_eq_between {a b c : Diagnostic} (first : (a.compare b).isLE)
    (second : (b.compare c).isLE) (again : c.repeats a) : b.ruleId = a.ruleId := by
  have alike : a.compareRule b = .eq :=
    eq_of_isLE_of_eq (isLE_compareRule first) (isLE_compareRule second)
      (compareRule_of_repeats again)
  simp only [compareRule, compareLex, compareOn, Ordering.then_eq_eq, compare_eq_iff_eq] at alike
  exact alike.2.2.2.symm

end Diagnostic

/-! ## What is left of repetitions -/

theorem after_sublist (kept : Diagnostic) (ds : List Diagnostic) :
    (dropRepeats.after kept ds).Sublist ds := by
  induction ds generalizing kept with
  | nil => exact .slnil
  | cons d ds ih =>
      rw [dropRepeats.after]
      split
      · exact (ih kept).cons d
      · exact (ih d).cons_cons d

theorem dropRepeats_sublist (ds : List Diagnostic) : (dropRepeats ds).Sublist ds := by
  cases ds with
  | nil => exact .slnil
  | cons d ds => exact (after_sublist d ds).cons_cons d

theorem mem_of_mem_report {ds : List Diagnostic} {d : Diagnostic} (member : d ∈ report ds) :
    d ∈ ds := by
  exact List.mem_mergeSort.mp ((dropRepeats_sublist _).subset member)

/-- What is kept after a finding lies strictly after it, and ascends, in any order in which ties
repeat each other. The induction is on the findings, and the one that is kept before them changes
with it. -/
theorem after_ascends {cmp : Diagnostic → Diagnostic → Ordering} [Std.TransCmp cmp]
    (kept : Diagnostic) (ds : List Diagnostic)
    (sorted : (kept :: ds).Pairwise fun a b => (cmp a b).isLE)
    (ties : ∀ a ∈ kept :: ds, ∀ b ∈ ds, cmp a b = .eq → b.repeats a) :
    (kept :: dropRepeats.after kept ds).Pairwise fun a b => cmp a b = .lt := by
  induction ds generalizing kept with
  | nil => exact List.pairwise_singleton _ _
  | cons d ds ih =>
      obtain ⟨first, rest⟩ := List.pairwise_cons.mp sorted
      obtain ⟨second, others⟩ := List.pairwise_cons.mp rest
      rw [dropRepeats.after]
      split
      · refine ih kept (List.pairwise_cons.mpr ⟨fun b member => ?_, others⟩) ?_
        · exact first b (List.mem_cons_of_mem _ member)
        · intro a isOne b isOther
          refine ties a ?_ b (List.mem_cons_of_mem _ isOther)
          rcases List.mem_cons.mp isOne with rfl | later
          · exact List.mem_cons_self
          · exact List.mem_cons_of_mem _ (List.mem_cons_of_mem _ later)
      next new =>
        have strict : cmp kept d = .lt :=
          Diagnostic.lt_of_isLE (first d List.mem_cons_self) fun equal =>
            new (ties kept List.mem_cons_self d List.mem_cons_self equal)
        have later := ih d rest fun a isOne b isOther =>
          ties a (List.mem_cons_of_mem _ isOne) b (List.mem_cons_of_mem _ isOther)
        refine List.pairwise_cons.mpr ⟨?_, later⟩
        intro b member
        rcases List.mem_cons.mp member with rfl | member
        · exact strict
        · have next := (List.pairwise_cons.mp later).1 b member
          exact Std.TransCmp.lt_of_lt_of_isLE strict (by rw [next]; rfl)

/-- **A report ascends strictly**, in any order that is coarser than its own and in which ties
repeat each other. -/
theorem report_pairwise_lt {cmp : Diagnostic → Diagnostic → Ordering} [Std.TransCmp cmp]
    {ds : List Diagnostic}
    (coarser : ∀ a ∈ ds, ∀ b ∈ ds, (a.compare b).isLE → (cmp a b).isLE)
    (ties : ∀ a ∈ ds, ∀ b ∈ ds, cmp a b = .eq → b.repeats a) :
    (report ds).Pairwise fun a b => cmp a b = .lt := by
  have members : ∀ d ∈ ds.mergeSort fun a b => (a.compare b).isLE, d ∈ ds :=
    fun _ member => List.mem_mergeSort.mp member
  have sorted : (ds.mergeSort fun a b => (a.compare b).isLE).Pairwise fun a b => (cmp a b).isLE :=
    (Diagnostic.pairwise_sorted ds).imp_of_mem fun {a b} one other =>
      coarser a (members a one) b (members b other)
  rw [report]
  generalize (ds.mergeSort fun a b => (a.compare b).isLE) = sortedList at sorted members
  cases sortedList with
  | nil => exact .nil
  | cons d es =>
      apply after_ascends d es sorted
      intro a one b other
      exact ties a (members a one) b (members b (List.mem_cons_of_mem _ other))

section Changes

variable {f : Diagnostic → Diagnostic} {ds : List Diagnostic}

/-- A change that keeps repetitions keeps what is left of them. -/
theorem map_after (again : ∀ a ∈ ds, ∀ b ∈ ds, (f a).repeats (f b) = a.repeats b) {d : Diagnostic}
    (member : d ∈ ds) {es : List Diagnostic} (fewer : es ⊆ ds) :
    dropRepeats.after (f d) (es.map f) = (dropRepeats.after d es).map f := by
  induction es generalizing d with
  | nil => rfl
  | cons e es ih =>
      have next : e ∈ ds := fewer List.mem_cons_self
      have others : es ⊆ ds := fun a inside => fewer (List.mem_cons_of_mem _ inside)
      rw [List.map_cons, dropRepeats.after, dropRepeats.after, again e next d member]
      split
      · exact ih member others
      · rw [List.map_cons, ih next others]

/-- **A change that keeps order and repetitions may be made after the report.** -/
theorem report_map (order : ∀ a ∈ ds, ∀ b ∈ ds, (f a).compare (f b) = a.compare b)
    (again : ∀ a ∈ ds, ∀ b ∈ ds, (f a).repeats (f b) = a.repeats b) :
    report (ds.map f) = (report ds).map f := by
  have sorted : (ds.map f).mergeSort (fun a b => (a.compare b).isLE) =
      (ds.mergeSort fun a b => (a.compare b).isLE).map f := by
    symm
    apply List.map_mergeSort
    intro a one b other
    rw [order a one b other]
  have members : ds.mergeSort (fun a b => (a.compare b).isLE) ⊆ ds :=
    fun _ member => List.mem_mergeSort.mp member
  rw [report, report, sorted]
  generalize (ds.mergeSort fun a b => (a.compare b).isLE) = sortedList at members
  cases sortedList with
  | nil => rfl
  | cons d es =>
      rw [List.map_cons, dropRepeats, dropRepeats, List.map_cons,
        map_after again (members List.mem_cons_self) fun a inside =>
          members (List.mem_cons_of_mem _ inside)]

end Changes

/-- Findings of one file, of which those at one place repeat each other. -/
structure Tidy (ds : List Diagnostic) : Prop where
  file : ∀ a ∈ ds, ∀ b ∈ ds, a.file = b.file
  places : ∀ a ∈ ds, ∀ b ∈ ds, a.comparePlace b = .eq → b.repeats a

open Diagnostic in
/-- **A report ascends strictly by place**, if its findings are tidy. -/
theorem report_ascends {ds : List Diagnostic} (tidy : Tidy ds) : (report ds).Pairwise Before := by
  have ascends : (report ds).Pairwise fun a b => a.comparePlace b = .lt :=
    report_pairwise_lt (fun a one b other => isLE_comparePlace (tidy.file a one b other)) tidy.places
  exact ascends.imp before_iff.mpr

/-! ## What a report keeps -/

section Keeps

open Diagnostic

/-- For each finding one stays that it repeats, or the finding itself. The induction is on the
findings, and the one that is kept before them changes with it. -/
theorem exists_mem_after (kept : Diagnostic) (ds : List Diagnostic)
    (sorted : (kept :: ds).Pairwise fun a b => (a.compare b).isLE) :
    ∀ d ∈ kept :: ds, ∃ k ∈ kept :: dropRepeats.after kept ds, d.repeats k ∧ (k.compare d).isLE := by
  induction ds generalizing kept with
  | nil =>
      intro d member
      obtain rfl := List.mem_singleton.mp member
      exact ⟨d, List.mem_cons_self, repeats_self d, isLE_refl d⟩
  | cons e es ih =>
      obtain ⟨first, rest⟩ := List.pairwise_cons.mp sorted
      obtain ⟨second, others⟩ := List.pairwise_cons.mp rest
      rw [dropRepeats.after]
      split
      next again =>
        have later := ih kept (List.pairwise_cons.mpr
          ⟨fun b member => first b (List.mem_cons_of_mem _ member), others⟩)
        rw [List.forall_mem_cons, List.forall_mem_cons]
        exact ⟨later kept List.mem_cons_self, ⟨kept, List.mem_cons_self, again,
          first e List.mem_cons_self⟩, fun d member => later d (List.mem_cons_of_mem _ member)⟩
      next =>
        rw [List.forall_mem_cons]
        refine ⟨⟨kept, List.mem_cons_self, repeats_self kept, isLE_refl kept⟩, ?_⟩
        intro d member
        obtain ⟨k, stays, same⟩ := ih e rest d member
        exact ⟨k, List.mem_cons_of_mem _ stays, same⟩

/-- **What a report leaves out repeats what it keeps**, and does not lie before it. -/
theorem exists_mem_report {ds : List Diagnostic} {d : Diagnostic} (member : d ∈ ds) :
    ∃ k ∈ report ds, d.repeats k ∧ (k.compare d).isLE := by
  have sorted := pairwise_sorted ds
  have found : d ∈ ds.mergeSort fun a b => (a.compare b).isLE := List.mem_mergeSort.mpr member
  rw [report]
  generalize (ds.mergeSort fun a b => (a.compare b).isLE) = sortedList at sorted found
  cases sortedList with
  | nil => cases found
  | cons e es => exact exists_mem_after e es sorted d found

/-- **What nothing else repeats is reported.** -/
theorem mem_report_of_unrepeated {ds : List Diagnostic} {d : Diagnostic} (member : d ∈ ds)
    (alone : ∀ e ∈ ds, d.repeats e → e = d) : d ∈ report ds := by
  obtain ⟨k, stays, again, -⟩ := exists_mem_report member
  rw [← alone k (mem_of_mem_report stays) again]
  exact stays

/-- **Of findings that repeat each other a report keeps the first**, if the findings are tidy. -/
theorem mem_report_iff {ds : List Diagnostic} (tidy : Tidy ds)
    (ties : ∀ a ∈ ds, ∀ b ∈ ds, a.compare b = .eq → a = b) {d : Diagnostic} :
    d ∈ report ds ↔ d ∈ ds ∧ ∀ e ∈ ds, e.repeats d → (d.compare e).isLE := by
  have once : ∀ a ∈ report ds, ∀ b ∈ report ds, b.repeats a → a = b := by
    have apart : (report ds).Pairwise fun a b => b.repeats a → a = b := by
      refine (report_ascends tidy).imp fun before again => ?_
      rw [before.not_repeats] at again
      cases again
    have : Std.Symm fun a b : Diagnostic => b.repeats a → a = b :=
      ⟨fun _ _ equal again => (equal (repeats_symm again)).symm⟩
    exact fun a one b other => apart.forall_of_forall (fun _ _ _ => rfl) one other
  constructor
  · intro stays
    refine ⟨mem_of_mem_report stays, fun e member again => ?_⟩
    obtain ⟨k, staysToo, same, ordered⟩ := exists_mem_report member
    rw [once d stays k staysToo (repeats_trans again (repeats_symm same))]
    exact ordered
  · rintro ⟨member, least⟩
    obtain ⟨k, stays, again, ordered⟩ := exists_mem_report member
    have found := mem_of_mem_report stays
    have equal := ties d member k found
      (Std.OrientedCmp.isLE_antisymm (least k found (repeats_symm again)) ordered)
    rw [equal]
    exact stays

end Keeps

end PageLint
