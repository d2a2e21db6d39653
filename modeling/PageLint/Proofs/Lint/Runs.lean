/-
# PageLint.Proofs.Lint.Runs — what a rule finds, subject by subject

A run hands subjects to one rule, as if there were no other, up to the first on which it fails
(`Rule.runOver`). It comes to what the rule finds on the subjects before, one after the other,
and to the failure (`runOver_eq`). As long as a rule fails on none of its subjects, what it finds
in a document is what it finds in each subject (`diagnostics_runOver`).
-/
import Mathlib
import PageLint.Lint.Checker

namespace PageLint

set_option autoImplicit false

/-- What a rule did in one document. -/
structure RuleRun where
  diagnostics : List Diagnostic
  evaluations : Nat
  findings : Nat
  deriving DecidableEq, Repr

namespace RuleRun

/-- The run in which nothing was asked. -/
def idle : RuleRun := ⟨[], 0, 0⟩

/-- One run after another. -/
def add (a b : RuleRun) : RuleRun :=
  ⟨a.diagnostics ++ b.diagnostics, a.evaluations + b.evaluations, a.findings + b.findings⟩

theorem add_assoc (a b d : RuleRun) : (a.add b).add d = a.add (b.add d) := by
  simp [add, Nat.add_assoc]

theorem idle_add (a : RuleRun) : idle.add a = a := by
  simp [add, idle]

/-- The account of a run; a rule that was asked nothing has none. -/
def account (run : RuleRun) (id : String) : List Timing :=
  if run.evaluations = 0 then []
  else [{ ruleId := id, evaluations := run.evaluations, findings := run.findings }]

end RuleRun

namespace Rule

/-- Hands subjects to a rule in order, up to the first on which it fails. -/
def runOver (r : Rule) (severity : Severity) (file : Path) (doc : Document) : List Subject → RuleRun
  | [] => .idle
  | subject :: rest =>
    if r.appliesTo subject.target doc.language then
      match r.check doc subject with
      | .error reason => ⟨[r.failureOn file subject reason], 1, 0⟩
      | .ok found =>
        (RuleRun.mk (found.map (r.diagnostic severity file)) 1 found.length).add
          (runOver r severity file doc rest)
    else runOver r severity file doc rest

/-- The subjects that a rule looks at. -/
def lookedAt (r : Rule) (doc : Document) (subjects : List Subject) : List Subject :=
  subjects.filter fun s => r.appliesTo s.target doc.language

/-- The subjects that a rule looks at before it fails. -/
def answered (r : Rule) (doc : Document) (subjects : List Subject) : List Subject :=
  (r.lookedAt doc subjects).takeWhile fun s => (r.check doc s).isOk

/-- The first subject on which a rule fails, and the reason. -/
def firstFailure? (r : Rule) (doc : Document) (subjects : List Subject) : Option (Subject × String) :=
  (r.lookedAt doc subjects).findSome? fun s =>
    match r.check doc s with
    | .ok _ => none
    | .error reason => some (s, reason)

variable {r : Rule} {severity : Severity} {file : Path} {doc : Document}

/-- What a rule that looks at a subject finds there; nothing if it fails. -/
def found (r : Rule) (severity : Severity) (file : Path) (doc : Document) (s : Subject) :
    List Diagnostic :=
  if r.appliesTo s.target doc.language then
    match r.check doc s with
    | .ok findings => findings.map (r.diagnostic severity file)
    | .error _ => []
  else []

/-- **A run finds in a document what it finds in its subjects**, if it does not fail. -/
theorem diagnostics_runOver {subjects : List Subject}
    (answers : ∀ s ∈ subjects, ∃ findings, r.check doc s = .ok findings) :
    (r.runOver severity file doc subjects).diagnostics =
      subjects.flatMap (r.found severity file doc) := by
  induction subjects with
  | nil => rfl
  | cons s rest ih =>
      rw [List.forall_mem_cons] at answers
      obtain ⟨⟨findings, answer⟩, others⟩ := answers
      rw [runOver, List.flatMap_cons, found, answer]
      split
      · rw [← ih others]
        rfl
      · rw [ih others, List.nil_append]

/-- **A run comes to what is found before the first failure, and to that failure.** -/
theorem runOver_eq (r : Rule) (severity : Severity) (file : Path) (doc : Document)
    (subjects : List Subject) :
    r.runOver severity file doc subjects =
      let found := (r.answered doc subjects).flatMap (r.found severity file doc)
      let failure := (r.firstFailure? doc subjects).toList
      ⟨found ++ failure.map fun (s, reason) => r.failureOn file s reason,
        (r.answered doc subjects).length + failure.length, found.length⟩ := by
  induction subjects with
  | nil => rfl
  | cons s rest ih =>
      rw [runOver, ih]
      cases looks : r.appliesTo s.target doc.language with
      | false => simp [answered, firstFailure?, lookedAt, looks]
      | true =>
          cases answer : r.check doc s with
          | error reason =>
              simp [answered, firstFailure?, lookedAt, looks, answer, Except.isOk, Except.toBool]
          | ok findings =>
              simp [answered, firstFailure?, lookedAt, looks, answer, found, Except.isOk,
                Except.toBool, RuleRun.add]
              omega

theorem mem_found {s : Subject} {d : Diagnostic} (member : d ∈ r.found severity file doc s) :
    ∃ findings, r.check doc s = .ok findings ∧
      ∃ f ∈ findings, d = r.diagnostic severity file f := by
  rw [found] at member
  split at member
  · split at member
    next findings answer =>
      obtain ⟨f, isFound, rfl⟩ := List.mem_map.mp member
      exact ⟨findings, answer, f, isFound, rfl⟩
    next => cases member
  · cases member

end Rule

/-- What a rule does in a document, if it is alone: it sees the source first. -/
def Checker.runRule (c : Checker) (file : Path) (doc : Document) (r : Rule) : RuleRun :=
  r.runOver (c.severityOf r) file doc (.source :: doc.subjects)

/-- What a rule that does not fail tells of a document it finds in one of its subjects. -/
theorem Checker.mem_runRule {r : Rule} {find : Document → Subject → List Finding}
    (check : r.check = .total find) {c : Checker} {file : Path} {doc : Document} {d : Diagnostic}
    (told : d ∈ (c.runRule file doc r).diagnostics) :
    ∃ s ∈ .source :: doc.subjects, ∃ f ∈ find doc s, d = r.diagnostic (c.severityOf r) file f := by
  have answer : ∀ s, r.check doc s = .ok (find doc s) := by
    intro s
    rw [check]
    rfl
  rw [runRule, Rule.diagnostics_runOver fun s _ => ⟨_, answer s⟩] at told
  obtain ⟨s, member, found⟩ := List.mem_flatMap.mp told
  obtain ⟨findings, own, f, isFound, rfl⟩ := Rule.mem_found found
  rw [answer] at own
  obtain rfl := Except.ok.inj own
  exact ⟨s, member, f, isFound, rfl⟩

/-- What a rule that does not fail finds in a subject that it looks at. -/
theorem Rule.found_total {r : Rule} {find : Document → Subject → List Finding}
    (check : r.check = .total find) {severity : Severity} {file : Path} {doc : Document} {s : Subject}
    (looks : r.appliesTo s.target doc.language) :
    r.found severity file doc s = (find doc s).map (r.diagnostic severity file) := by
  rw [found, if_pos looks, check]
  rfl

/-- A rule finds nothing in a subject that it does not look at. -/
theorem Rule.found_of_not_appliesTo {r : Rule} {severity : Severity} {file : Path} {doc : Document}
    {s : Subject} (aside : r.appliesTo s.target doc.language = false) :
    r.found severity file doc s = [] := by
  rw [found, if_neg (by simp [aside])]

/-- **What a rule tells of a document it tells of the pieces it looks at**, one after the other, if it
looks at pieces of one kind and does not fail. -/
theorem Checker.runRule_pieces {r : Rule} {find : Document → Subject → List Finding}
    (check : r.check = .total find) {α : Type} {piece? : Subject → Option α} {subject : α → Subject}
    (pieces : ∀ s x, piece? s = some x → s = subject x) (source : piece? .source = none)
    {doc : Document}
    (looks : ∀ s, r.appliesTo s.target doc.language → (piece? s).isSome) (c : Checker) (file : Path) :
    (c.runRule file doc r).diagnostics =
      (doc.subjects.filterMap piece?).flatMap fun x =>
        r.found (c.severityOf r) file doc (subject x) := by
  have each : ∀ s, r.found (c.severityOf r) file doc s =
      (piece? s).toList.flatMap fun x => r.found (c.severityOf r) file doc (subject x) := by
    intro s
    cases isPiece : piece? s with
    | none =>
        refine Rule.found_of_not_appliesTo (Bool.eq_false_iff.mpr fun applies => ?_)
        simpa [isPiece] using looks s applies
    | some x => simp [← pieces s x isPiece]
  have answer : ∀ s, r.check doc s = .ok (find doc s) := by
    intro s
    rw [check]
    rfl
  rw [runRule, Rule.diagnostics_runOver fun s _ => ⟨_, answer s⟩, List.flatMap_cons, each .source,
    source, List.flatMap_congr fun s _ => each s, List.filterMap_eq_flatMap_toList, List.flatMap_assoc]
  rfl

/-- What a rule that does not fail finds in a subject that it looks at, it tells. -/
theorem Checker.mem_runRule_of_found {r : Rule} {find : Document → Subject → List Finding}
    (check : r.check = .total find) {c : Checker} {file : Path} {doc : Document} {s : Subject}
    {f : Finding} (member : s ∈ doc.subjects) (looks : r.appliesTo s.target doc.language)
    (found : f ∈ find doc s) :
    r.diagnostic (c.severityOf r) file f ∈ (c.runRule file doc r).diagnostics := by
  have answer : ∀ s, r.check doc s = .ok (find doc s) := by
    intro s
    rw [check]
    rfl
  rw [runRule, Rule.diagnostics_runOver fun s _ => ⟨_, answer s⟩]
  refine List.mem_flatMap.mpr ⟨s, List.mem_cons_of_mem _ member, ?_⟩
  rw [Rule.found, if_pos looks, answer]
  exact List.mem_map_of_mem found

end PageLint
