/-
# PageLint.Proofs.Lint.Isolation — rules do not interfere

Rules share a walk, a filter and a report. None of them lets one rule see another: a walk comes
to the rule's run (`found_of`), a comment silences a finding for its own rule and line, and a
report, restricted to one rule, is the report of what that rule found (`report_filter_rule`). So
what the check of a file says of a rule is told by the rule, its severity and the document alone
(`examine_ofRule`), and what else runs, finds or fails does not change it (`checkFile_isolated`).
-/
import PageLint.Proofs.Lint.Coherence

namespace PageLint

set_option autoImplicit false

namespace Rule

variable {r : Rule} {doc : Document} {subjects : List Subject}

/-- The subjects about which a rule is asked: those on which it answers and the first on which
it fails. -/
def asked (r : Rule) (doc : Document) (subjects : List Subject) : List Subject :=
  r.answered doc subjects ++ ((r.firstFailure? doc subjects).map Prod.fst).toList

/-- **A rule is asked about no subject behind its first failure.** The induction is on the
subjects at which it looks. -/
theorem asked_of_failure {s : Subject} {reason : String}
    (failure : r.firstFailure? doc subjects = some (s, reason)) :
    r.check doc s = .error reason ∧
      ∃ before behind, r.lookedAt doc subjects = before ++ s :: behind ∧
        r.asked doc subjects = before ++ [s] ∧ ∀ u ∈ before, (r.check doc u).isOk := by
  rw [asked, failure]
  unfold firstFailure? at failure
  unfold answered
  generalize r.lookedAt doc subjects = looked at failure
  induction looked with
  | nil => cases failure
  | cons first rest ih =>
      rw [List.findSome?_cons] at failure
      rw [List.takeWhile_cons]
      cases answer : r.check doc first with
      | error why =>
          rw [answer] at failure
          obtain ⟨rfl, rfl⟩ := Prod.mk.inj (Option.some.inj failure)
          exact ⟨answer, [], rest, rfl, rfl, nofun⟩
      | ok found =>
          rw [answer] at failure
          obtain ⟨fails, before, behind, all, asked, answers⟩ := ih failure
          refine ⟨fails, first :: before, behind, congrArg (first :: ·) all,
            congrArg (first :: ·) asked, List.forall_mem_cons.mpr ⟨?_, answers⟩⟩
          rw [answer]
          rfl

/-- A rule that does not fail is asked about all that it looks at. -/
theorem asked_of_no_failure (none_ : r.firstFailure? doc subjects = none) :
    r.asked doc subjects = r.lookedAt doc subjects := by
  rw [asked, none_, Option.map_none, Option.toList_none, List.append_nil, answered,
    List.takeWhile_eq_self_iff]
  intro s member
  have answers := List.findSome?_eq_none_iff.mp none_ s member
  cases answer : r.check doc s with
  | error reason => simp [answer] at answers
  | ok found => rfl

theorem length_asked : (r.asked doc subjects).length =
    (r.answered doc subjects).length + (r.firstFailure? doc subjects).toList.length := by
  rw [asked, List.length_append]
  cases r.firstFailure? doc subjects <;> rfl

end Rule

/-! ## What a report says of a rule -/

/-- What the report of a file says of a rule: its findings and the account of its work. -/
def FileReport.ofRule (report : FileReport) (id : String) : FileReport where
  diagnostics := report.diagnostics.filter (·.ruleId == id)
  timings := report.timings.filter (·.ruleId == id)

namespace Checker

variable {c : Checker} {r : Rule} {path : Path} {doc : Document}

/-- What a rule reports on the subjects before its first failure. -/
def reported (c : Checker) (path : Path) (doc : Document) (r : Rule) : List Diagnostic :=
  (r.answered doc (.source :: doc.subjects)).flatMap (r.found (c.severityOf r) path doc)

/-- What a rule contributes to the report of a document: what it has reported, silenced findings
apart, in order and once each, and how often it was asked and found something. -/
def contribution (c : Checker) (path : Path) (doc : Document) (r : Rule) : FileReport where
  diagnostics := (report ((c.reported path doc r).filter fun d =>
    !(Suppressions.ofDocument doc).isSuppressed r.id d.line)).map (c.decorate doc.source.lineTable)
  timings := RuleRun.account ⟨c.reported path doc r,
    (r.asked doc (.source :: doc.subjects)).length, (c.reported path doc r).length⟩ r.id

theorem ruleId_reported : ∀ d ∈ c.reported path doc r, d.ruleId = r.id := by
  intro d member
  obtain ⟨s, -, found⟩ := List.mem_flatMap.mp member
  obtain ⟨-, -, f, -, rfl⟩ := Rule.mem_found found
  rfl

/-- The failure of a rule does not go under its id. -/
theorem filter_failure (unreserved : isReserved r.id = false) (failure : Option (Subject × String)) :
    (failure.toList.map fun (s, reason) => r.failureOn path s reason).filter (·.ruleId == r.id) =
      [] := by
  apply List.filter_eq_nil_iff.mpr
  intro d member
  obtain ⟨⟨s, reason⟩, -, rfl⟩ := List.mem_map.mp member
  simpa [Rule.failureOn] using (Rule.ne_of_unreserved unreserved).2.symm

/-- Of a run, what goes under the rule's id is what it has reported. -/
theorem filter_runRule (unreserved : isReserved r.id = false) :
    (c.runRule path doc r).diagnostics.filter (·.ruleId == r.id) = c.reported path doc r := by
  have own : (c.reported path doc r).filter (·.ruleId == r.id) = c.reported path doc r :=
    List.filter_eq_self.mpr fun d member => beq_iff_eq.mpr (ruleId_reported d member)
  rw [runRule, Rule.runOver_eq]
  show (c.reported path doc r ++ _).filter _ = _
  rw [List.filter_append, own, filter_failure unreserved, List.append_nil]

/-- Of all there is to be found, what goes under a rule's id is what the rule has reported. -/
theorem filter_found_ruleId (enabled : r ∈ c.enabledRules) :
    (c.found path doc).filter (·.ruleId == r.id) = c.reported path doc r := by
  have unreserved := c.companions_enabledRules.unreserved r enabled
  rw [← filter_runRule unreserved, ← found_of enabled, List.filter_filter]
  apply List.filter_congr
  intro d _
  cases same : d.ruleId == r.id <;> simp [Rule.owns, same]

/-- What the report of a document says under an id is the report of what goes under it and is not
silenced. -/
theorem filter_examine (id : String) :
    (c.examine path doc).diagnostics.filter (·.ruleId == id) =
      (report (((c.found path doc).filter (·.ruleId == id)).filter fun d =>
        !(Suppressions.ofDocument doc).isSuppressed id d.line)).map
          (c.decorate doc.source.lineTable) := by
  have decorated : ((·.ruleId == id) ∘ c.decorate doc.source.lineTable) = (·.ruleId == id) := rfl
  have silenced : ∀ d ∈ (c.found path doc).filter (·.ruleId == id),
      (!(Suppressions.ofDocument doc).isSuppressed d.ruleId d.line) =
        !(Suppressions.ofDocument doc).isSuppressed id d.line := by
    intro d member
    rw [beq_iff_eq.mp (List.mem_filter.mp member).2]
  rw [diagnostics_examine, List.filter_map, decorated, report_filter_rule, heard, List.filter_comm,
    List.filter_congr silenced]

/-- **What the report of a document says of a rule is the rule's contribution**, whatever the
others do. -/
theorem examine_ofRule (enabled : r ∈ c.enabledRules) :
    (c.examine path doc).ofRule r.id = c.contribution path doc r := by
  have timings : (c.examine path doc).timings.filter (·.ruleId == r.id) =
      (c.contribution path doc r).timings := by
    rw [examine, timings_walk_of enabled, runRule, Rule.runOver_eq, contribution, Rule.length_asked]
    rfl
  rw [FileReport.ofRule, timings, filter_examine, filter_found_ruleId enabled, contribution]

theorem checkInput_eq {reader : Reader} (reads : Reader.for? c.readers path = some reader)
    (text : List Char) : c.checkInput ⟨path, .ok text⟩ = .ok (c.examine path (reader.read text)) := by
  rw [checkInput, reads]

theorem map_checkFile (id : String) (text : List Char) :
    (c.checkFile path text).map (·.filter (·.ruleId == id)) =
      ((c.checkInput ⟨path, .ok text⟩).map (·.ofRule id)).map FileReport.diagnostics := by
  rw [checkFile]
  cases c.checkInput ⟨path, .ok text⟩ <;> rfl

/-- Under two configurations that let a rule run, with one severity, the report of a file says
the same of the rule. -/
theorem checkInput_ofRule {other : Config} (member : r ∈ c.catalog.rules)
    (runs : c.config.isEnabled r.id) (runsToo : other.isEnabled r.id)
    (severity : c.config.severity? r.id = other.severity? r.id) (input : Input) :
    (c.checkInput input).map (·.ofRule r.id) =
      (({ c with config := other } : Checker).checkInput input).map (·.ofRule r.id) := by
  have enabled : r ∈ c.enabledRules := List.mem_filter.mpr ⟨member, runs⟩
  have enabledToo : r ∈ ({ c with config := other } : Checker).enabledRules :=
    List.mem_filter.mpr ⟨member, runsToo⟩
  have severities : c.severityOf r = ({ c with config := other } : Checker).severityOf r := by
    rw [severityOf, severityOf, severity]
  have contributions : ∀ doc, c.contribution input.path doc r =
      ({ c with config := other } : Checker).contribution input.path doc r := by
    intro doc
    rw [contribution, contribution, reported, reported, severities]
    rfl
  rw [checkInput, checkInput]
  cases Reader.for? c.readers input.path with
  | none => rfl
  | some reader =>
      cases input.text with
      | error reason => rfl
      | ok text =>
          refine congrArg Except.ok ?_
          exact (examine_ofRule enabled).trans
            ((contributions _).trans (examine_ofRule enabledToo).symm)

/-- **Rules do not interfere.** Under two configurations that let a rule run, with one severity,
the check of a file says the same of the rule: the same findings, asked as often, with as many
findings counted. Where the file can be checked, that is what the rule has reported on the
subjects before its first failure, silenced findings apart, in order and once each; and it is
asked about all subjects at which it looks, or up to that failure and not again. -/
theorem checkFile_isolated (c : Checker) (other : Config) {r : Rule} (member : r ∈ c.catalog.rules)
    (runs : c.config.isEnabled r.id) (runsToo : other.isEnabled r.id)
    (severity : c.config.severity? r.id = other.severity? r.id) (path : Path) (text : List Char) :
    (c.checkFile path text).map (·.filter (·.ruleId == r.id)) =
        (({ c with config := other } : Checker).checkFile path text).map
          (·.filter (·.ruleId == r.id)) ∧
      (c.checkInput ⟨path, .ok text⟩).map (·.ofRule r.id) =
        (({ c with config := other } : Checker).checkInput ⟨path, .ok text⟩).map (·.ofRule r.id) ∧
      ∀ reader, Reader.for? c.readers path = some reader →
        let doc := reader.read text
        let subjects := Subject.source :: doc.subjects
        (∃ report, c.checkInput ⟨path, .ok text⟩ = .ok report ∧
          report.ofRule r.id = c.contribution path doc r) ∧
        (r.firstFailure? doc subjects = none → r.asked doc subjects = r.lookedAt doc subjects) ∧
        ∀ s reason, r.firstFailure? doc subjects = some (s, reason) →
          r.check doc s = .error reason ∧
            ∃ before behind, r.lookedAt doc subjects = before ++ s :: behind ∧
              r.asked doc subjects = before ++ [s] ∧ ∀ u ∈ before, (r.check doc u).isOk := by
  have same := checkInput_ofRule member runs runsToo severity ⟨path, .ok text⟩
  refine ⟨?_, same, ?_⟩
  · rw [map_checkFile, map_checkFile, same]
  · intro reader reads
    have enabled : r ∈ c.enabledRules := List.mem_filter.mpr ⟨member, runs⟩
    exact ⟨⟨_, checkInput_eq reads text, examine_ofRule enabled⟩, Rule.asked_of_no_failure,
      fun s reason => Rule.asked_of_failure⟩

/-- A rule that reports style rules and fails on declarations that are important. -/
def touchyRule : Rule where
  id := "touchy"
  message := "a style rule"
  targets := [.cssStyleRule, .cssDeclaration]
  check _ subject :=
    match subject with
    | .cssStyleRule rule => .ok [.filled rule.span]
    | .cssDeclaration declaration =>
      if declaration.important.isSome then .error "cannot handle importance" else .ok []
    | _ => .ok []

/-- A rule that fails at once. -/
def brokenRule : Rule where
  id := "broken"
  message := "nothing"
  targets := [.source]
  check _ _ := .error "cannot handle anything"

/-- A checker with both, of which it runs both. -/
def touchyChecker : Checker where
  catalog := { rules := [brokenRule, touchyRule], distinct := by decide, unreserved := by decide }
  config := .only ["touchy", "broken"]

/-- The text on whose second piece the rule fails. -/
def importantText : List Char := "a{b:c!important}d{}".toList

theorem checkFile_isolated_touchy :
    touchyRule ∈ touchyChecker.catalog.rules ∧
      touchyChecker.config.isEnabled "touchy" ∧ (Config.only ["touchy"]).isEnabled "touchy" ∧
      touchyChecker.config.severity? "touchy" = (Config.only ["touchy"]).severity? "touchy" ∧
      (touchyChecker.checkFile ⟨"a.css"⟩ importantText).map (·.filter (·.ruleId == "touchy")) =
        (({ touchyChecker with config := .only ["touchy"] } : Checker).checkFile ⟨"a.css"⟩
          importantText).map (·.filter (·.ruleId == "touchy")) ∧
      ∃ report, touchyChecker.checkInput ⟨⟨"a.css"⟩, .ok importantText⟩ = .ok report ∧
        (report.ofRule "touchy").timings =
          [{ ruleId := "touchy", evaluations := 2, findings := 1 }] := by
  have member : touchyRule ∈ touchyChecker.catalog.rules := by simp [touchyChecker]
  have isolated := checkFile_isolated touchyChecker (.only ["touchy"]) member (by decide) (by decide)
    (by decide) ⟨"a.css"⟩ importantText
  obtain ⟨⟨report, checked, ofRule⟩, -⟩ := isolated.2.2 .css (by decide)
  refine ⟨member, by decide, by decide, by decide, isolated.1, report, checked, ?_⟩
  have account : (touchyChecker.contribution ⟨"a.css"⟩ (Reader.css.read importantText)
      touchyRule).timings = [{ ruleId := "touchy", evaluations := 2, findings := 1 }] := by
    decide +kernel
  exact (congrArg FileReport.timings ofRule).trans account

end Checker

end PageLint
