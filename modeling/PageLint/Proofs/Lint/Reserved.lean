/-
# PageLint.Proofs.Lint.Reserved — findings under reserved ids

Faults of structure go under one id and failures of rules under another, and no comment silences
either (`filter_examine_reserved`). But a report keeps one finding of an id at a stretch, and
rules that fail on one subject fail at one stretch. So of the failures at a stretch a report keeps
one, and all of it where just one rule fails there (`checkFile_failures`); and of the faults at a
stretch it keeps the one whose message comes first (`checkFile_faults`).
-/
import PageLint.Proofs.Lint.Isolation

namespace PageLint

set_option autoImplicit false

namespace Checker

variable {c : Checker} {r : Rule} {path : Path} {doc : Document}

/-- **What goes under a reserved id is reported, whatever the comments say.** -/
theorem filter_examine_reserved {id : String} (reserved : isReserved id) :
    (c.examine path doc).diagnostics.filter (·.ruleId == id) =
      (report ((c.found path doc).filter (·.ruleId == id))).map
        (c.decorate doc.source.lineTable) := by
  have heard : ∀ d ∈ (c.found path doc).filter (·.ruleId == id),
      (!(Suppressions.ofDocument doc).isSuppressed id d.line) = true := by
    intro d _
    simp [Suppressions.isSuppressed, reserved]
  rw [filter_examine, List.filter_eq_self.mpr heard]

theorem checkFile_eq {reader : Reader} (reads : Reader.for? c.readers path = some reader)
    (text : List Char) :
    c.checkFile path text = .ok (c.examine path (reader.read text)).diagnostics := by
  rw [checkFile, checkInput_eq reads]
  rfl

theorem mem_examine_reserved {id : String} (reserved : isReserved id) {d : Diagnostic} :
    d ∈ (c.examine path doc).diagnostics ∧ d.ruleId = id ↔
      ∃ e ∈ report ((c.found path doc).filter (·.ruleId == id)),
        c.decorate doc.source.lineTable e = d := by
  rw [← List.mem_map, ← filter_examine_reserved reserved, List.mem_filter, beq_iff_eq]

/-! ## Failures of rules -/

/-- The failure of a rule in a document, as a finding. -/
def failure? (path : Path) (doc : Document) (r : Rule) : Option Diagnostic :=
  (r.firstFailure? doc (.source :: doc.subjects)).map fun (s, reason) => r.failureOn path s reason

theorem failure?_eq_some {d : Diagnostic} : failure? path doc r = some d ↔
    ∃ s reason, r.firstFailure? doc (.source :: doc.subjects) = some (s, reason) ∧
      r.failureOn path s reason = d := by
  simp [failure?]

theorem message_failure? {d : Diagnostic} (fails : d ∈ failure? path doc r) :
    d.ruleId = ruleFailureId ∧ d.message = r.failureMessage := by
  obtain ⟨s, reason, -, rfl⟩ := failure?_eq_some.mp fails
  exact ⟨rfl, rfl⟩

/-- The failures of the rules that run. -/
def failures (c : Checker) (path : Path) (doc : Document) : List Diagnostic :=
  c.enabledRules.flatMap fun r => (failure? path doc r).toList

/-- **Failures of rules are all that goes under their id.** -/
theorem filter_found_ruleFailure :
    (c.found path doc).filter (·.ruleId == ruleFailureId) = c.failures path doc := by
  have issues : (doc.issues.map (·.diagnostic path)).filter (·.ruleId == ruleFailureId) = [] := by
    apply List.filter_eq_nil_iff.mpr
    intro d isIssue
    obtain ⟨issue, -, rfl⟩ := List.mem_map.mp isIssue
    simp [ParseIssue.diagnostic, parseErrorId, ruleFailureId]
  rw [found, List.filter_append, issues, List.nil_append, List.filter_flatMap, failures]
  apply List.flatMap_congr
  intro r enabled
  have unreserved := c.companions_enabledRules.unreserved r enabled
  have reports : (c.reported path doc r).filter (·.ruleId == ruleFailureId) = [] := by
    apply List.filter_eq_nil_iff.mpr
    intro d member
    simpa [ruleId_reported d member] using (Rule.ne_of_unreserved unreserved).2
  have fails : (failure? path doc r).toList.filter (·.ruleId == ruleFailureId) =
      (failure? path doc r).toList := by
    apply List.filter_eq_self.mpr
    intro d member
    exact beq_iff_eq.mpr (message_failure? (Option.mem_toList.mp member)).1
  have run : (c.runRule path doc r).diagnostics =
      c.reported path doc r ++ (failure? path doc r).toList := by
    rw [runRule, Rule.runOver_eq, failure?]
    cases r.firstFailure? doc (.source :: doc.subjects) <;> rfl
  rw [run, List.filter_append, reports, fails, List.nil_append]

/-- Of the failures, one at most is of a rule. -/
theorem filter_failures (enabled : r ∈ c.enabledRules) :
    (c.failures path doc).filter (·.message == r.failureMessage) =
      (failure? path doc r).toList := by
  have companions := c.companions_enabledRules
  have told : ∀ s : Rule, ∀ d ∈ (failure? path doc s).toList, d.message = s.failureMessage :=
    fun s d member => (message_failure? (Option.mem_toList.mp member)).2
  refine filter_flatMap_own (p := fun s d => d.message == s.failureMessage)
    (fun s _ d member => beq_iff_eq.mpr (told s d member)) ?_ enabled
  refine (List.pairwise_map.mp companions.distinct).imp fun {s t} apart => ⟨?_, ?_⟩
  · intro d member
    simpa [told s d member] using fun same => apart (Rule.failureMessage_inj same)
  · intro d member
    simpa [told t d member] using fun same => apart.symm (Rule.failureMessage_inj same)

/-- **A failure is reported, once, where no other rule fails at its stretch.** -/
theorem report_failures_of_alone (enabled : r ∈ c.enabledRules) {d : Diagnostic}
    (fails : d ∈ failure? path doc r)
    (alone : ∀ e ∈ c.failures path doc, e.span = d.span → e = d) :
    (report (c.failures path doc)).filter (·.message == r.failureMessage) = [d] := by
  have isFailure : d ∈ c.failures path doc :=
    List.mem_flatMap.mpr ⟨r, enabled, Option.mem_toList.mpr fails⟩
  have reported : d ∈ (report (c.failures path doc)).filter (·.message == r.failureMessage) := by
    refine List.mem_filter.mpr ⟨mem_report_of_unrepeated isFailure fun e member again => ?_,
      beq_iff_eq.mpr (message_failure? fails).2⟩
    exact alone e member (Diagnostic.repeats_iff.mp again).2.2.symm
  have fewer := (dropRepeats_sublist ((c.failures path doc).mergeSort
    fun a b => (a.compare b).isLE)).filter (·.message == r.failureMessage)
  rw [filter_sorted, filter_failures enabled, Option.mem_def.mp fails, Option.toList_some,
    List.mergeSort_singleton] at fewer
  rcases List.sublist_singleton.mp fewer with none_ | one
  · rw [report, none_] at reported
    cases reported
  · exact one

/-- What goes under the id of failures is of a rule that runs. -/
theorem failure_of_mem {d : Diagnostic} (listed : d ∈ (c.examine path doc).diagnostics)
    (under : d.ruleId = ruleFailureId) : ∃ r ∈ c.enabledRules, ∃ e ∈ failure? path doc r,
      d = c.decorate doc.source.lineTable e := by
  obtain ⟨e, reported, rfl⟩ := (mem_examine_reserved (by decide)).mp ⟨listed, under⟩
  rw [filter_found_ruleFailure] at reported
  obtain ⟨r, enabled, fails⟩ := List.mem_flatMap.mp (mem_of_mem_report reported)
  exact ⟨r, enabled, e, Option.mem_toList.mp fails, rfl⟩

/-- Where a rule fails, a failure is reported, of it or of another one. -/
theorem exists_failure_at (enabled : r ∈ c.enabledRules) {d : Diagnostic}
    (fails : d ∈ failure? path doc r) : ∃ e ∈ (c.examine path doc).diagnostics,
      e.ruleId = ruleFailureId ∧ e.span = d.span ∧ e.message ≤ d.message := by
  have isListed : d ∈ c.failures path doc :=
    List.mem_flatMap.mpr ⟨r, enabled, Option.mem_toList.mpr fails⟩
  obtain ⟨k, reported, again, ordered⟩ := exists_mem_report isListed
  obtain ⟨-, -, span⟩ := Diagnostic.repeats_iff.mp again
  rw [← filter_found_ruleFailure] at reported
  obtain ⟨listed, under⟩ := (mem_examine_reserved (by decide)).mpr ⟨k, reported, rfl⟩
  exact ⟨_, listed, under, span.symm, (Diagnostic.isLE_iff_of_repeats again).mp ordered⟩

/-- **A failure is returned, once, where no other rule fails at its stretch.** -/
theorem failure_of_alone (enabled : r ∈ c.enabledRules) {d : Diagnostic}
    (fails : d ∈ failure? path doc r)
    (alone : ∀ r' ∈ c.enabledRules, ∀ e ∈ failure? path doc r', e.span = d.span → r' = r) :
    ((c.examine path doc).diagnostics.filter fun e =>
      e.ruleId == ruleFailureId && e.message == r.failureMessage) =
        [c.decorate doc.source.lineTable d] := by
  have only : ∀ e ∈ c.failures path doc, e.span = d.span → e = d := by
    intro e member span
    obtain ⟨r', enabled', fails'⟩ := List.mem_flatMap.mp member
    obtain rfl := alone r' enabled' e (Option.mem_toList.mp fails') span
    exact Option.some.inj ((Option.mem_toList.mp fails').symm.trans fails)
  have kept := report_failures_of_alone enabled fails only
  have decorated : ((·.message == r.failureMessage) ∘ c.decorate doc.source.lineTable) =
      (·.message == r.failureMessage) := rfl
  rw [← List.filter_filter, List.filter_comm, filter_examine_reserved (by decide),
    filter_found_ruleFailure, List.filter_map, decorated, kept, List.map_singleton]

/-- **Failures of rules in the check of a file.** Each one that it returns is of a rule that runs,
where the rule first fails, with the reason. For each rule that fails it returns a failure at the
stretch where the rule first fails; and the rule's own, once, where no other rule first fails at
that stretch. -/
theorem checkFile_failures (c : Checker) {reader : Reader} {path : Path}
    (reads : Reader.for? c.readers path = some reader) (text : List Char) :
    let doc := reader.read text
    ∃ found, c.checkFile path text = .ok found ∧
      (∀ d ∈ found, d.ruleId = ruleFailureId → ∃ r ∈ c.enabledRules, ∃ s reason,
        r.firstFailure? doc (.source :: doc.subjects) = some (s, reason) ∧
          d = c.decorate doc.source.lineTable (r.failureOn path s reason)) ∧
      ∀ r ∈ c.enabledRules, ∀ s reason,
        r.firstFailure? doc (.source :: doc.subjects) = some (s, reason) →
          (∃ d ∈ found, d.ruleId = ruleFailureId ∧ d.span = (r.failureOn path s reason).span ∧
            d.message ≤ r.failureMessage) ∧
          ((∀ r' ∈ c.enabledRules, ∀ s' reason',
              r'.firstFailure? doc (.source :: doc.subjects) = some (s', reason') →
                (r'.failureOn path s' reason').span = (r.failureOn path s reason).span → r' = r) →
            (found.filter fun d => d.ruleId == ruleFailureId && d.message == r.failureMessage) =
              [c.decorate doc.source.lineTable (r.failureOn path s reason)]) := by
  intro doc
  refine ⟨_, checkFile_eq reads text, ?_, ?_⟩
  · intro d listed under
    obtain ⟨r, enabled, e, fails, rfl⟩ := failure_of_mem listed under
    obtain ⟨s, reason, first, rfl⟩ := failure?_eq_some.mp fails
    exact ⟨r, enabled, s, reason, first, rfl⟩
  · intro r enabled s reason first
    have fails : r.failureOn path s reason ∈ failure? path doc r :=
      failure?_eq_some.mpr ⟨s, reason, first, rfl⟩
    refine ⟨exists_failure_at enabled fails, fun alone => failure_of_alone enabled fails ?_⟩
    intro r' enabled' e fails' span
    obtain ⟨s', reason', first', rfl⟩ := failure?_eq_some.mp fails'
    exact alone r' enabled' s' reason' first' span

/-- Of two rules of which one fails at once and the other later, the failure of the second. -/
theorem checkFile_failures_touchy :
    Reader.for? touchyChecker.readers ⟨"a.css"⟩ = some .css ∧
      ∃ found, touchyChecker.checkFile ⟨"a.css"⟩ importantText = .ok found ∧
        ∃ d ∈ found, d.ruleId = ruleFailureId ∧ d.message ≤ touchyRule.failureMessage := by
  have enabled : touchyRule ∈ touchyChecker.enabledRules :=
    List.mem_filter.mpr ⟨by simp [touchyChecker], by decide⟩
  have fails : (touchyRule.firstFailure? (Reader.css.read importantText)
      (.source :: (Reader.css.read importantText).subjects)).isSome := by decide +kernel
  obtain ⟨⟨s, reason⟩, first⟩ := Option.isSome_iff_exists.mp fails
  have reads : Reader.for? touchyChecker.readers ⟨"a.css"⟩ = some .css := by decide
  obtain ⟨found, checked, -, each⟩ := checkFile_failures touchyChecker reads importantText
  obtain ⟨⟨d, listed, under, -, message⟩, -⟩ := each touchyRule enabled s reason first
  exact ⟨reads, found, checked, d, listed, under, message⟩

/-- Another rule that fails at once. -/
def crackedRule : Rule := { brokenRule with id := "cracked" }

/-- A checker that runs two rules of which each fails at once. -/
def crackedChecker : Checker where
  catalog := { rules := [brokenRule, crackedRule], distinct := by decide, unreserved := by decide }
  config := .only ["broken", "cracked"]

/-- Two rules fail on the source, and the check tells of one. -/
theorem failures_share_source :
    crackedRule ∈ crackedChecker.enabledRules ∧
      crackedRule.firstFailure? (Reader.css.read []) (.source :: (Reader.css.read []).subjects) =
        some (.source, "cannot handle anything") ∧
      crackedChecker.checkFile ⟨"a.css"⟩ [] = .ok [crackedChecker.decorate
        (Source.lineTable ⟨[]⟩) (brokenRule.failureOn ⟨"a.css"⟩ .source "cannot handle anything")] := by
  refine ⟨List.mem_filter.mpr ⟨by simp [crackedChecker], by decide⟩, by rfl, ?_⟩
  have heard : crackedChecker.heard ⟨"a.css"⟩ (Reader.css.read []) =
      [brokenRule.failureOn ⟨"a.css"⟩ .source "cannot handle anything",
        crackedRule.failureOn ⟨"a.css"⟩ .source "cannot handle anything"] := by
    decide +kernel
  have reads : Reader.for? crackedChecker.readers ⟨"a.css"⟩ = some .css := by decide
  rw [checkFile_eq reads, diagnostics_examine, heard, report,
    List.mergeSort_of_pairwise]
  · rfl
  · decide +kernel

/-! ## Faults of structure -/

theorem filter_found_parseError :
    (c.found path doc).filter (·.ruleId == parseErrorId) = doc.issues.map (·.diagnostic path) :=
  filter_part_none (c.owned_runs path doc)

theorem issue_eq {i j : ParseIssue} (message : i.message = j.message) (span : i.span = j.span) :
    i = j := by
  cases i
  cases j
  simp only at message span
  rw [message, span]

/-- Of the faults at a stretch the one is reported whose message comes first. -/
theorem mem_report_issues {text : List Char} {language : Language} {i : ParseIssue} :
    i.diagnostic path ∈ report ((Document.ofText language text).issues.map (·.diagnostic path)) ↔
      i ∈ (Document.ofText language text).issues ∧
        ∀ j ∈ (Document.ofText language text).issues, j.span = i.span → i.message ≤ j.message := by
  have raw : ∀ d ∈ (Document.ofText language text).issues.map (·.diagnostic path),
      d.Raw text path := by
    intro d member
    obtain ⟨issue, isIssue, rfl⟩ := List.mem_map.mp member
    exact ⟨rfl, Document.covers_issues language text issue isIssue, rfl⟩
  have tidy := Tidy.of_raw raw
  have again : ∀ i j : ParseIssue,
      (j.diagnostic path).repeats (i.diagnostic path) ↔ j.span = i.span := by
    simp [Diagnostic.repeats_iff, ParseIssue.diagnostic]
  have injective : ∀ i j : ParseIssue, i.diagnostic path = j.diagnostic path → i = j :=
    fun i j same => issue_eq (congrArg Diagnostic.message same) (congrArg Diagnostic.span same)
  rw [mem_report_iff tidy]
  · constructor
    · rintro ⟨member, least⟩
      obtain ⟨i', isIssue, same⟩ := List.mem_map.mp member
      obtain rfl := injective i' i same
      refine ⟨isIssue, fun j isIssue' span => ?_⟩
      have repeated := (again i' j).mpr span
      exact (Diagnostic.isLE_iff_of_repeats repeated).mp
        (least _ (List.mem_map_of_mem isIssue') repeated)
    · rintro ⟨isIssue, least⟩
      refine ⟨List.mem_map_of_mem isIssue, fun e member repeated => ?_⟩
      obtain ⟨j, isIssue', rfl⟩ := List.mem_map.mp member
      exact (Diagnostic.isLE_iff_of_repeats repeated).mpr
        (least j isIssue' ((again i j).mp repeated))
  · intro a one b other alike
    have repeated := tidy.places a one b other (Diagnostic.comparePlace_of_compare alike)
    obtain ⟨i, -, rfl⟩ := List.mem_map.mp one
    obtain ⟨j, -, rfl⟩ := List.mem_map.mp other
    simp only [Diagnostic.compare, Ordering.then_eq_eq, compare_eq_iff_eq] at alike
    rw [issue_eq alike.2.2.2.2.2 ((again i j).mp repeated).symm]

/-- **Faults of structure in the check of a file.** What it returns as faults are the faults of
the document: at each stretch the one whose message comes first, and no other. -/
theorem checkFile_faults (c : Checker) {reader : Reader} {path : Path}
    (reads : Reader.for? c.readers path = some reader) (text : List Char) :
    ∃ found, c.checkFile path text = .ok found ∧ ∀ (message : String) (span : Span),
      (∃ d ∈ found, d.ruleId = parseErrorId ∧ d.severity = .error ∧ d.message = message ∧
          d.span = span) ↔
        ⟨message, span⟩ ∈ (reader.read text).issues ∧
          ∀ other, ⟨other, span⟩ ∈ (reader.read text).issues → message ≤ other := by
  refine ⟨_, checkFile_eq reads text, fun message span => ?_⟩
  have least : (ParseIssue.mk message span).diagnostic path ∈
      report ((reader.read text).issues.map (·.diagnostic path)) ↔ _ := mem_report_issues
  rw [← filter_found_parseError (c := c)] at least
  constructor
  · rintro ⟨d, member, under, -, rfl, rfl⟩
    obtain ⟨e, reported, rfl⟩ := (mem_examine_reserved (by decide)).mp ⟨member, under⟩
    have isIssue := mem_of_mem_report reported
    rw [filter_found_parseError] at isIssue
    obtain ⟨issue, -, rfl⟩ := List.mem_map.mp isIssue
    obtain ⟨found, first⟩ := least.mp reported
    exact ⟨found, fun other isOther => first ⟨other, _⟩ isOther rfl⟩
  · rintro ⟨isIssue, first⟩
    have reported := least.mpr ⟨isIssue, by
      rintro ⟨other, _⟩ isOther rfl
      exact first other isOther⟩
    obtain ⟨listed, under⟩ := (mem_examine_reserved (by decide)).mpr ⟨_, reported, rfl⟩
    exact ⟨_, listed, under, rfl, rfl, rfl⟩

/-- A page that breaks off in an end tag, of an element that has none. -/
def brokenPage : List Char := "</br".toList

/-- All of it. -/
def brokenTag : Span := ⟨⟨0, 1, 1⟩, ⟨4, 1, 5⟩⟩

theorem issues_brokenPage : (Reader.html.read brokenPage).issues =
    [⟨"unterminated </br> tag", brokenTag⟩,
      ⟨"void element <br> must not have an end tag", brokenTag⟩] := by
  decide +kernel

theorem checkFile_faults_brokenPage :
    Reader.for? [.css, .html] ⟨"a.html"⟩ = some .html ∧
      ∃ found, ({ config := .only [] } : Checker).checkFile ⟨"a.html"⟩ brokenPage = .ok found ∧
        ∃ d ∈ found, d.ruleId = parseErrorId ∧ d.severity = .error ∧
          d.message = "unterminated </br> tag" ∧ d.span = brokenTag := by
  have reads : Reader.for? [.css, .html] ⟨"a.html"⟩ = some .html := by decide
  obtain ⟨found, checked, each⟩ := checkFile_faults { config := .only [] } reads brokenPage
  refine ⟨reads, found, checked, (each _ _).mpr ?_⟩
  have ordered : "unterminated </br> tag" ≤ "void element <br> must not have an end tag" := by
    decide +kernel
  simp [issues_brokenPage, ordered]

/-- Of the two faults of the page the check tells one. -/
theorem faults_share_stretch :
    (⟨"void element <br> must not have an end tag", brokenTag⟩ : ParseIssue) ∈
        (Reader.html.read brokenPage).issues ∧
      ({ config := .only [] } : Checker).checkFile ⟨"a.html"⟩ brokenPage =
        .ok [({} : Checker).decorate (Source.lineTable ⟨brokenPage⟩)
          (ParseIssue.diagnostic ⟨"unterminated </br> tag", brokenTag⟩ ⟨"a.html"⟩)] := by
  refine ⟨by simp [issues_brokenPage], ?_⟩
  have heard : ({ config := .only [] } : Checker).heard ⟨"a.html"⟩ (Reader.html.read brokenPage) =
      [ParseIssue.diagnostic ⟨"unterminated </br> tag", brokenTag⟩ ⟨"a.html"⟩,
        ParseIssue.diagnostic ⟨"void element <br> must not have an end tag", brokenTag⟩
          ⟨"a.html"⟩] := by
    decide +kernel
  have reads : Reader.for? [.css, .html] ⟨"a.html"⟩ = some .html := by decide
  rw [checkFile_eq reads, diagnostics_examine, heard, report,
    List.mergeSort_of_pairwise]
  · rfl
  · decide +kernel

end Checker

end PageLint
