/-
# PageLint.Proofs.Lint.Turns — rules that take turns

A walk asks the rules of a checker in turn and keeps one list for all that they find, one for
the account of their work and one for the rules that have failed. What it has come to for one
rule is what these lists hold of the rule (`Walk.of`). A turn of another rule leaves that as it
is (`of_ask_other`), a turn of the rule itself does to it what it does to the walk
(`of_ask_self`). So what a walk comes to for a rule is what the rule comes to when it is alone
(`diagnostics_walk_of`, `timings_walk_of`), and a report cannot tell the walk from the runs of
the rules, one after the other (`report_walk`).
-/
import PageLint.Proofs.Lint.Parts
import PageLint.Proofs.Lint.Runs

namespace PageLint

set_option autoImplicit false

/-! ## Accounts -/

namespace Timing

/-- Accounts in ascending order of the rules, one for each. -/
def Ascending (ts : List Timing) : Prop := ts.Pairwise fun t u => t.ruleId < u.ruleId

theorem ruleId_mem_absorb {u t : Timing} {ts : List Timing} (member : t ∈ absorb u ts) :
    t.ruleId = u.ruleId ∨ ∃ t' ∈ ts, t.ruleId = t'.ruleId := by
  induction ts with
  | nil => exact .inl (congrArg ruleId (List.mem_singleton.mp member))
  | cons v vs ih =>
      rw [absorb] at member
      split at member
      · rcases List.mem_cons.mp member with rfl | later
        · exact .inl rfl
        · exact .inr ⟨t, later, rfl⟩
      · split at member
        · rcases List.mem_cons.mp member with rfl | later
          · exact .inr ⟨v, List.mem_cons_self, rfl⟩
          · exact .inr ⟨t, List.mem_cons_of_mem _ later, rfl⟩
        · rcases List.mem_cons.mp member with rfl | later
          · exact .inr ⟨t, List.mem_cons_self, rfl⟩
          · exact (ih later).imp id fun ⟨t', inside, same⟩ => ⟨t', List.mem_cons_of_mem _ inside, same⟩

theorem Ascending.absorb {ts : List Timing} (ascending : Ascending ts) (u : Timing) :
    Ascending (absorb u ts) := by
  induction ts with
  | nil => exact List.pairwise_singleton _ _
  | cons t ts ih =>
      obtain ⟨first, rest⟩ := List.pairwise_cons.mp ascending
      rw [Timing.absorb]
      split
      next less =>
        refine List.pairwise_cons.mpr ⟨List.forall_mem_cons.mpr ⟨less, fun v later => ?_⟩, ascending⟩
        exact less.trans (first v later)
      next notLess =>
        split
        · exact List.pairwise_cons.mpr ⟨first, rest⟩
        next different =>
          have greater : t.ruleId < u.ruleId := lt_of_le_of_ne (le_of_not_gt notLess) (Ne.symm different)
          refine List.pairwise_cons.mpr ⟨fun v member => ?_, ih rest⟩
          rcases ruleId_mem_absorb member with same | ⟨v', inside, same⟩
          · rw [same]
            exact greater
          · rw [same]
            exact first v' inside

/-- The account of one rule leaves those of the others as they are. -/
theorem filter_absorb_other {u : Timing} {id : String} (other : (u.ruleId == id) = false)
    (ts : List Timing) :
    (absorb u ts).filter (·.ruleId == id) = ts.filter (·.ruleId == id) := by
  induction ts with
  | nil => simp [absorb, other]
  | cons t ts ih =>
      rw [absorb]
      split
      · simp [other]
      · split
        next same =>
          have kept : (t.ruleId == id) = false := by rw [← same, other]
          simp [add, kept]
        · rw [List.filter_cons, List.filter_cons, ih]

/-- What is added to the account of a rule is added there, among those of all rules or alone. -/
theorem Ascending.filter_absorb {ts : List Timing} (ascending : Ascending ts) (u : Timing) :
    (Timing.absorb u ts).filter (·.ruleId == u.ruleId) =
      Timing.absorb u (ts.filter (·.ruleId == u.ruleId)) := by
  induction ts with
  | nil => simp [Timing.absorb]
  | cons t ts ih =>
      obtain ⟨first, rest⟩ := List.pairwise_cons.mp ascending
      rw [Timing.absorb]
      split
      next less =>
        have none_ : (t :: ts).filter (·.ruleId == u.ruleId) = [] := by
          apply List.filter_eq_nil_iff.mpr
          intro v member
          have greater : u.ruleId < v.ruleId := by
            rcases List.mem_cons.mp member with rfl | later
            · exact less
            · exact less.trans (first v later)
          simpa using greater.ne'
        rw [List.filter_cons_of_pos (by simp), none_]
        rfl
      · split
        next same => simp [Timing.absorb, add, same]
        next different =>
          have other : (t.ruleId == u.ruleId) = false := by simpa using Ne.symm different
          rw [List.filter_cons_of_neg (by simp [other]), List.filter_cons_of_neg (by simp [other]),
            ih rest]

end Timing

/-! ## What is of a rule -/

namespace Rule

variable {r s : Rule} {file : Path}

/-- Whether a finding is made by a rule or is its failure. -/
def owns (r : Rule) (d : Diagnostic) : Bool :=
  d.ruleId == r.id || (d.ruleId == ruleFailureId && d.message == r.failureMessage)

theorem failureMessage_inj (same : r.failureMessage = s.failureMessage) : r.id = s.id := by
  simpa [failureMessage, String.append_assoc] using same

@[simp] theorem owns_diagnostic (severity : Severity) (f : Finding) :
    r.owns (r.diagnostic severity file f) = true := by
  simp [owns, diagnostic]

@[simp] theorem owns_failureOn (subject : Subject) (reason : String) :
    r.owns (r.failureOn file subject reason) = true := by
  simp [owns, failureOn]

theorem ne_of_unreserved (unreserved : isReserved r.id = false) :
    r.id ≠ parseErrorId ∧ r.id ≠ ruleFailureId := by
  simpa [isReserved] using unreserved

/-- What is of a rule is no fault of structure. -/
theorem ruleId_ne_parseError (unreserved : isReserved r.id = false) {d : Diagnostic}
    (owned : r.owns d = true) : d.ruleId ≠ parseErrorId := by
  rw [owns, Bool.or_eq_true, Bool.and_eq_true, beq_iff_eq, beq_iff_eq, beq_iff_eq] at owned
  rcases owned with id | ⟨failure, -⟩
  · rw [id]
    exact (ne_of_unreserved unreserved).1
  · rw [failure]
    decide

/-- What is of one rule is of no other. -/
theorem owns_disjoint (unreserved : isReserved r.id = false) (unreserved' : isReserved s.id = false)
    (apart : s.id ≠ r.id) {d : Diagnostic} (owned : s.owns d = true) : r.owns d = false := by
  have mine := (ne_of_unreserved unreserved).2
  have theirs := (ne_of_unreserved unreserved').2
  rw [owns, Bool.or_eq_true, Bool.and_eq_true, beq_iff_eq, beq_iff_eq, beq_iff_eq] at owned
  rcases owned with id | ⟨failure, message⟩
  · simp [owns, id, apart, theirs]
  · have texts : s.failureMessage ≠ r.failureMessage := fun same => apart (failureMessage_inj same)
    simp [owns, failure, message, mine.symm, texts]

/-- Findings that are alike in order are of the same rule. -/
theorem owns_eq_of_compare {a b : Diagnostic} (alike : a.compare b = .eq) : r.owns a = r.owns b := by
  simp only [Diagnostic.compare, Ordering.then_eq_eq, compare_eq_iff_eq] at alike
  obtain ⟨-, -, -, id, -, message⟩ := alike
  rw [owns, owns, id, message]

theorem owns_runOver (severity : Severity) (doc : Document) (subjects : List Subject) :
    ∀ d ∈ (r.runOver severity file doc subjects).diagnostics, r.owns d := by
  intro d member
  rw [runOver_eq] at member
  rcases List.mem_append.mp member with found | failure
  · obtain ⟨subject, -, found⟩ := List.mem_flatMap.mp found
    obtain ⟨-, -, f, -, rfl⟩ := mem_found found
    exact owns_diagnostic severity f
  · obtain ⟨⟨subject, reason⟩, -, rfl⟩ := List.mem_map.mp failure
    exact owns_failureOn subject reason

end Rule

namespace Walk

/-- What a walk has come to for one rule. -/
def of (w : Walk) (r : Rule) : Walk where
  diagnostics := w.diagnostics.filter r.owns
  timings := w.timings.filter (·.ruleId == r.id)
  failed := w.failed.filter (· == r.id)

end Walk

/-! ## Turns -/

namespace Checker

variable {c : Checker} {file : Path} {doc : Document} {subject : Subject} {w : Walk} {r s : Rule}

/-- **A rule's turn**: nothing, if the rule does not look at the subject or has failed; else it
adds findings or its failure, and to its account. -/
theorem ask_cases (c : Checker) (file : Path) (doc : Document) (subject : Subject) (w : Walk)
    (r : Rule) :
    c.ask file doc subject w r = w ∨
      ∃ ds t fs, (∀ d ∈ ds, r.owns d) ∧ t.ruleId = r.id ∧ (∀ id ∈ fs, id = r.id) ∧
        c.ask file doc subject w r =
          { diagnostics := w.diagnostics ++ ds, timings := Timing.absorb t w.timings,
            failed := fs ++ w.failed } := by
  unfold ask
  split
  · right
    split
    next found _ =>
      refine ⟨_, _, [], ?_, rfl, by simp, rfl⟩
      intro d member
      obtain ⟨f, -, rfl⟩ := List.mem_map.mp member
      exact Rule.owns_diagnostic _ f
    next reason _ => exact ⟨_, _, [r.id], by simp, rfl, by simp, rfl⟩
  · exact .inl rfl

theorem ascending_ask (ascending : Timing.Ascending w.timings) :
    Timing.Ascending (c.ask file doc subject w r).timings := by
  rcases c.ask_cases file doc subject w r with same | ⟨ds, t, fs, -, -, -, turn⟩
  · rwa [same]
  · rw [turn]
    exact ascending.absorb t

/-- **A turn of another rule leaves what is of a rule as it is.** -/
theorem of_ask_other (unreserved : isReserved r.id = false) (unreserved' : isReserved s.id = false)
    (apart : s.id ≠ r.id) : (c.ask file doc subject w s).of r = w.of r := by
  rcases c.ask_cases file doc subject w s with same | ⟨ds, t, fs, owned, id, failed, turn⟩
  · rw [same]
  · have others : ds.filter r.owns = [] := by
      apply List.filter_eq_nil_iff.mpr
      intro d member
      simp [Rule.owns_disjoint unreserved unreserved' apart (owned d member)]
    have account : (t.ruleId == r.id) = false := by simpa [id] using apart
    have failures : fs.filter (· == r.id) = [] := by
      apply List.filter_eq_nil_iff.mpr
      intro a member
      simpa [failed a member] using apart
    rw [turn]
    simp [Walk.of, others, failures, Timing.filter_absorb_other account]

/-- **A rule's own turn sees of a walk only what is of the rule.** -/
theorem of_ask_self (ascending : Timing.Ascending w.timings) :
    (c.ask file doc subject w r).of r = c.ask file doc subject (w.of r) r := by
  have failed : (w.of r).failed.contains r.id = w.failed.contains r.id := by
    simp [Walk.of]
  unfold ask
  rw [failed]
  split
  · split
    next found _ =>
      have owned : ∀ f, r.owns (r.diagnostic (c.severityOf r) file f) := Rule.owns_diagnostic _
      have account := ascending.filter_absorb
        { ruleId := r.id, evaluations := 1, findings := found.length }
      simp [Walk.of, List.filter_map, Function.comp_def, account]
    next reason _ =>
      have account := ascending.filter_absorb { ruleId := r.id, evaluations := 1 }
      simp [Walk.of, account]
  · rfl

/-! ## Walks -/

theorem ascending_visit {rules : List Rule} (ascending : Timing.Ascending w.timings) :
    Timing.Ascending (c.visit file doc rules w subject).timings := by
  induction rules generalizing w with
  | nil => exact ascending
  | cons r rules ih => exact ih (ascending_ask ascending)

theorem of_visit_others {rules : List Rule} (unreserved : isReserved r.id = false)
    (others : ∀ s ∈ rules, isReserved s.id = false ∧ s.id ≠ r.id) :
    (c.visit file doc rules w subject).of r = w.of r := by
  induction rules generalizing w with
  | nil => rfl
  | cons s rules ih =>
      obtain ⟨⟨unreserved', apart⟩, rest⟩ := List.forall_mem_cons.mp others
      exact (ih rest).trans (of_ask_other unreserved unreserved' apart)

/-- Rules that may share a walk: their ids differ, and none is reserved. -/
structure Companions (rules : List Rule) : Prop where
  distinct : (rules.map Rule.id).Nodup
  unreserved : ∀ r ∈ rules, isReserved r.id = false

theorem companions_enabledRules (c : Checker) : Companions c.enabledRules where
  distinct := c.catalog.distinct.sublist (List.filter_sublist.map Rule.id)
  unreserved r member := c.catalog.unreserved r (List.mem_of_mem_filter member)

/-- **A round of turns comes to the rule's own turn**, as far as the rule is concerned. -/
theorem of_visit {rules : List Rule} (companions : Companions rules) (member : r ∈ rules)
    (ascending : Timing.Ascending w.timings) :
    (c.visit file doc rules w subject).of r = c.ask file doc subject (w.of r) r := by
  obtain ⟨front, back, rfl⟩ := List.append_of_mem member
  have unreserved := companions.unreserved r member
  have distinct := companions.distinct
  rw [List.map_append, List.map_cons, List.nodup_append, List.nodup_cons] at distinct
  obtain ⟨-, ⟨notBehind, -⟩, apart⟩ := distinct
  have before : ∀ s ∈ front, isReserved s.id = false ∧ s.id ≠ r.id := fun s inside =>
    ⟨companions.unreserved s (List.mem_append_left _ inside),
      apart s.id (List.mem_map_of_mem inside) r.id List.mem_cons_self⟩
  have behind : ∀ s ∈ back, isReserved s.id = false ∧ s.id ≠ r.id := fun s inside =>
    ⟨companions.unreserved s (List.mem_append_right _ (List.mem_cons_of_mem _ inside)),
      fun same => notBehind (same ▸ List.mem_map_of_mem inside)⟩
  have turns : c.visit file doc (front ++ r :: back) w subject =
      c.visit file doc back
        (c.ask file doc subject (c.visit file doc front w subject) r) subject := by
    rw [visit, List.foldl_append]
    rfl
  rw [turns, of_visit_others unreserved behind, of_ask_self (ascending_visit ascending),
    of_visit_others unreserved before]

/-- A rule's turns alone, subject by subject. -/
def askAlone (c : Checker) (file : Path) (doc : Document) (r : Rule) (w : Walk)
    (subjects : List Subject) : Walk :=
  subjects.foldl (fun w subject => c.ask file doc subject w r) w

theorem of_foldl_visit {rules : List Rule} (companions : Companions rules) (member : r ∈ rules)
    (subjects : List Subject) (ascending : Timing.Ascending w.timings) :
    (subjects.foldl (c.visit file doc rules) w).of r = c.askAlone file doc r (w.of r) subjects := by
  induction subjects generalizing w with
  | nil => rfl
  | cons subject rest ih =>
      rw [List.foldl_cons, ih (ascending_visit ascending), of_visit companions member ascending]
      rfl

/-- A rule that has failed is not asked again. -/
theorem askAlone_failed (failed : r.id ∈ w.failed) (subjects : List Subject) :
    c.askAlone file doc r w subjects = w := by
  induction subjects with
  | nil => rfl
  | cons subject rest ih =>
      have silent : c.ask file doc subject w r = w := by
        simp [ask, failed]
      rw [askAlone, List.foldl_cons, silent]
      exact ih

/-- What is added to the account of a run is the account of a longer one. -/
theorem absorb_account {run : RuleRun} (id : String) (more : RuleRun) (one : more.evaluations = 1)
    (empty : run.evaluations = 0 → run.findings = 0) :
    Timing.absorb { ruleId := id, evaluations := 1, findings := more.findings } (run.account id) =
      (run.add more).account id := by
  rw [RuleRun.account, RuleRun.account, RuleRun.add, one, if_neg (Nat.succ_ne_zero _)]
  split
  next none_ => simp [Timing.absorb, none_, empty none_]
  next => simp [Timing.absorb, Timing.add]

end Checker

/-- A walk that has come to a run of a rule. -/
structure Walk.Holds (w : Walk) (r : Rule) (run : RuleRun) : Prop where
  diagnostics : w.diagnostics = run.diagnostics
  timings : w.timings = run.account r.id
  empty : run.evaluations = 0 → run.findings = 0

namespace Checker

variable {c : Checker} {file : Path} {doc : Document} {w : Walk} {r : Rule} {before : RuleRun}

/-- **Turns of a rule alone make a run.** The induction is on the subjects, and the run that lies
before them changes with it. -/
theorem holds_askAlone (fresh : r.id ∉ w.failed) (holds : w.Holds r before)
    (subjects : List Subject) :
    (c.askAlone file doc r w subjects).Holds r
      (before.add (r.runOver (c.severityOf r) file doc subjects)) := by
  obtain ⟨diagnostics, timings, empty⟩ := holds
  induction subjects generalizing w before with
  | nil => exact ⟨by simp [diagnostics, askAlone, Rule.runOver, RuleRun.add, RuleRun.idle],
      timings, empty⟩
  | cons subject rest ih =>
      rw [askAlone, List.foldl_cons, Rule.runOver]
      cases looks : r.appliesTo subject.target doc.language with
      | false =>
          have silent : c.ask file doc subject w r = w := by simp [ask, looks]
          rw [silent, if_neg Bool.false_ne_true]
          exact ih fresh diagnostics timings empty
      | true =>
          rw [if_pos rfl]
          cases answer : r.check doc subject with
          | error reason =>
              have turn : c.ask file doc subject w r =
                  { diagnostics := w.diagnostics ++ [r.failureOn file subject reason]
                    timings := Timing.absorb { ruleId := r.id, evaluations := 1 } w.timings
                    failed := r.id :: w.failed } := by
                simp [ask, looks, fresh, answer]
              have failed : r.id ∈ (c.ask file doc subject w r).failed := by
                rw [turn]
                exact List.mem_cons_self
              have ends : c.askAlone file doc r (c.ask file doc subject w r) rest =
                  c.ask file doc subject w r := askAlone_failed failed rest
              rw [askAlone] at ends
              rw [ends, turn]
              refine ⟨congrArg (· ++ _) diagnostics, ?_, fun none_ => absurd none_ (Nat.succ_ne_zero _)⟩
              rw [timings]
              exact absorb_account r.id ⟨[r.failureOn file subject reason], 1, 0⟩ rfl empty
          | ok found =>
              have turn : c.ask file doc subject w r =
                  { w with
                    diagnostics := w.diagnostics ++ found.map (r.diagnostic (c.severityOf r) file)
                    timings := Timing.absorb
                      { ruleId := r.id, evaluations := 1, findings := found.length } w.timings } := by
                simp [ask, looks, fresh, answer]
              rw [turn, ← RuleRun.add_assoc]
              refine ih fresh (congrArg (· ++ _) diagnostics) ?_
                fun none_ => absurd none_ (Nat.succ_ne_zero _)
              rw [timings]
              exact absorb_account r.id ⟨_, 1, found.length⟩ rfl empty

/-- No fault of structure is of a rule. -/
theorem filter_owns_issues (unreserved : isReserved r.id = false) :
    (doc.issues.map (·.diagnostic file)).filter r.owns = [] := by
  have different : parseErrorId ≠ ruleFailureId := by decide
  apply List.filter_eq_nil_iff.mpr
  intro d isIssue
  obtain ⟨issue, -, rfl⟩ := List.mem_map.mp isIssue
  simp [Rule.owns, ParseIssue.diagnostic, (Rule.ne_of_unreserved unreserved).1.symm, different]

/-- **What a walk comes to for a rule is the rule's run**, whatever the others do. -/
theorem holds_walk (member : r ∈ c.enabledRules) :
    ((c.walk file doc).of r).Holds r (c.runRule file doc r) := by
  have companions := c.companions_enabledRules
  have issues : (doc.issues.map (·.diagnostic file)).filter r.owns = [] :=
    filter_owns_issues (companions.unreserved r member)
  have start : Timing.Ascending
      ({ diagnostics := doc.issues.map (·.diagnostic file) } : Walk).timings := .nil
  rw [walk, of_foldl_visit companions member _ start, runRule,
    ← RuleRun.idle_add (r.runOver _ _ _ _)]
  exact holds_askAlone List.not_mem_nil ⟨issues, rfl, fun _ => rfl⟩ _

theorem diagnostics_walk_of (member : r ∈ c.enabledRules) :
    (c.walk file doc).diagnostics.filter r.owns = (c.runRule file doc r).diagnostics :=
  (holds_walk member).diagnostics

theorem timings_walk_of (member : r ∈ c.enabledRules) :
    (c.walk file doc).timings.filter (·.ruleId == r.id) = (c.runRule file doc r).account r.id :=
  (holds_walk member).timings

/-! ## All that is found -/

/-- Findings that rules have made. -/
def Owned (rules : List Rule) (ds : List Diagnostic) : Prop := ∀ d ∈ ds, ∃ r ∈ rules, r.owns d

theorem visit_adds {rules all : List Rule} (known : rules ⊆ all) (subject : Subject) (w : Walk) :
    ∃ ds, (c.visit file doc rules w subject).diagnostics = w.diagnostics ++ ds ∧ Owned all ds := by
  induction rules generalizing w with
  | nil => exact ⟨[], (List.append_nil _).symm, nofun⟩
  | cons r rules ih =>
      obtain ⟨isRule, others⟩ := List.cons_subset.mp known
      obtain ⟨ds, later, owned⟩ := ih others (c.ask file doc subject w r)
      have here : ∃ es, (c.ask file doc subject w r).diagnostics = w.diagnostics ++ es ∧
          Owned all es := by
        rcases c.ask_cases file doc subject w r with same | ⟨es, t, fs, mine, -, -, turn⟩
        · exact ⟨[], by rw [same, List.append_nil], nofun⟩
        · exact ⟨es, by rw [turn], fun d inside => ⟨r, isRule, mine d inside⟩⟩
      obtain ⟨es, turn, mine⟩ := here
      refine ⟨es ++ ds, ?_, List.forall_mem_append.mpr ⟨mine, owned⟩⟩
      rw [← List.append_assoc, ← turn, ← later]
      rfl

theorem foldl_visit_adds (rules : List Rule) (subjects : List Subject) (w : Walk) :
    ∃ ds, (subjects.foldl (c.visit file doc rules) w).diagnostics = w.diagnostics ++ ds ∧
      Owned rules ds := by
  induction subjects generalizing w with
  | nil => exact ⟨[], (List.append_nil _).symm, nofun⟩
  | cons subject rest ih =>
      obtain ⟨es, here, mine⟩ : ∃ es, (c.visit file doc rules w subject).diagnostics =
          w.diagnostics ++ es ∧ Owned rules es := visit_adds (List.Subset.refl rules) subject w
      obtain ⟨ds, later, owned⟩ := ih (c.visit file doc rules w subject)
      refine ⟨es ++ ds, ?_, List.forall_mem_append.mpr ⟨mine, owned⟩⟩
      rw [← List.append_assoc, ← here, ← later]
      rfl

/-- **A walk finds faults of structure and what rules make of a document**, and nothing else. -/
theorem diagnostics_walk (c : Checker) (file : Path) (doc : Document) :
    ∃ ds, (c.walk file doc).diagnostics = doc.issues.map (·.diagnostic file) ++ ds ∧
      Owned c.enabledRules ds :=
  foldl_visit_adds c.enabledRules (.source :: doc.subjects) _

/-- What there is to be found: faults of structure, then what each rule makes when it is alone. -/
def found (c : Checker) (file : Path) (doc : Document) : List Diagnostic :=
  doc.issues.map (·.diagnostic file) ++
    c.enabledRules.flatMap fun r => (c.runRule file doc r).diagnostics

theorem owned_runs (c : Checker) (file : Path) (doc : Document) :
    Owned c.enabledRules (c.enabledRules.flatMap fun r => (c.runRule file doc r).diagnostics) := by
  intro d member
  obtain ⟨r, enabled, made⟩ := List.mem_flatMap.mp member
  exact ⟨r, enabled, Rule.owns_runOver _ doc _ d made⟩

/-- Of what there is to be found, the part of a rule is its run. -/
theorem found_of (member : r ∈ c.enabledRules) :
    (c.found file doc).filter r.owns = (c.runRule file doc r).diagnostics := by
  have companions := c.companions_enabledRules
  have issues : (doc.issues.map (·.diagnostic file)).filter r.owns = [] :=
    filter_owns_issues (companions.unreserved r member)
  rw [found, List.filter_append, issues, List.nil_append]
  refine filter_flatMap_own (p := Rule.owns)
    (fun s _ d made => Rule.owns_runOver _ doc _ d made) ?_ member
  refine List.Pairwise.imp_of_mem ?_ (List.pairwise_map.mp companions.distinct)
  intro s t one other apart
  have ofOne := companions.unreserved s one
  have ofOther := companions.unreserved t other
  exact ⟨fun d made => Rule.owns_disjoint ofOther ofOne apart (Rule.owns_runOver _ doc _ d made),
    fun d made => Rule.owns_disjoint ofOne ofOther apart.symm (Rule.owns_runOver _ doc _ d made)⟩

/-- What is found is in parts: faults of structure, and what is of each rule. -/
def part : Option Rule → Diagnostic → Bool
  | none, d => d.ruleId == parseErrorId
  | some r, d => r.owns d

theorem filter_part_none {ds : List Diagnostic} (owned : Owned c.enabledRules ds) :
    (doc.issues.map (·.diagnostic file) ++ ds).filter (part none) =
      doc.issues.map (·.diagnostic file) := by
  have rules : ds.filter (part none) = [] := by
    apply List.filter_eq_nil_iff.mpr
    intro d member
    obtain ⟨r, enabled, mine⟩ := owned d member
    simp [part, Rule.ruleId_ne_parseError (c.companions_enabledRules.unreserved r enabled) mine]
  have issues : (doc.issues.map (·.diagnostic file)).filter (part none) =
      doc.issues.map (·.diagnostic file) := by
    apply List.filter_eq_self.mpr
    intro d member
    obtain ⟨issue, -, rfl⟩ := List.mem_map.mp member
    exact beq_self_eq_true parseErrorId
  rw [List.filter_append, issues, rules, List.append_nil]

theorem mem_part {ds : List Diagnostic} (owned : Owned c.enabledRules ds) {d : Diagnostic}
    (member : d ∈ doc.issues.map (·.diagnostic file) ++ ds) :
    ∃ s ∈ none :: c.enabledRules.map some, part s d := by
  rcases List.mem_append.mp member with isIssue | made
  · obtain ⟨issue, -, rfl⟩ := List.mem_map.mp isIssue
    exact ⟨none, List.mem_cons_self, beq_self_eq_true parseErrorId⟩
  · obtain ⟨r, enabled, mine⟩ := owned d made
    exact ⟨some r, List.mem_cons_of_mem _ (List.mem_map_of_mem enabled), mine⟩

theorem walk_filter_part {s : Option Rule} (member : s ∈ none :: c.enabledRules.map some) :
    (c.walk file doc).diagnostics.filter (part s) = (c.found file doc).filter (part s) := by
  rcases List.mem_cons.mp member with rfl | isRule
  · obtain ⟨ds, all, owned⟩ := c.diagnostics_walk file doc
    rw [all, found, filter_part_none owned, filter_part_none (c.owned_runs file doc)]
  · obtain ⟨r, enabled, rfl⟩ := List.mem_map.mp isRule
    exact (diagnostics_walk_of enabled).trans (found_of enabled).symm

/-- **A report does not tell in which turns its findings were made**: of what a walk finds, and
of what there is to be found rule by rule, it makes the same. -/
theorem report_walk (c : Checker) (file : Path) (doc : Document) (keep : Diagnostic → Bool) :
    report ((c.walk file doc).diagnostics.filter keep) = report ((c.found file doc).filter keep) := by
  obtain ⟨ds, all, owned⟩ := c.diagnostics_walk file doc
  refine report_eq_of_parts (none :: c.enabledRules.map some) (p := part) ?_ ?_ ?_
  · intro s isPart
    rw [List.filter_comm, walk_filter_part isPart, List.filter_comm]
  · intro d member
    rcases List.mem_append.mp member with one | other
    · exact mem_part owned (all ▸ List.mem_of_mem_filter one)
    · exact mem_part (c.owned_runs file doc) (List.mem_of_mem_filter other)
  · intro s _ a b alike
    cases s with
    | none =>
        simp only [Diagnostic.compare, Ordering.then_eq_eq, compare_eq_iff_eq] at alike
        exact congrArg (· == parseErrorId) alike.2.2.2.1
    | some r => exact Rule.owns_eq_of_compare alike

end Checker

end PageLint
