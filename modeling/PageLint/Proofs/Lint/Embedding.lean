/-
# PageLint.Proofs.Lint.Embedding — a stylesheet is checked in a page as it is in a file

Where only rules on stylesheets run and no comment silences any, what is heard in a page is
the faults of its markup and what is found in its stylesheets (`heard_page`). Of this, what
lies in one stylesheet is what is heard in its text as a file, moved to where it stands
(`filter_sheetFindings`).

Faults of markup begin in markup and all else lies in a stylesheet, so leaving out those
faults leaves out all findings of their places (`reports_iff`). Stylesheets come one after the
other, so the report of what is found in them is made of a report for each
(`report_sheetFindings`). And moving findings keeps their order and repetitions, so it may be
done after the report as well (`compare_moveTo`, `repeats_moveTo`).
-/
import PageLint.Proofs.Html.Faults
import PageLint.Proofs.Lint.Hosts
import PageLint.Proofs.Lint.Parts

namespace PageLint

set_option autoImplicit false

open Text Html

/-! ## Moved findings -/

/-- Numbers compare as others do that are less than each other just when these are. -/
theorem compare_of_lt_iff {m n m' n' : Nat} (less : m' < n' ↔ m < n) (greater : n' < m' ↔ n < m) :
    compare m' n' = compare m n := by
  rw [Nat.compare_eq_ite_lt, Nat.compare_eq_ite_lt]
  simp only [less, greater]

namespace Diagnostic

variable {o : Position} {a b : Diagnostic}

/-- Findings of one file keep their order when they are moved. Columns keep theirs on one line
only, so the lines are looked at first. -/
theorem compare_moveTo (origin : o.Counted) (file : Path) (same : a.file = b.file) :
    (a.moveTo file o).compare (b.moveTo file o) = a.compare b := by
  have files : file.compare file = a.file.compare b.file := by
    rw [same]
    exact Std.ReflCmp.compare_self.trans Std.ReflCmp.compare_self.symm
  have lines : compareOn line (a.moveTo file o) (b.moveTo file o) = compareOn line a b :=
    compare_of_lt_iff (Position.line_shift_lt_iff origin) (Position.line_shift_lt_iff origin)
  have columns : a.line = b.line →
      compareOn column (a.moveTo file o) (b.moveTo file o) = compareOn column a b := by
    intro equal
    obtain ⟨-, counted⟩ := origin
    simp only [line] at equal
    refine compare_of_lt_iff ?_ ?_ <;>
    · simp only [column, moveTo, Span.start_shift, Position.shift, equal]
      split <;> omega
  have ends : compareOn (fun d => d.span.finish.offset) (a.moveTo file o) (b.moveTo file o) =
      compareOn (fun d => d.span.finish.offset) a b :=
    compare_of_lt_iff Nat.add_lt_add_iff_right Nat.add_lt_add_iff_right
  have places : (a.moveTo file o).comparePlace (b.moveTo file o) = a.comparePlace b := by
    simp only [comparePlace, compareLex, lines, ends]
    by_cases equal : a.line = b.line
    · rw [columns equal]
      rfl
    · cases order : compareOn line a b with
      | eq => exact absurd (compare_eq_iff_eq.mp order) equal
      | _ => rfl
  simp only [compare_eq, compareLex, places]
  exact congrArg (Ordering.then · _) files

theorem repeats_moveTo (origin : o.Counted) (file : Path) (same : a.file = b.file) :
    (a.moveTo file o).repeats (b.moveTo file o) = a.repeats b := by
  have spans : a.span.shift o = b.span.shift o ↔ a.span = b.span := by
    have injective := Position.shift_injective origin
    obtain ⟨start, finish⟩ := a.span
    obtain ⟨start', finish'⟩ := b.span
    simp only [Span.shift_mk, Span.mk.injEq, injective.eq_iff]
  rw [Bool.eq_iff_iff]
  simp [repeats, moveTo, same, Path.same, spans]

end Diagnostic

/-! ## What is heard in a page -/

/-- A checker under whose configuration only rules on stylesheets run. -/
def Checker.OnSheets (c : Checker) : Prop := ∀ r ∈ c.enabledRules, r.OnSheets

theorem Checker.OnSheets.sound {c : Checker} (onSheets : c.OnSheets) :
    ∀ r ∈ c.enabledRules, r.check.Sound := fun r enabled => (onSheets r enabled).sound

/-- No comment of the document is a directive. -/
def Document.Silent (doc : Document) : Prop := ∀ c ∈ doc.comments, Directive.parse? c.text = none

/-- Whether a finding is a fault of the page's markup. -/
def Html.Page.reports (page : Page) (d : Diagnostic) : Bool :=
  d.ruleId == parseErrorId &&
    page.issues.any fun issue => issue.fault.message == d.message && issue.span == d.span

/-- The faults of a page's markup. -/
def markupFaults (page : Path) (cs : List Char) : List Diagnostic :=
  (Page.ofText cs).issues.map fun issue =>
    ParseIssue.diagnostic ⟨issue.fault.message, issue.span⟩ page

namespace Checker

variable {c : Checker} {page sheet : Path} {cs : List Char}

/-- Where no comment is a directive, all that is found is heard. -/
theorem heard_silent {doc : Document} (silent : doc.Silent) (file : Path) :
    c.heard file doc = doc.issues.map (·.diagnostic file) ++
      c.enabledRules.flatMap fun r => (c.runRule file doc r).diagnostics := by
  have none_ : Suppressions.ofDocument doc = [] := by
    apply List.filterMap_eq_nil_iff.mpr
    intro comment member
    rw [silent comment member]
    rfl
  rw [heard, none_]
  apply List.filter_eq_self.mpr
  intro d _
  simp [Suppressions.isSuppressed]

/-- The comments of a stylesheet are among those of the page that holds it. -/
theorem silent_sheet (silent : (Document.ofText .html cs).Silent) {t : TextNode}
    (member : t ∈ styleTextsOf cs) : (Document.ofText .css t.text).Silent := by
  intro comment found
  obtain ⟨token, isComment, rfl⟩ := List.mem_map.mp found
  have origin := (embeds_styleTexts member).counted
  refine silent ⟨token.text, token.span.shift t.span.start⟩ (List.mem_append_right _ ?_)
  refine List.mem_flatMap.mpr ⟨t.sheet, List.mem_map_of_mem member, ?_⟩
  rw [TextNode.sheet, Css.Sheet.ofText_shift origin]
  obtain ⟨isToken, kind⟩ := List.mem_filter.mp isComment
  exact List.mem_map.mpr
    ⟨token.shift _, List.mem_filter.mpr ⟨List.mem_map_of_mem isToken, kind⟩, rfl⟩

/-- The faults of a stylesheet, read as a file and moved to where it stands in a page. -/
def sheetFaults (page sheet : Path) (t : TextNode) : List Diagnostic :=
  ((Document.ofText .css t.text).issues.map (·.diagnostic sheet)).map
    (Diagnostic.moveTo page t.span.start)

/-- What a rule finds in a stylesheet, read as a file and moved to where it stands in a page. -/
def sheetRun (c : Checker) (page sheet : Path) (r : Rule) (t : TextNode) : List Diagnostic :=
  (c.runRule sheet (.ofText .css t.text) r).diagnostics.map (Diagnostic.moveTo page t.span.start)

/-- What is found in the stylesheets of a page: faults first, then rule by rule. -/
def sheetFindings (c : Checker) (page sheet : Path) (cs : List Char) : List Diagnostic :=
  (styleTextsOf cs).flatMap (sheetFaults page sheet) ++
    c.enabledRules.flatMap fun r => (styleTextsOf cs).flatMap (c.sheetRun page sheet r)

theorem issues_page (page sheet : Path) (cs : List Char) :
    (Document.ofText .html cs).issues.map (·.diagnostic page) =
      markupFaults page cs ++ (styleTextsOf cs).flatMap (sheetFaults page sheet) := by
  show ((Page.ofText cs).issues.map _ ++
    ((styleTextsOf cs).map TextNode.sheet).flatMap Css.Sheet.parseIssues).map _ = _
  rw [List.map_append, List.map_map, List.flatMap_map, List.map_flatMap]
  refine congrArg _ (List.flatMap_congr fun t member => ?_)
  rw [TextNode.sheet, Css.Sheet.ofText_shift (embeds_styleTexts member).counted]
  simp only [Css.Sheet.parseIssues, Css.Sheet.shift, sheetFaults, List.map_map, Document.ofText,
    Document.issues]
  rfl

/-- **What is heard in a page**: faults of its markup, and what is found in its stylesheets. -/
theorem heard_page (page sheet : Path) (onSheets : c.OnSheets)
    (silent : (Document.ofText .html cs).Silent) :
    c.heard page (.ofText .html cs) = markupFaults page cs ++ c.sheetFindings page sheet cs := by
  have runs : (c.enabledRules.flatMap fun r => (c.runRule page (.ofText .html cs) r).diagnostics) =
      c.enabledRules.flatMap fun r => (styleTextsOf cs).flatMap (c.sheetRun page sheet r) := by
    apply List.flatMap_congr
    intro r enabled
    exact diagnostics_runRule (onSheets r enabled)
  rw [heard_silent silent, runs, issues_page page sheet, sheetFindings, List.append_assoc]

/-- **What is heard in a stylesheet as a file**, moved to where it stands in a page. -/
theorem map_heard_sheet (silent : (Document.ofText .html cs).Silent) {t : TextNode}
    (member : t ∈ styleTextsOf cs) :
    (c.heard sheet (.ofText .css t.text)).map (Diagnostic.moveTo page t.span.start) =
      sheetFaults page sheet t ++ c.enabledRules.flatMap fun r => c.sheetRun page sheet r t := by
  rw [heard_silent (silent_sheet silent member), List.map_append, List.map_flatMap]
  rfl

end Checker

/-! ## Findings of a stylesheet lie in it -/

section Sheets

variable {c : Checker} {page sheet : Path} {cs : List Char} {t u : TextNode} {d : Diagnostic}

theorem contains_iff {s s' : Span} : s.contains s' ↔
    s.start.offset ≤ s'.start.offset ∧ s'.finish.offset ≤ s.finish.offset := by
  rw [Span.contains, Bool.and_eq_true, decide_eq_true_eq, decide_eq_true_eq]

/-- Begins and ends in order, inside the text. -/
def Html.TextNode.Owns (t : TextNode) (d : Diagnostic) : Prop :=
  t.span.contains d.span ∧ d.span.start.offset ≤ d.span.finish.offset

/-- What lies in the text of a stylesheet lies in the stylesheet once it is moved. -/
theorem owns_moveTo (member : t ∈ styleTextsOf cs) (covered : (Passage.whole t.text).Covers d.span) :
    t.Owns (d.moveTo page t.span.start) := by
  have last := covered.finish.offset_le
  have ordered := covered.offset_le
  have finish : t.span.finish.offset = t.span.start.offset + bytes t.text := by
    rw [(Page.shows_styleTexts cs t member).2, Position.offset_after]
  simp only [Passage.whole, Position.start] at last
  simp only [TextNode.Owns, contains_iff, Diagnostic.moveTo, Span.start_shift, Span.finish_shift,
    Position.offset_shift]
  omega

/-- No two stylesheets own one finding. -/
theorem Html.TextNode.Owns.disjoint (owns : t.Owns d)
    (apart : t.span.finish.offset < u.span.start.offset ∨ u.span.finish.offset < t.span.start.offset) :
    u.span.contains d.span = false := by
  obtain ⟨inside, ordered⟩ := owns
  rw [contains_iff] at inside
  rw [← Bool.not_eq_true, contains_iff]
  omega

/-- What is given in stylesheets, each giving findings of its own, is given there in parts. -/
theorem filter_styleTexts {give : TextNode → List Diagnostic}
    (own : ∀ t ∈ styleTextsOf cs, ∀ d ∈ give t, t.Owns d) (member : t ∈ styleTextsOf cs) :
    ((styleTextsOf cs).flatMap give).filter (fun d => t.span.contains d.span) = give t := by
  refine filter_flatMap_own (p := fun t d => t.span.contains d.span)
    (fun t isText d given => (own t isText d given).1) ?_ member
  refine List.Pairwise.imp_of_mem ?_ (styleTexts_apart cs)
  intro t u one other apart
  exact ⟨fun d given => (own t one d given).disjoint (.inl apart),
    fun d given => (own u other d given).disjoint (.inr apart)⟩

theorem owns_sheetFaults (page sheet : Path) (member : t ∈ styleTextsOf cs) :
    ∀ d ∈ Checker.sheetFaults page sheet t, t.Owns d := by
  intro d moved
  obtain ⟨e, found, rfl⟩ := List.mem_map.mp moved
  obtain ⟨issue, isIssue, rfl⟩ := List.mem_map.mp found
  exact owns_moveTo member (Document.covers_issues .css t.text issue isIssue)

theorem owns_sheetRun (page sheet : Path) {r : Rule} (onSheets : r.OnSheets)
    (member : t ∈ styleTextsOf cs) : ∀ d ∈ c.sheetRun page sheet r t, t.Owns d := by
  intro d moved
  obtain ⟨e, found, rfl⟩ := List.mem_map.mp moved
  have raw := Rule.raw_runOver onSheets.sound _ sheet (Document.source_ofText .css t.text)
    (Document.placed_subjects .css t.text) e found
  exact owns_moveTo member raw.covered

/-- **Of what is found in the stylesheets, what lies in one is what is heard in it as a file**,
moved. -/
theorem filter_sheetFindings (onSheets : c.OnSheets) (silent : (Document.ofText .html cs).Silent)
    (member : t ∈ styleTextsOf cs) :
    (c.sheetFindings page sheet cs).filter (fun d => t.span.contains d.span) =
      (c.heard sheet (.ofText .css t.text)).map (Diagnostic.moveTo page t.span.start) := by
  have faults : ((styleTextsOf cs).flatMap (Checker.sheetFaults page sheet)).filter
      (fun d => t.span.contains d.span) = Checker.sheetFaults page sheet t :=
    filter_styleTexts (fun u isText => owns_sheetFaults page sheet isText) member
  have runs : ∀ r ∈ c.enabledRules, ((styleTextsOf cs).flatMap (c.sheetRun page sheet r)).filter
      (fun d => t.span.contains d.span) = c.sheetRun page sheet r t := by
    intro r enabled
    exact filter_styleTexts (fun u isText => owns_sheetRun page sheet (onSheets r enabled) isText)
      member
  rw [Checker.map_heard_sheet silent member, Checker.sheetFindings, List.filter_append, faults,
    List.filter_flatMap, List.flatMap_congr runs]

/-- All that is found in the stylesheets lies in one of them. -/
theorem owned_sheetFindings (onSheets : c.OnSheets) :
    ∀ d ∈ c.sheetFindings page sheet cs, ∃ t ∈ styleTextsOf cs, t.Owns d := by
  intro d member
  rcases List.mem_append.mp member with issue | run
  · obtain ⟨t, isText, given⟩ := List.mem_flatMap.mp issue
    exact ⟨t, isText, owns_sheetFaults page sheet isText d given⟩
  · obtain ⟨r, enabled, found⟩ := List.mem_flatMap.mp run
    obtain ⟨t, isText, given⟩ := List.mem_flatMap.mp found
    exact ⟨t, isText, owns_sheetRun page sheet (onSheets r enabled) isText d given⟩

/-! ## Faults of markup do not -/

/-- Markup does not begin in what a stylesheet owns. -/
theorem Html.TextNode.Owns.not_inMarkup (owns : t.Owns d) (member : t ∈ styleTextsOf cs) :
    ¬ InMarkup (tokenize cs) d.span := by
  intro inMarkup
  obtain ⟨u, isToken, same⟩ := List.mem_map.mp ((styleTexts_sublist cs).subset member)
  obtain ⟨found, raw⟩ := List.mem_filter.mp isToken
  have apart := inMarkup.outside (Page.reads_tokens cs) found raw
  obtain ⟨nonempty, -⟩ := inMarkup
  obtain ⟨inside, -⟩ := owns
  rw [← same, contains_iff] at inside
  dsimp only at inside
  omega

theorem inMarkup_of_reports (reported : (Page.ofText cs).reports d) :
    InMarkup (tokenize cs) d.span := by
  obtain ⟨-, issue⟩ := Bool.and_eq_true_iff.mp reported
  obtain ⟨i, isIssue, same⟩ := List.any_eq_true.mp issue
  obtain ⟨-, span⟩ := Bool.and_eq_true_iff.mp same
  rw [← beq_iff_eq.mp span]
  exact inMarkup_issue cs i isIssue

theorem inMarkup_markupFaults : ∀ d ∈ markupFaults page cs, InMarkup (tokenize cs) d.span := by
  intro d member
  obtain ⟨issue, isIssue, rfl⟩ := List.mem_map.mp member
  exact inMarkup_issue cs issue isIssue

/-- Of what is heard in a page, the faults of its markup are what begins in markup. -/
theorem reports_iff (onSheets : c.OnSheets)
    (member : d ∈ markupFaults page cs ++ c.sheetFindings page sheet cs) :
    (Page.ofText cs).reports d ↔ InMarkup (tokenize cs) d.span := by
  constructor
  · exact inMarkup_of_reports
  · intro inMarkup
    rcases List.mem_append.mp member with markup | found
    · obtain ⟨issue, isIssue, rfl⟩ := List.mem_map.mp markup
      refine Bool.and_eq_true_iff.mpr ⟨beq_self_eq_true _, ?_⟩
      refine List.any_eq_true.mpr ⟨issue, isIssue, ?_⟩
      exact Bool.and_eq_true_iff.mpr ⟨beq_self_eq_true _, beq_self_eq_true _⟩
    · obtain ⟨t, isText, owns⟩ := owned_sheetFindings onSheets d found
      exact absurd inMarkup (owns.not_inMarkup isText)

end Sheets

/-! ## Reports -/

/-- A finding without its file and the line that it shows. -/
def Diagnostic.bare (d : Diagnostic) : Diagnostic := { d with file := ⟨""⟩, sourceLine := none }

namespace Checker

variable {c : Checker} {page sheet : Path} {cs : List Char} {t : TextNode}

/-- Without the faults of markup, what is left of a page is what is found in its stylesheets. -/
theorem filter_found (onSheets : c.OnSheets) :
    (markupFaults page cs ++ c.sheetFindings page sheet cs).filter
        (fun d => !(Page.ofText cs).reports d) = c.sheetFindings page sheet cs := by
  have markup : (markupFaults page cs).filter (fun d => !(Page.ofText cs).reports d) = [] := by
    apply List.filter_eq_nil_iff.mpr
    intro d member
    have found : d ∈ markupFaults page cs ++ c.sheetFindings page sheet cs :=
      List.mem_append_left _ member
    have reported := (reports_iff onSheets found).mpr (inMarkup_markupFaults d member)
    simp [reported]
  have sheets : (c.sheetFindings page sheet cs).filter (fun d => !(Page.ofText cs).reports d) =
      c.sheetFindings page sheet cs := by
    apply List.filter_eq_self.mpr
    intro d member
    obtain ⟨t, isText, owns⟩ := owned_sheetFindings onSheets d member
    have outside := owns.not_inMarkup isText
    simp [mt inMarkup_of_reports outside]
  rw [List.filter_append, markup, sheets, List.nil_append]

/-- What a page's check returns, faults of markup apart, is the report of what is found in its
stylesheets. -/
theorem filter_report (page sheet : Path) (onSheets : c.OnSheets)
    (silent : (Document.ofText .html cs).Silent) :
    (report (c.heard page (.ofText .html cs))).filter (fun d => !(Page.ofText cs).reports d) =
      report (c.sheetFindings page sheet cs) := by
  have raw := raw_heard onSheets.sound page .html cs
  rw [heard_page page sheet onSheets silent] at raw ⊢
  rw [report_filter ((Tidy.of_raw raw).unbroken ?_), filter_found onSheets]
  intro a one b other again
  have span : b.span = a.span := beq_iff_eq.mp (Bool.and_eq_true_iff.mp again).2
  have same : (Page.ofText cs).reports b ↔ (Page.ofText cs).reports a := by
    rw [reports_iff onSheets one, reports_iff onSheets other, span]
  exact congrArg (!·) (Bool.eq_iff_iff.mpr same)

theorem tidy_sheetFindings (page sheet : Path) (onSheets : c.OnSheets)
    (silent : (Document.ofText .html cs).Silent) :
    (∀ d ∈ c.sheetFindings page sheet cs, (Passage.whole cs).Covers d.span) ∧
      Tidy (c.sheetFindings page sheet cs) := by
  have raw : ∀ d ∈ c.sheetFindings page sheet cs, d.Raw cs page := by
    intro d member
    apply raw_heard onSheets.sound page .html cs
    rw [heard_page page sheet onSheets silent]
    exact List.mem_append_right _ member
  exact ⟨fun d member => (raw d member).covered, Tidy.of_raw raw⟩

/-- What the report of a page says of a stylesheet is the stylesheet's own report, moved. -/
theorem filter_report_sheet (onSheets : c.OnSheets) (silent : (Document.ofText .html cs).Silent)
    (member : t ∈ styleTextsOf cs) :
    (report (c.sheetFindings page sheet cs)).filter (fun d => t.span.contains d.span) =
      (report (c.heard sheet (.ofText .css t.text))).map
        (Diagnostic.moveTo page t.span.start) := by
  have origin := (embeds_styleTexts member).counted
  have files := (Tidy.of_raw (raw_heard onSheets.sound sheet .css t.text)).file
  rw [report_filter ((tidy_sheetFindings page sheet onSheets silent).2.unbroken ?_),
    filter_sheetFindings onSheets silent member, report_map]
  · intro a one b other
    exact Diagnostic.compare_moveTo origin page (files a one b other)
  · intro a one b other
    exact Diagnostic.repeats_moveTo origin page (files a one b other)
  · intro a _ b _ again
    rw [beq_iff_eq.mp (Bool.and_eq_true_iff.mp again).2]

/-- **The report of what is found in the stylesheets of a page is made of their reports**, each
moved to where the stylesheet stands. -/
theorem report_sheetFindings (onSheets : c.OnSheets)
    (silent : (Document.ofText .html cs).Silent) :
    report (c.sheetFindings page sheet cs) = (styleTextsOf cs).flatMap fun t =>
      (report (c.heard sheet (.ofText .css t.text))).map (Diagnostic.moveTo page t.span.start) := by
  have ⟨covers, tidy⟩ := tidy_sheetFindings page sheet onSheets silent
  rw [← List.flatMap_congr fun t member => filter_report_sheet onSheets silent member]
  symm
  apply flatMap_filter_parts (fun _ _ => Diagnostic.Before.asymm) (report_ascends tidy)
  · apply (styleTexts_apart cs).imp
    intro t u apart a one b other inFirst inSecond
    have here := covers a (mem_of_mem_report one)
    have there := covers b (mem_of_mem_report other)
    have ordered := here.offset_le
    rw [contains_iff] at inFirst inSecond
    have precedes : a.span.start.Precedes b.span.start := by
      rw [here.start.precedes_iff there.start]
      omega
    exact precedes.imp id fun same => ⟨same.1, .inl same.2⟩
  · intro d member
    obtain ⟨t, isText, owns⟩ := owned_sheetFindings onSheets d (mem_of_mem_report member)
    exact ⟨t, isText, owns.1⟩

/-- **A stylesheet is checked in a page as it is in a file**: where only rules on stylesheets
run and no comment is a directive, what the check of a page returns, faults of its markup
apart, is what the check of each of its stylesheets returns, one after the other, each finding
at the place where the page has it. -/
theorem checkFile_embedded (config : Config) (page sheet : Path) (text : List Char)
    (isPage : Reader.for? [.css, .html] page = some (.ofLanguage .html))
    (isSheet : Reader.for? [.css, .html] sheet = some (.ofLanguage .css))
    (onlyCss : ∀ r ∈ StyleGuide.rules, config.isEnabled r.id → r.languages = [.css])
    (silent : (Document.ofText .html text).Silent) :
    ∃ found, ({ config } : Checker).checkFile page text = .ok found ∧
      ∃ alone : TextNode → List Diagnostic,
        (∀ t ∈ styleTextsOf text, (Passage.whole text).Shows t.span t.text ∧
          ({ config } : Checker).checkFile sheet t.text = .ok (alone t)) ∧
        (found.filter fun d => !(Page.ofText text).reports d).map Diagnostic.bare =
          (styleTextsOf text).flatMap fun t =>
            (alone t).map fun d => (d.shift t.span.start).bare := by
  have onSheets : ({ config } : Checker).OnSheets := by
    intro r enabled
    obtain ⟨isRule, runs⟩ := List.mem_filter.mp enabled
    exact StyleGuide.onSheets isRule (onlyCss r isRule runs)
  refine ⟨_, checkFile_ofLanguage config isPage text, fun t =>
    (({ config } : Checker).examine sheet (.ofText .css t.text)).diagnostics, ?_, ?_⟩
  · intro t member
    exact ⟨Page.shows_styleTexts text t member, checkFile_ofLanguage config isSheet t.text⟩
  · have parts := (filter_report page sheet onSheets silent).trans
      (report_sheetFindings onSheets silent)
    rw [diagnostics_examine, List.filter_map, List.map_map]
    show ((report _).filter fun d => !(Page.ofText text).reports d).map _ = _
    rw [parts, List.map_flatMap]
    apply List.flatMap_congr
    intro t _
    dsimp only
    rw [diagnostics_examine, List.map_map, List.map_map]
    rfl

/-- A page with two stylesheets, and with an end tag too many. -/
def twoStylesheets : List Char := "<style>a{top:0px}</style></b>\n<style>b{}</style>".toList

theorem checkFile_embedded_twoStylesheets :
    (Document.ofText .html twoStylesheets).Silent ∧
      ∃ found, ({ config := .only ["zero-unit"] } : Checker).checkFile ⟨"a.html"⟩ twoStylesheets =
          .ok found ∧
        ∃ alone : TextNode → List Diagnostic,
          (∀ t ∈ styleTextsOf twoStylesheets, (Passage.whole twoStylesheets).Shows t.span t.text ∧
            ({ config := .only ["zero-unit"] } : Checker).checkFile ⟨"a.css"⟩ t.text =
              .ok (alone t)) ∧
          (found.filter fun d => !(Page.ofText twoStylesheets).reports d).map Diagnostic.bare =
            (styleTextsOf twoStylesheets).flatMap fun t =>
              (alone t).map fun d => (d.shift t.span.start).bare := by
  have silent : (Document.ofText .html twoStylesheets).Silent := by
    unfold Document.Silent
    decide +kernel
  exact ⟨silent, checkFile_embedded (.only ["zero-unit"]) ⟨"a.html"⟩ ⟨"a.css"⟩ twoStylesheets
    (by decide) (by decide) (by decide) silent⟩

end Checker

end PageLint
