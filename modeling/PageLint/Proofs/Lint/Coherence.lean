/-
# PageLint.Proofs.Lint.Coherence — findings are where they say

Every subject of a document is in its place (`Document.placed_subjects`), so every rule of
the style guide, given one, points at a stretch of the text (`sound_rules`), and so do the
faults of structure. A place of a text is told by its line and column, and just as well by
its offset; so findings of one rule that share line, column and last offset share their
stretch, and a report keeps one of them. What a file's check returns is therefore coherent
with the text and ascends strictly (`checkFile_coherent`).
-/
import PageLint.Proofs.Lint.Turns
import PageLint.Proofs.Rules.Pages

namespace PageLint

set_option autoImplicit false

open Text

variable {cs : List Char}

/-! ## Documents -/

namespace Document

theorem source_ofText (language : Language) (cs : List Char) :
    (Document.ofText language cs).source = ⟨cs⟩ := by
  cases language <;> rfl

theorem placed_subjects (language : Language) (cs : List Char) :
    ∀ s ∈ Subject.source :: (Document.ofText language cs).subjects, s.Placed (.whole cs) := by
  refine List.forall_mem_cons.mpr ⟨trivial, ?_⟩
  cases language with
  | html => exact Html.Page.placed_subjects cs
  | css => exact Css.Sheet.placed_ofText (Passage.holds_origin (.whole cs))

theorem covers_issues (language : Language) (cs : List Char) :
    ∀ issue ∈ (Document.ofText language cs).issues, (Passage.whole cs).Covers issue.span := by
  intro issue member
  cases language with
  | html =>
      rcases List.mem_append.mp member with markup | sheets
      · obtain ⟨i, found, rfl⟩ := List.mem_map.mp markup
        exact (Html.Page.placed_ofText cs).2 i found
      · obtain ⟨sheet, isSheet, found⟩ := List.mem_flatMap.mp sheets
        obtain ⟨t, isText, rfl⟩ := List.mem_map.mp isSheet
        obtain ⟨i, inside, rfl⟩ := List.mem_map.mp found
        have shown := Html.Page.shows_styleTexts cs t isText
        exact Css.Sheet.covers_issue shown.holds i inside
  | css =>
      obtain ⟨i, inside, rfl⟩ := List.mem_map.mp member
      exact Css.Sheet.covers_issue (Passage.holds_origin (.whole cs)) i inside

end Document

/-! ## Rules -/

/-- On every subject that is in its place, the check answers, and all that it finds lies in
the text. -/
def Check.Sound (check : Check) : Prop :=
  ∀ (cs : List Char) (doc : Document) (s : Subject), doc.source = ⟨cs⟩ →
    s.Placed (.whole cs) → ∃ found, check doc s = .ok found ∧ Rules.CoversAll (.whole cs) found

theorem sound_total {find : Document → Subject → List Finding}
    (covers : ∀ (cs : List Char) (doc : Document) (s : Subject), doc.source = ⟨cs⟩ →
      s.Placed (.whole cs) → Rules.CoversAll (.whole cs) (find doc s)) :
    (Check.total find).Sound :=
  fun cs doc s source placed => ⟨find doc s, rfl, covers cs doc s source placed⟩

theorem sound_reading {find : Subject → List Finding}
    (covers : ∀ (cs : List Char) (s : Subject), s.Placed (.whole cs) →
      Rules.CoversAll (.whole cs) (find s)) : (StyleGuide.reading find).Sound :=
  sound_total fun cs _ s _ placed => covers cs s placed

theorem sound_onSource {find : Document → List Finding}
    (covers : ∀ (cs : List Char) (doc : Document), doc.source = ⟨cs⟩ →
      Rules.CoversAll (.whole cs) (find doc)) : (Rules.onSource find).Sound := by
  apply sound_total
  intro cs doc s source _
  cases s with
  | source => exact covers cs doc source
  | _ => exact Rules.coversAll_nil

namespace StyleGuide

open Rules

theorem sound_sharedRules : ∀ r ∈ sharedRules, r.check.Sound := by
  simp only [sharedRules, List.forall_mem_cons]
  exact ⟨sound_reading fun _ _ => covers_protocolRelativeUrl,
    sound_onSource fun _ _ => covers_indentation,
    sound_total fun _ doc _ _ => covers_lowercaseNames doc,
    sound_onSource fun _ _ => covers_trailingWhitespace,
    sound_onSource fun _ _ => covers_byteOrderMark,
    sound_reading fun _ _ => covers_todoFormat, by simp⟩

theorem sound_htmlRules : ∀ r ∈ htmlRules, r.check.Sound := by
  simp only [htmlRules, List.forall_mem_cons]
  exact ⟨sound_reading fun _ _ => covers_doctypeHtml5,
    sound_reading fun _ _ => covers_voidElementSelfClose,
    sound_reading fun _ _ => covers_altAttribute,
    sound_reading fun _ _ => covers_doubleQuotes,
    sound_reading fun _ _ => covers_optionalTags,
    sound_reading fun _ _ => covers_typeAttribute,
    sound_reading fun _ _ => covers_entityReferences,
    sound_reading fun _ _ => covers_metaCharset, by simp⟩

theorem sound_cssRules : ∀ r ∈ cssRules, r.check.Sound := by
  simp only [cssRules, List.forall_mem_cons]
  exact ⟨sound_reading fun _ _ => covers_singleQuotes,
    sound_reading fun _ _ => covers_urlUnquoted,
    sound_reading fun _ _ => covers_charsetDoubleQuotes,
    sound_reading fun _ _ => covers_idClassHyphen,
    sound_reading fun _ _ => covers_threeDigitHex,
    sound_reading fun _ _ => covers_leadingZero,
    sound_reading fun _ _ => covers_zeroUnit,
    sound_reading fun _ _ => covers_declarationSemicolon,
    sound_total fun _ _ _ => covers_propertyColonSpace,
    sound_total fun _ _ _ => covers_braceSpacing,
    sound_reading fun _ _ => covers_alphabeticalDeclarations,
    sound_total fun _ doc _ _ => covers_typeSelectorQualifier doc,
    sound_reading fun _ _ => covers_important,
    sound_reading fun _ _ => covers_idSelector,
    sound_reading fun _ _ => covers_declarationNewline,
    sound_total fun _ _ _ => covers_selectorNewline,
    sound_reading fun _ _ => covers_ruleBlankLine, by simp⟩

/-- **Every rule of the style guide is sound.** -/
theorem sound_rules : ∀ r ∈ rules, r.check.Sound :=
  List.forall_mem_append.mpr
    ⟨List.forall_mem_append.mpr ⟨sound_sharedRules, sound_htmlRules⟩, sound_cssRules⟩

end StyleGuide

/-! ## Runs -/

/-- A finding in a file, before the report adds to it: it lies in the text, and shows no
line yet. -/
structure Diagnostic.Raw (cs : List Char) (file : Path) (d : Diagnostic) : Prop where
  file : d.file = file
  covered : (Passage.whole cs).Covers d.span
  bare : d.sourceLine = none

theorem Check.Sound.answers {check : Check} (sound : check.Sound) {doc : Document}
    (source : doc.source = ⟨cs⟩) {subjects : List Subject}
    (placed : ∀ s ∈ subjects, s.Placed (.whole cs)) :
    ∀ s ∈ subjects, ∃ findings, check doc s = .ok findings := by
  intro s member
  obtain ⟨findings, answer, -⟩ := sound cs doc s source (placed s member)
  exact ⟨findings, answer⟩

theorem Rule.raw_runOver {r : Rule} (sound : r.check.Sound) (severity : Severity) (file : Path)
    {doc : Document} (source : doc.source = ⟨cs⟩) {subjects : List Subject}
    (placed : ∀ s ∈ subjects, s.Placed (.whole cs)) :
    ∀ d ∈ (r.runOver severity file doc subjects).diagnostics, d.Raw cs file := by
  intro d member
  rw [diagnostics_runOver (sound.answers source placed)] at member
  obtain ⟨s, isSubject, found⟩ := List.mem_flatMap.mp member
  obtain ⟨findings, answer, f, isFound, rfl⟩ := mem_found found
  obtain ⟨findings', answer', covers⟩ := sound cs doc s source (placed s isSubject)
  obtain rfl : findings = findings' := Except.ok.inj (answer.symm.trans answer')
  exact ⟨rfl, covers f isFound, rfl⟩

namespace Diagnostic

/-- Findings of one file at one place repeat each other: the place tells the stretch. -/
theorem repeats_of_comparePlace {a b : Diagnostic} (file : a.file = b.file)
    (one : (Passage.whole cs).Covers a.span) (other : (Passage.whole cs).Covers b.span)
    (equal : a.comparePlace b = .eq) : b.repeats a := by
  simp only [comparePlace, compareLex, compareOn, Ordering.then_eq_eq, compare_eq_iff_eq] at equal
  obtain ⟨line, column, rule, last⟩ := equal
  have span : b.span = a.span := (one.eq_of_places other line column last).symm
  simp [repeats, rule, span, file, Path.same]

end Diagnostic

theorem Tidy.of_raw {file : Path} {ds : List Diagnostic} (raw : ∀ d ∈ ds, d.Raw cs file) :
    Tidy ds where
  file a one b other := (raw a one).file.trans (raw b other).file.symm
  places a one b other equal :=
    Diagnostic.repeats_of_comparePlace ((raw a one).file.trans (raw b other).file.symm)
      (raw a one).covered (raw b other).covered equal

namespace Diagnostic

/-- What a finding says of its place is so: it begins and ends between characters of the
text, in order, each place is the one past the text before it, and the line that it shows is
the line on which it begins. -/
structure Coherent (cs : List Char) (d : Diagnostic) : Prop where
  ordered : d.span.start.offset ≤ d.span.finish.offset
  within : d.span.finish.offset ≤ Source.byteLength ⟨cs⟩
  start : ∃ before, Source.takeBytes? d.span.start.offset cs = some before ∧
    d.span.start = Position.start.after before
  finish : ∃ before, Source.takeBytes? d.span.finish.offset cs = some before ∧
    d.span.finish = Position.start.after before
  sourceLine : d.sourceLine = (Source.line? ⟨cs⟩ d.line).map String.ofList

end Diagnostic

/-- A place that a file marks is the one past the text of as many bytes. -/
theorem Passage.Marks.takeBytes? {p : Position} (marked : (Passage.whole cs).Marks p) :
    ∃ before, Source.takeBytes? p.offset cs = some before ∧ p = Position.start.after before := by
  obtain ⟨before, ⟨rest, text⟩, rfl⟩ := marked
  refine ⟨before, ?_, rfl⟩
  change before ++ [] ++ rest = cs at text
  rw [← text, List.append_nil, ← Source.takeBytes?_bytes before rest]
  simp [Passage.whole, Position.start]

namespace Checker

theorem coherent_decorate (c : Checker) {file : Path} {d : Diagnostic} (raw : d.Raw cs file) :
    (c.decorate (Source.lineTable ⟨cs⟩) d).Coherent cs where
  ordered := raw.covered.offset_le
  within := by
    have bound := raw.covered.finish.offset_le
    rw [Source.byteLength_eq]
    show d.span.finish.offset ≤ bytes cs
    simpa [Passage.whole, Position.start] using bound
  start := raw.covered.start.takeBytes?
  finish := raw.covered.finish.takeBytes?
  sourceLine := by
    show ((Source.lineOf? _ d.line).map String.ofList).or d.sourceLine = _
    rw [raw.bare, Option.or_none]
    rfl

/-- What is found in a document and is not silenced. -/
def heard (c : Checker) (file : Path) (doc : Document) : List Diagnostic :=
  (c.found file doc).filter fun d => !(Suppressions.ofDocument doc).isSuppressed d.ruleId d.line

/-- What is added to findings changes neither their order nor what repeats what. -/
theorem diagnostics_examine (c : Checker) (file : Path) (doc : Document) :
    (c.examine file doc).diagnostics =
      (report (c.heard file doc)).map (c.decorate doc.source.lineTable) := by
  rw [heard, ← report_walk]
  exact report_map (fun _ _ _ _ => rfl) fun _ _ _ _ => rfl

/-- A file of a language is checked as a document of it. -/
theorem checkFile_ofLanguage (config : Config) {language : Language} {path : Path}
    (named : Reader.for? [.css, .html] path = some (.ofLanguage language)) (text : List Char) :
    ({ config } : Checker).checkFile path text =
      .ok (({ config } : Checker).examine path (.ofText language text)).diagnostics := by
  have read : (Reader.ofLanguage language).read text = .ofText language text := by
    cases language <;> rfl
  rw [checkFile, checkInput, named, ← read]
  rfl

theorem raw_heard {c : Checker} (sound : ∀ r ∈ c.enabledRules, r.check.Sound) (file : Path)
    (language : Language) (cs : List Char) :
    ∀ d ∈ c.heard file (.ofText language cs), d.Raw cs file := by
  intro d member
  rcases List.mem_append.mp (List.mem_of_mem_filter member) with issue | run
  · obtain ⟨i, isIssue, rfl⟩ := List.mem_map.mp issue
    exact ⟨rfl, Document.covers_issues language cs i isIssue, rfl⟩
  · obtain ⟨r, enabled, found⟩ := List.mem_flatMap.mp run
    exact Rule.raw_runOver (sound r enabled) _ file
      (Document.source_ofText language cs) (Document.placed_subjects language cs) d found

/-- **What a file's check returns is coherent with its text, and ascends**: every finding of
the style guide, under any configuration, is where it says, and by line, column, rule and
end each one lies strictly before those listed after it. -/
theorem checkFile_coherent (config : Config) (language : Language) (path : Path)
    (text : List Char) (named : Reader.for? [.css, .html] path = some (.ofLanguage language)) :
    ∃ found, ({ config } : Checker).checkFile path text = .ok found ∧
      (∀ d ∈ found, d.Coherent text) ∧ found.Pairwise Diagnostic.Before := by
  refine ⟨_, checkFile_ofLanguage config named text, ?_⟩
  rw [diagnostics_examine, Document.source_ofText]
  have sound : ∀ r ∈ ({ config } : Checker).enabledRules, r.check.Sound :=
    fun r enabled => StyleGuide.sound_rules r (List.mem_of_mem_filter enabled)
  have raw := raw_heard sound path language text
  constructor
  · intro d member
    obtain ⟨e, reported, rfl⟩ := List.mem_map.mp member
    exact coherent_decorate _ (raw e (mem_of_mem_report reported))
  · exact List.pairwise_map.mpr (report_ascends (Tidy.of_raw raw))

/-- The check of a short page, all rules running. -/
theorem checkFile_coherent_page :
    Reader.for? [.css, .html] ⟨"a.html"⟩ = some (.ofLanguage .html) ∧
      ∃ found, ({ config := .all StyleGuide.catalog } : Checker).checkFile ⟨"a.html"⟩
          "<style>a{color:RED}</style>".toList = .ok found ∧
        (∀ d ∈ found, d.Coherent "<style>a{color:RED}</style>".toList) ∧
        found.Pairwise Diagnostic.Before :=
  have named : Reader.for? [.css, .html] ⟨"a.html"⟩ = some (.ofLanguage .html) := by decide
  ⟨named, checkFile_coherent _ .html ⟨"a.html"⟩ _ named⟩

end Checker

end PageLint
