/-
# PageLint.Proofs.Lint.Messages — findings that go over several lines

The subjects of a document are worded (`Document.worded_subjects`), so all rules but the quoting
ones write messages of one line, and so do the faults of structure that quote nothing. Ids lie on
one line anyway. So if the message of a finding goes over several lines, it is one of those that
quote a piece of the text as it stands (`Checker.plain_checkFiles`).
-/
import PageLint.Proofs.Lint.Batch
import PageLint.Proofs.Rules.Wording

namespace PageLint

set_option autoImplicit false

open Text

variable {cs : List Char}

/-! ## Documents -/

/-- The message of a fault that quotes a piece of the text: markup of no use, an odd sign in a tag,
or an entry of a block that is no declaration. -/
def QuotesText (message : String) : Prop :=
  (∃ fault : Html.Fault, fault.Quotes ∧ message = fault.message) ∨
    ∃ text, message = (Css.Fault.strayInBlock text).message

namespace Document

theorem worded_subjects (language : Language) (cs : List Char) :
    ∀ s ∈ Subject.source :: (Document.ofText language cs).subjects, s.Worded := by
  refine List.forall_mem_cons.mpr ⟨trivial, ?_⟩
  cases language with
  | html => exact Html.Page.worded_subjects cs
  | css => exact Css.Sheet.worded_subjects cs .start

theorem quotesText_of_sheet {origin : Position} {issue : ParseIssue}
    (member : issue ∈ (Css.Sheet.ofText cs origin).parseIssues)
    (broken : '\n' ∈ issue.message.toList) : QuotesText issue.message := by
  obtain ⟨i, isIssue, rfl⟩ := List.mem_map.mp member
  obtain ⟨text, stray⟩ := Css.Sheet.strayInBlock_of_newline isIssue broken
  exact .inr ⟨text, congrArg Css.Fault.message stray⟩

/-- **A fault that is told over several lines quotes the text.** -/
theorem quotesText_of_newline {language : Language} {issue : ParseIssue}
    (member : issue ∈ (Document.ofText language cs).issues)
    (broken : '\n' ∈ issue.message.toList) : QuotesText issue.message := by
  cases language with
  | html =>
      rcases List.mem_append.mp member with markup | sheets
      · obtain ⟨i, isIssue, rfl⟩ := List.mem_map.mp markup
        exact .inl ⟨i.fault, Html.Page.quotes_of_newline isIssue broken, rfl⟩
      · obtain ⟨sheet, isSheet, found⟩ := List.mem_flatMap.mp sheets
        obtain ⟨t, -, rfl⟩ := List.mem_map.mp isSheet
        exact quotesText_of_sheet found broken
  | css => exact quotesText_of_sheet member broken

end Document

/-! ## Findings -/

/-- A finding in a file: its id lies on one line, and so does its message, unless it quotes a piece
of the text as it stands. -/
structure Diagnostic.Plain (file : Path) (d : Diagnostic) : Prop where
  file : d.file = file
  ruleId : '\n' ∉ d.ruleId.toList
  quotes : '\n' ∈ d.message.toList →
    d.ruleId ∈ StyleGuide.quotingRules ∨ d.ruleId = parseErrorId ∧ QuotesText d.message

/-- What a rule of the style guide finds is plain. -/
theorem Rule.plain_runOver {r : Rule} (known : r ∈ StyleGuide.rules) (severity : Severity)
    (file : Path) (language : Language) (cs : List Char) :
    ∀ d ∈ (r.runOver severity file (.ofText language cs)
      (.source :: (Document.ofText language cs).subjects)).diagnostics, d.Plain file := by
  intro d member
  have source := Document.source_ofText language cs
  have placed := Document.placed_subjects language cs
  rw [diagnostics_runOver ((StyleGuide.sound_rules r known).answers source placed)] at member
  obtain ⟨s, isSubject, found⟩ := List.mem_flatMap.mp member
  obtain ⟨findings, answer, f, isFound, rfl⟩ := mem_found found
  obtain ⟨id, template⟩ := StyleGuide.newline_notMem_rules r known
  refine ⟨rfl, id, fun broken => .inl ?_⟩
  by_contra other
  have oneLine := StyleGuide.oneLine_rules r known other cs _ s source (placed s isSubject)
    (Document.worded_subjects language cs s isSubject) findings answer f isFound
  exact newline_notMem_messageOf template oneLine broken

namespace Checker

theorem plain_heard (config : Config) (file : Path) (language : Language) (cs : List Char) :
    ∀ d ∈ ({ config } : Checker).heard file (.ofText language cs), d.Plain file := by
  intro d member
  rcases List.mem_append.mp (List.mem_of_mem_filter member) with issue | run
  · obtain ⟨i, isIssue, rfl⟩ := List.mem_map.mp issue
    have id : '\n' ∉ parseErrorId.toList := by decide
    exact ⟨rfl, id, fun broken => .inr ⟨rfl, Document.quotesText_of_newline isIssue broken⟩⟩
  · obtain ⟨r, enabled, found⟩ := List.mem_flatMap.mp run
    exact Rule.plain_runOver (List.mem_of_mem_filter enabled) _ file language cs d found

theorem plain_examine (config : Config) (file : Path) (language : Language) (cs : List Char) :
    ∀ d ∈ (({ config } : Checker).examine file (.ofText language cs)).diagnostics,
      d.Plain file := by
  intro d member
  rw [diagnostics_examine] at member
  obtain ⟨e, reported, rfl⟩ := List.mem_map.mp member
  have plain := plain_heard config file language cs e (mem_of_mem_report reported)
  exact ⟨plain.file, plain.ruleId, plain.quotes⟩

/-- **What a run finds is plain, and in one of its files.** -/
theorem plain_checkFiles (config : Config) (files : List TextFile) :
    ∀ d ∈ (({ config } : Checker).checkFiles (files.map TextFile.input)).diagnostics,
      ∃ f ∈ files, d.Plain f.path := by
  intro d member
  rw [diagnostics_checkFiles] at member
  obtain ⟨f, isFile, found⟩ := List.mem_flatMap.mp (mem_of_mem_report member)
  refine ⟨f, isFile, ?_⟩
  cases known : Reader.for? ({ config } : Checker).readers f.path with
  | none =>
      rw [foundIn_of_none known] at found
      cases found
  | some reader =>
      rw [foundIn_of_reader known] at found
      exact plain_examine config f.path reader.language f.text d found

end Checker

end PageLint
