/-
# PageLint.Proofs.Lint.Hosts — rules on stylesheets, in the pages that hold them

A rule on stylesheets looks at no piece of a page but those of its stylesheets, so what it
finds in a page is what it finds in their subjects, in order (`flatMap_subjects`). Those are
the subjects of the same text read as a file, shifted, and the rule finds the same there,
shifted (`found_shift`). So a run over a page is made of the runs over its stylesheets
(`diagnostics_runRule`), and so are the faults of their structure (`issues_ofText`).
-/
import PageLint.Proofs.Lint.Coherence
import PageLint.Proofs.Rules.Shift

namespace PageLint

set_option autoImplicit false

open Text

/-! ## Subjects of a page -/

/-- Gives nothing on the source, nor on what is markup. -/
def GivesOnSheets {α : Type} (f : Subject → List α) : Prop :=
  ∀ s : Subject, s.target.language? ≠ some .css → f s = []

namespace Html

variable {α : Type} {f : Subject → List α}

mutual

theorem Node.flatMap_subjects (plain : GivesOnSheets f) (ancestors : List Element) :
    (node : Node) → (node.subjects ancestors).flatMap f =
      (node.styleTexts (ancestors.getLast?.any (·.tag.isStylesheet))).flatMap fun t =>
        t.sheet.subjects.flatMap f
  | .element tag children endTag span => by
      have inside := flatMap_nodesSubjects plain (ancestors ++ [⟨tag, children, endTag, span⟩])
        children
      rw [Node.subjects, Node.styleTexts, List.flatMap_cons, inside,
        plain (.htmlElement _ _) nofun, List.getLast?_concat]
      rfl
  | .text t => by
      rw [Node.subjects, Node.styleTexts, List.flatMap_cons, plain (.htmlText _) nofun]
      split <;> simp
  | .comment c => by
      have none_ : f (.htmlComment c) = [] := plain _ nofun
      simp [Node.subjects, Node.styleTexts, none_]
  | .doctype d => by
      have none_ : f (.htmlDoctype d) = [] := plain _ nofun
      simp [Node.subjects, Node.styleTexts, none_]

theorem flatMap_nodesSubjects (plain : GivesOnSheets f) (ancestors : List Element) :
    (nodes : List Node) → (nodesSubjects ancestors nodes).flatMap f =
      (styleTextsIn (ancestors.getLast?.any (·.tag.isStylesheet)) nodes).flatMap fun t =>
        t.sheet.subjects.flatMap f
  | [] => rfl
  | node :: nodes => by
      rw [nodesSubjects, styleTextsIn, List.flatMap_append, List.flatMap_append,
        Node.flatMap_subjects plain ancestors node, flatMap_nodesSubjects plain ancestors nodes]

end

/-- The texts of a page that hold stylesheets. -/
def styleTextsOf (cs : List Char) : List TextNode := styleTextsIn false (Page.ofText cs).nodes

/-- **What gives nothing on markup gives what it gives on the stylesheets.** -/
theorem flatMap_subjects (plain : GivesOnSheets f) (cs : List Char) :
    (Subject.source :: (Document.ofText .html cs).subjects).flatMap f =
      (styleTextsOf cs).flatMap fun t => t.sheet.subjects.flatMap f := by
  have none_ : f .source = [] := plain .source nofun
  rw [List.flatMap_cons, none_, List.nil_append]
  exact flatMap_nodesSubjects plain [] (Page.ofText cs).nodes

/-- A page holds its stylesheets. -/
theorem embeds_styleTexts {cs : List Char} {t : TextNode} (member : t ∈ styleTextsOf cs) :
    (Document.ofText .html cs).Embeds t.span.start (.ofText .css t.text) :=
  (Page.shows_styleTexts cs t member).holds

end Html

/-! ## Runs -/

namespace Subject

theorem target_shift (o : Position) (s : Subject) : (s.shift o).target = s.target := by
  cases s <;> rfl

end Subject

namespace Diagnostic

/-- The finding, at the place where a text from `o` on has it. -/
def shift (o : Position) (d : Diagnostic) : Diagnostic := { d with span := d.span.shift o }

/-- The finding, in a file of another name that holds the text from `o` on. -/
def moveTo (file : Path) (o : Position) (d : Diagnostic) : Diagnostic :=
  { d with file, span := d.span.shift o }

end Diagnostic

namespace Rule

/-- A sound rule that looks at stylesheets alone, and finds in one inside a page what it finds
in the file, shifted. -/
structure OnSheets (r : Rule) : Prop where
  sound : r.check.Sound
  targets : r.targets.contains .source = false
  languages : r.languages = [.css]
  follows : r.check.Follows

namespace OnSheets

variable {r : Rule} (onSheets : r.OnSheets) {severity : Severity} {page sheet : Path}
include onSheets

/-- Such a rule asks nothing but the kind of a subject. -/
theorem appliesTo_eq (target : Target) (language : Language) :
    r.appliesTo target language = (r.targets.contains target && target.language? == some .css) := by
  obtain ⟨-, targets, languages, -⟩ := onSheets
  rw [appliesTo, languages]
  cases target with
  | source => rw [targets]; rfl
  | _ => rfl

theorem givesOnSheets (severity : Severity) (file : Path) (doc : Document) :
    GivesOnSheets (r.found severity file doc) := by
  intro s other
  rw [found, onSheets.appliesTo_eq, beq_false_of_ne other, Bool.and_false]
  rfl

/-- **What is found in a stylesheet inside a page is what is found in the file, moved.** -/
theorem found_shift {host file : Document} {o : Position} (embeds : host.Embeds o file)
    {s : Subject} (placed : s.Placed (.whole file.source.text)) :
    r.found severity page host (s.shift o) =
      (r.found severity sheet file s).map (Diagnostic.moveTo page o) := by
  rw [found, found, onSheets.appliesTo_eq, onSheets.appliesTo_eq, Subject.target_shift,
    onSheets.follows embeds s placed]
  split
  · cases r.check file s with
    | error reason => rfl
    | ok findings =>
        show (findings.map (Finding.shift o)).map _ = (findings.map _).map _
        rw [List.map_map, List.map_map]
        rfl
  · rfl

end OnSheets

end Rule

/-- A rule of the style guide that is restricted to stylesheets. -/
theorem StyleGuide.onSheets {r : Rule} (isRule : r ∈ rules) (onlyCss : r.languages = [.css]) :
    r.OnSheets := by
  have others : ∀ r ∈ sharedRules ++ htmlRules, r.languages ≠ [.css] := by
    simp [sharedRules, htmlRules]
  have noSource : ∀ r ∈ cssRules, r.targets.contains .source = false := by
    simp [cssRules]
  rcases List.mem_append.mp isRule with other | isCss
  · exact absurd onlyCss (others r other)
  · exact ⟨sound_rules r isRule, noSource r isCss, onlyCss, follows_cssRules r isCss⟩

namespace Checker

open Html

variable {c : Checker} {r : Rule} {page sheet : Path} {cs : List Char}

/-- **A run over a page is made of the runs over its stylesheets**, in order. -/
theorem diagnostics_runRule (onSheets : r.OnSheets) :
    (c.runRule page (.ofText .html cs) r).diagnostics = (styleTextsOf cs).flatMap fun t =>
      (c.runRule sheet (.ofText .css t.text) r).diagnostics.map
        (Diagnostic.moveTo page t.span.start) := by
  have answers : ∀ (language : Language) (cs : List Char),
      ∀ s ∈ Subject.source :: (Document.ofText language cs).subjects,
        ∃ findings, r.check (.ofText language cs) s = .ok findings := fun language cs =>
    onSheets.sound.answers (Document.source_ofText language cs) (Document.placed_subjects language cs)
  rw [runRule, Rule.diagnostics_runOver (answers .html cs),
    flatMap_subjects (onSheets.givesOnSheets _ _ _)]
  apply List.flatMap_congr
  intro t member
  have embeds := embeds_styleTexts member
  have source := onSheets.givesOnSheets (c.severityOf r) sheet (.ofText .css t.text) .source
    (by decide)
  rw [runRule, Rule.diagnostics_runOver (answers .css t.text), List.flatMap_cons, source,
    List.nil_append, TextNode.sheet, Css.Sheet.ofText_shift embeds.counted,
    Css.Sheet.subjects_shift, List.flatMap_map, List.map_flatMap]
  apply List.flatMap_congr
  intro s isSubject
  exact onSheets.found_shift embeds
    (Document.placed_subjects .css t.text s (List.mem_cons_of_mem _ isSubject))

end Checker

end PageLint
