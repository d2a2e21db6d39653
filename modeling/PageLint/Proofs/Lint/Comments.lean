/-
# PageLint.Proofs.Lint.Comments — which comments the rules are handed

Comments are read twice: for what they suppress, off the tokens, and by the rules, as pieces of the
tree. For the markup of a page both come to the same (`Page.comments_subjects`). Of a stylesheet the
rules are handed the comments that stand by themselves, and of the others it is known what they lie in
(`Css.Sheet.Accounted`). The rule on marks of work to do finds in a document what it finds in these
comments (`Document.comments_handed`).
-/
import PageLint.Proofs.Css.Constructs
import PageLint.Proofs.Html.Walk
import PageLint.Proofs.Lint.Hosts

namespace PageLint

set_option autoImplicit false

open Text

/-- The comment of the markup that a subject is, if it is one. -/
def Subject.htmlComment? : Subject → Option Css.Comment
  | .htmlComment c => some ⟨c.text, c.span⟩
  | _ => none

namespace Html

/-! ## Comments of the markup -/

/-- The comment that a node shows of itself, if it is one. -/
def Entry.comment? : Entry → Option Css.Comment
  | comment c => some ⟨c.text, c.span⟩
  | _ => none

/-- The comment that a token is, if it is one. -/
def commentOf? (t : Token TokenKind) : Option Css.Comment :=
  if t.kind == .comment then some ⟨t.text, t.span⟩ else none

theorem Entry.MadeOf.comment? {entry : Entry} {t : Token TokenKind} (made : entry.MadeOf t) :
    entry.comment? = commentOf? t := by
  cases entry with
  | element tag start => simp [Entry.comment?, commentOf?, made.1]
  | text u =>
      obtain ⟨kind, -, -⟩ := made
      have other : t.kind ≠ .comment := by
        intro same
        simp [same] at kind
      simp [Entry.comment?, commentOf?, other]
  | comment c =>
      obtain ⟨kind, text, span⟩ := made
      simp [Entry.comment?, commentOf?, kind, text, span]
  | doctype d => simp [Entry.comment?, commentOf?, made.1]

/-- **Every comment of the markup is visited**, in order. -/
theorem Page.comments_subjects (cs : List Char) :
    (nodesSubjects [] (Page.ofText cs).nodes).filterMap Subject.htmlComment? =
      (Page.ofText cs).comments := by
  have made := Page.entries_madeOf cs
  have plain : ∀ s : Subject, s.IsCss → s.htmlComment? = none := by
    intro s css
    cases s with
    | htmlComment c => cases css
    | _ => rfl
  have asked : ∀ stop : Stop, stop.subject.htmlComment? = stop.node.entry.comment? := by
    rintro ⟨node, ancestors⟩
    cases node <;> rfl
  have nodes : (preorderIn (Page.ofText cs).nodes).map (fun node => node.entry.comment?) =
      ((tokenize cs).filter makesNode).map commentOf? := by
    have same := map_eq_map_of_forall₂ made fun _ _ => Entry.MadeOf.comment?
    rwa [List.map_map] at same
  have tokens : ((tokenize cs).filter makesNode).filterMap commentOf? = (Page.ofText cs).comments := by
    have some_ : (Page.ofText cs).comments = (tokenize cs).filterMap commentOf? := by
      rw [Page.comments, ← List.filterMap_eq_map', List.filterMap_filter]
      rfl
    rw [some_, List.filterMap_filter]
    refine List.filterMap_congr fun t _ => ite_eq_left_iff.mpr fun other => ?_
    have kind : t.kind ≠ .comment := by
      intro kind
      simp [makesNode, kind] at other
    simp [commentOf?, kind]
  calc (nodesSubjects [] (Page.ofText cs).nodes).filterMap Subject.htmlComment?
      = ((stopsIn [] (Page.ofText cs).nodes).map Stop.node).filterMap
          fun node => node.entry.comment? := by
        rw [filterMap_nodesSubjects plain, List.filterMap_map]
        exact List.filterMap_congr fun stop _ => asked stop
    _ = ((preorderIn (Page.ofText cs).nodes).map fun node => node.entry.comment?).filterMap id := by
        rw [map_node_stopsIn, List.filterMap_map]
        rfl
    _ = ((tokenize cs).filter makesNode).filterMap commentOf? := by
        rw [nodes, List.filterMap_map]
        rfl
    _ = (Page.ofText cs).comments := tokens

/-- The comments of a page's stylesheets that the rules are handed stand by themselves. -/
theorem Page.comments_sheets (cs : List Char) :
    (nodesSubjects [] (Page.ofText cs).nodes).filterMap Subject.cssComment? =
      (Page.ofText cs).sheets.flatMap Css.Sheet.standing := by
  have plain : GivesOnSheets fun s : Subject => s.cssComment?.toList := by
    intro s other
    cases s with
    | cssComment c => exact absurd rfl other
    | _ => rfl
  rw [List.filterMap_eq_flatMap_toList, flatMap_nodesSubjects plain]
  show (styleTextsOf cs).flatMap _ = ((styleTextsOf cs).map TextNode.sheet).flatMap _
  rw [List.flatMap_map]
  refine List.flatMap_congr fun t member => ?_
  rw [← List.filterMap_eq_flatMap_toList, TextNode.sheet,
    Css.Sheet.comments_subjects (embeds_styleTexts member).counted]

end Html

/-! ## Comments of a document -/

/-- **What becomes of the tokens of a stylesheet.** Its constructs are its tokens, cut; those that are
comments are comments of the sheet, in order; and each construct leaves in the tree what is said of
its kind, which is all that the tree holds. -/
structure Css.Sheet.Accounted (sheet : Css.Sheet) : Prop where
  cut : sheet.constructs.flatten = sheet.tokens
  standing : sheet.standing.Sublist sheet.comments
  left : ∃ left : List (List Css.Imprint),
    List.Forall₂ (Css.Leaves Css.depthCap sheet.issues) sheet.constructs left ∧
      (sheet.subjects.filterMap Subject.imprint?).Perm left.flatten

theorem Css.Sheet.accounted (cs : List Char) (o : Position) : (Css.Sheet.ofText cs o).Accounted :=
  ⟨flatten_constructs _, standing_sublist _, imprints_perm cs o⟩

/-- The rule on marks of work to do looks at comments alone. -/
theorem StyleGuide.todoFormat_of_id : ∀ r ∈ rules, r.id = "todo-format" →
    r.check = reading Rules.todoFormat ∧ r.targets = [.htmlComment, .cssComment] ∧
      r.languages = [.html, .css] := by
  simp [rules, sharedRules, htmlRules, cssRules]

namespace Document

/-- The comments of the markup; a stylesheet has none. -/
def markupComments : Document → List Css.Comment
  | html page => page.comments
  | css _ _ => []

/-- The stylesheets of a document. -/
def sheets : Document → List Css.Sheet
  | html page => page.sheets
  | css _ sheet => [sheet]

/-- The comments of a document that the rules are handed: all of the markup, and of its stylesheets
those that stand by themselves. -/
def handed (doc : Document) : List Css.Comment :=
  doc.markupComments ++ doc.sheets.flatMap Css.Sheet.standing

variable {r : Rule} {doc : Document}

theorem comments_markup (language : Language) (cs : List Char) :
    (ofText language cs).subjects.filterMap Subject.htmlComment? =
      (ofText language cs).markupComments := by
  cases language with
  | html => exact Html.Page.comments_subjects cs
  | css =>
      refine List.filterMap_eq_nil_iff.mpr fun s member => ?_
      have css := (Css.Sheet.ofText cs .start).isCss_subjects s member
      cases s with
      | htmlComment c => cases css
      | _ => rfl

theorem comments_sheets (language : Language) (cs : List Char) :
    (ofText language cs).subjects.filterMap Subject.cssComment? =
      (ofText language cs).sheets.flatMap Css.Sheet.standing := by
  cases language with
  | html => exact Html.Page.comments_sheets cs
  | css =>
      exact (Css.Sheet.comments_subjects Position.counted_start cs).trans
        (List.flatMap_singleton _ _).symm

theorem accounted_sheets (language : Language) (cs : List Char) :
    ∀ sheet ∈ (ofText language cs).sheets, sheet.Accounted := by
  intro sheet member
  cases language with
  | html =>
      obtain ⟨t, -, rfl⟩ := List.mem_map.mp member
      exact Css.Sheet.accounted t.text t.span.start
  | css =>
      rw [List.mem_singleton.mp member]
      exact Css.Sheet.accounted cs .start

/-- The rule on marks of work to do reports of a document what it reports of the comments that it is
handed. -/
theorem todos_handed (isRule : r ∈ StyleGuide.rules) (named : r.id = "todo-format")
    (c : Checker) (file : Path) (language : Language) (cs : List Char) :
    (c.runRule file (ofText language cs) r).diagnostics.Perm
      ((ofText language cs).handed.flatMap fun comment =>
        (Rules.todosIn none comment.span.start comment.text).map
          (r.diagnostic (c.severityOf r) file)) := by
  obtain ⟨check, targets, languages⟩ := StyleGuide.todoFormat_of_id r isRule named
  generalize give : (fun comment : Css.Comment =>
    (Rules.todosIn none comment.span.start comment.text).map
      (r.diagnostic (c.severityOf r) file)) = report
  have found : ∀ s : Subject, r.found (c.severityOf r) file (ofText language cs) s =
      s.htmlComment?.toList.flatMap report ++ s.cssComment?.toList.flatMap report := by
    intro s
    cases s <;> simp [Rule.found, Rule.appliesTo, targets, languages, check, Subject.target,
      Target.language?, StyleGuide.reading, Check.total, Rules.todoFormat, Subject.htmlComment?,
      Subject.cssComment?, ← give]
  have answers : ∀ s ∈ Subject.source :: (ofText language cs).subjects,
      ∃ findings, r.check (ofText language cs) s = .ok findings := by
    intro s _
    rw [check]
    exact ⟨_, rfl⟩
  have none_ : r.found (c.severityOf r) file (ofText language cs) .source = [] := found .source
  rw [Checker.runRule, Rule.diagnostics_runOver answers, List.flatMap_cons, none_, List.nil_append,
    List.flatMap_congr fun s _ => found s, handed, List.flatMap_append, ← comments_markup,
    ← comments_sheets, List.filterMap_eq_flatMap_toList, List.filterMap_eq_flatMap_toList,
    List.flatMap_assoc, List.flatMap_assoc]
  exact (List.flatMap_append_perm _ _ _).symm

/-- **Which comments the rules are handed.** Of those that are read for what they suppress, the markup's
are all visited, in order. Of a stylesheet, alone or in a page, those are visited, in order, that stand
by themselves; any other one is part of a construct that is known: of a prelude, of a declaration
after its property, or of tokens that are skipped and of which that is told. What the rule on marks of
work to do reports is what it reports of the comments that are visited. -/
theorem comments_handed (language : Language) (cs : List Char) :
    (ofText language cs).comments = (ofText language cs).markupComments ++
        (ofText language cs).sheets.flatMap Css.Sheet.comments ∧
      (ofText language cs).subjects.filterMap Subject.htmlComment? =
        (ofText language cs).markupComments ∧
      (ofText language cs).subjects.filterMap Subject.cssComment? =
        (ofText language cs).sheets.flatMap Css.Sheet.standing ∧
      (∀ sheet ∈ (ofText language cs).sheets, sheet.Accounted) ∧
      ∀ r ∈ StyleGuide.rules, r.id = "todo-format" → ∀ (c : Checker) (file : Path),
        (c.runRule file (ofText language cs) r).diagnostics.Perm
          ((ofText language cs).handed.flatMap fun comment =>
            (Rules.todosIn none comment.span.start comment.text).map
              (r.diagnostic (c.severityOf r) file)) := by
  refine ⟨?_, comments_markup language cs, comments_sheets language cs,
    accounted_sheets language cs, fun r isRule named c file =>
      todos_handed isRule named c file language cs⟩
  cases language with
  | html => rfl
  | css => exact (List.flatMap_singleton _ _).symm

/-- Of two comments with marks of work to do the one ahead of the rule is handed to the rules. -/
theorem comments_handed_ahead :
    (ofText .css "/*TODO*/a/*TODO*/{}".toList).subjects.filterMap Subject.cssComment? =
        [⟨"/*TODO*/".toList, ⟨⟨0, 1, 1⟩, ⟨8, 1, 9⟩⟩⟩] ∧
      ∃ r ∈ StyleGuide.rules, r.id = "todo-format" ∧
        (Checker.runRule {} ⟨"a.css"⟩ (ofText .css "/*TODO*/a/*TODO*/{}".toList)
          r).diagnostics.length = 1 := by
  obtain ⟨-, -, visited, -, todos⟩ := comments_handed .css "/*TODO*/a/*TODO*/{}".toList
  have isRule : StyleGuide.sharedRules[5] ∈ StyleGuide.rules :=
    List.mem_append_left _ (List.mem_append_left _ (List.getElem_mem _))
  refine ⟨visited.trans (by decide +kernel), _, isRule, rfl, ?_⟩
  rw [(todos _ isRule rfl {} ⟨"a.css"⟩).length_eq]
  decide +kernel

/-- A comment in a prelude is read for what it suppresses, and no rule is handed it. -/
theorem prelude_comment_not_handed :
    (ofText .css "a/*TODO*/{}".toList).comments =
        [⟨"/*TODO*/".toList, ⟨⟨1, 1, 2⟩, ⟨9, 1, 10⟩⟩⟩] ∧
      (ofText .css "a/*TODO*/{}".toList).subjects.filterMap Subject.cssComment? = [] ∧
      (ofText .css "a/*TODO*/{}".toList).subjects.flatMap Rules.todoFormat = [] ∧
      (Rules.todosIn none ⟨1, 1, 2⟩ "/*TODO*/".toList).length = 1 := by
  decide +kernel

end Document

end PageLint
