/-
# PageLint.Proofs.Lint.Paragraphs — paragraphs without their end tags

The rule on optional tags tells of the end tag of a paragraph if its parent ends next, or an element
follows that ends a paragraph (`Rule.found_paragraph`). It goes by the children of the parent alone. So
the end tag may go if the paragraph, with what is open in it there, would not go on without it
(`Document.paragraph_end_omitted`). But it may go on where its end tag was
(`Document.paragraph_end_needed`).
-/
import PageLint.Lint.StyleGuide
import PageLint.Proofs.Html.Abridged
import PageLint.Proofs.Lint.Runs

namespace PageLint

set_option autoImplicit false

open Text

/-! ## The rule -/

namespace Rules

variable {e parent : Html.Element} {ancestors : List Html.Element} {node : Html.Node}

/-- The next child that is no white space is the next sibling. -/
theorem nextSibling?_eq (next : parent.IsNext e node) : nextSibling? e parent = some node := by
  obtain ⟨earlier, blanks, rest, children, other, blank, solid⟩ := next
  have here : e.toNode.element?.any (·.tag.span == e.tag.span) = true := by
    simp [Html.element?_toNode]
  have before : ∀ n ∈ earlier, (!n.element?.any (·.tag.span == e.tag.span)) = true := by
    intro n member
    cases own : n.element? with
    | none => rfl
    | some e' => simpa using other n member e' own
  rw [nextSibling?, children, List.dropWhile_append_of_pos before,
    List.dropWhile_cons_of_neg (by simp [here]), List.drop_one, List.tail_cons, List.find?_append,
    List.find?_eq_none.mpr (by simpa using blank), List.find?_cons_of_pos (by simp [solid])]
  rfl

/-- What may follow a paragraph ends it. -/
theorem closedBy_of_follows {name : List Char} (follows : name ∈ paragraphFollowers) :
    Html.closedBy "p" name := by
  have all : ∀ name ∈ paragraphFollowers, Html.closedBy "p" name := by decide
  exact all name follows

/-- A paragraph whose end tag is not needed lies in an element, and its next sibling ends it. -/
theorem closedBy_of_isParagraphEndImplied (implied : isParagraphEndImplied e ancestors) :
    ancestors ≠ [] ∧ ∀ parent ∈ ancestors.getLast?, ∀ node, parent.IsNext e node →
      ∃ tag ∈ node.element?.map Html.Element.tag, Html.closedBy "p" tag.name := by
  rw [isParagraphEndImplied] at implied
  split at implied
  · cases implied
  next parent last =>
    refine ⟨fun none_ => ?_, fun parent' last' node next => ?_⟩
    · rw [none_] at last
      cases last
    obtain rfl := Option.some.inj (last.symm.trans last')
    rw [nextSibling?_eq next, Bool.and_eq_true] at implied
    cases own : node.element? with
    | none => simp [own] at implied
    | some n =>
        have follows : n.name ∈ paragraphFollowers := by simpa [own] using implied.2
        exact ⟨n.tag, rfl, closedBy_of_follows follows⟩

/-- The end tag of a paragraph is not needed. -/
def needlessEnd (s : Span) : Finding :=
  (Finding.filled s [("tag", "</p>")]).suggest "Remove the end tag" []

/-- All that the rule tells of a paragraph is that its end tag is not needed. -/
theorem optionalTags_paragraph (paragraph : e.name = "p") :
    optionalTags (.htmlElement e ancestors) =
      if isParagraphEndImplied e ancestors then e.endTag.toList.map needlessEnd else [] := by
  have noStart : impliedStartTag.contains e.name = false := by
    rw [paragraph]
    decide
  have verdict : isEndTagImplied e ancestors = isParagraphEndImplied e ancestors := if_pos paragraph
  rw [optionalTags, noStart, Bool.false_and, if_neg Bool.false_ne_true, List.nil_append, verdict,
    paragraph]
  cases e.endTag with
  | none => exact (ite_self _).symm
  | some s => rfl

end Rules

/-! ## Diagnostics -/

/-- An element that is handed to the rules is visited inside the elements handed with it. -/
theorem Html.stop_of_htmlElement {e : Element} {ancestors : List Element} {nodes : List Node}
    (visited : .htmlElement e ancestors ∈ nodesSubjects [] nodes) :
    ⟨e.toNode, ancestors⟩ ∈ stopsIn [] nodes := by
  rw [nodesSubjects_eq] at visited
  obtain ⟨stop, member, own⟩ := List.mem_flatMap.mp visited
  rcases List.mem_cons.mp own with same | embedded
  · obtain ⟨node, inside⟩ := stop
    cases node with
    | element tag children endTag span =>
        obtain ⟨rfl, rfl⟩ := Subject.htmlElement.inj same
        exact member
    | _ => cases same
  · obtain ⟨t, -, inSheet⟩ := List.mem_flatMap.mp embedded
    cases t.sheet.isCss_subjects _ inSheet

theorem StyleGuide.optionalTags_of_id : ∀ r ∈ rules, r.id = "optional-tags" →
    r.check = reading Rules.optionalTags ∧ r.targets = [.htmlElement] ∧ r.languages = [.html] := by
  simp [rules, sharedRules, htmlRules, cssRules]

/-- What the rule tells of a paragraph. -/
theorem Rule.found_paragraph {r : Rule} (isRule : r ∈ StyleGuide.rules)
    (named : r.id = "optional-tags") {e : Html.Element} (paragraph : e.name = "p")
    (severity : Severity) (file : Path) (cs : List Char) (ancestors : List Html.Element) :
    r.found severity file (.ofText .html cs) (.htmlElement e ancestors) =
      if Rules.isParagraphEndImplied e ancestors then
        e.endTag.toList.map (r.diagnostic severity file ∘ Rules.needlessEnd) else [] := by
  obtain ⟨check, targets, languages⟩ := StyleGuide.optionalTags_of_id r isRule named
  have looks : r.appliesTo (Subject.htmlElement e ancestors).target
      (Document.ofText .html cs).language := by
    simp [Rule.appliesTo, targets, languages, Subject.target, Target.language?]
  rw [Rule.found, if_pos looks, check]
  show (Rules.optionalTags (.htmlElement e ancestors)).map _ = _
  rw [Rules.optionalTags_paragraph paragraph]
  split
  · rw [List.map_map]
  · rfl

/-- **A paragraph may do without the end tag that the rule tells of**, if it would not go on without it.
The fix takes the end tag out, and then the page has the same elements with the same content, but for
white space, and no fault more often than before. -/
theorem Document.paragraph_end_omitted {r : Rule} (isRule : r ∈ StyleGuide.rules)
    (named : r.id = "optional-tags") (c : Checker) (file : Path) {cs : List Char}
    (shallow : (Html.Page.ofText cs).Shallow) {e : Html.Element} {ancestors : List Html.Element}
    (visited : .htmlElement e ancestors ∈ (Document.ofText .html cs).subjects)
    (paragraph : e.name = "p") {d : Diagnostic}
    (told : d ∈ r.found (c.severityOf r) file (.ofText .html cs) (.htmlElement e ancestors))
    (calm : (Html.Page.ofText cs).goesOnWithout d.span "p" = false) :
    d ∈ (c.runRule file (.ofText .html cs) r).diagnostics ∧ e.endTag = some d.span ∧
      ∃ fix, d.fix = some fix ∧ fix.replacement.toList = [] ∧
        let old := Html.Page.ofText cs
        let new := Html.Page.ofText (Source.splice ⟨cs⟩ d.span fix.replacement.toList)
        Html.bareIn new.nodes = Html.bareIn old.nodes ∧
          (Html.faults new.issues).Subperm (Html.faults old.issues) := by
  have heard : d ∈ (c.runRule file (.ofText .html cs) r).diagnostics := by
    have answer : ∀ s, r.check (.ofText .html cs) s = .ok (Rules.optionalTags s) := by
      intro s
      rw [(StyleGuide.optionalTags_of_id r isRule named).1]
      rfl
    rw [Checker.runRule, Rule.diagnostics_runOver fun s _ => ⟨_, answer s⟩]
    exact List.mem_flatMap.mpr ⟨_, List.mem_cons_of_mem _ visited, told⟩
  rw [Rule.found_paragraph isRule named paragraph] at told
  split at told
  next implied =>
    obtain ⟨s, ends, rfl⟩ := List.mem_map.mp told
    have ends : e.endTag = some s := Option.mem_toList.mp ends
    refine ⟨heard, ends, _, rfl, rfl, ?_⟩
    obtain ⟨inner, next⟩ := Rules.closedBy_of_isParagraphEndImplied implied
    rw [← paragraph] at next calm
    obtain ⟨edit, rfl, rfl, put, page⟩ := Html.Page.end_omitted shallow
      (Html.stop_of_htmlElement visited) ends (by rw [paragraph]; decide) inner next calm
    have written : Source.splice ⟨edit.old⟩ edit.span [] = edit.new := by
      rw [← put, Source.splice_span]
    rw [← written] at page
    exact page
  next => cases told

/-- An element, with those that it lies in, that is handed to the rules. -/
def Subject.htmlElementIn? : Subject → Option (Html.Element × List Html.Element)
  | .htmlElement e ancestors => some (e, ancestors)
  | _ => none

theorem Subject.mem_of_htmlElementIn? {subjects : List Subject} {e : Html.Element}
    {ancestors : List Html.Element}
    (member : (e, ancestors) ∈ subjects.filterMap htmlElementIn?) :
    .htmlElement e ancestors ∈ subjects := by
  obtain ⟨s, visited, own⟩ := List.mem_filterMap.mp member
  cases s with
  | htmlElement e' ancestors' =>
      cases own
      exact visited
  | _ => cases own

/-- A paragraph at the end of another element. -/
theorem Document.paragraph_end_omitted_last :
    let text := "<div><p>x</p> </div>".toList
    ∃ r ∈ StyleGuide.rules, r.id = "optional-tags" ∧
      ∃ d ∈ (Checker.runRule {} ⟨"a.html"⟩ (.ofText .html text) r).diagnostics,
        ∃ fix, d.fix = some fix ∧
          Source.splice ⟨text⟩ d.span fix.replacement.toList = "<div><p>x </div>".toList ∧
          Html.bareIn (Html.Page.ofText "<div><p>x </div>".toList).nodes =
            Html.bareIn (Html.Page.ofText text).nodes := by
  intro text
  let r := StyleGuide.htmlRules[4]
  have isRule : r ∈ StyleGuide.rules :=
    List.mem_append_left _ (List.mem_append_right _ (List.getElem_mem _))
  let s : Span := ⟨⟨9, 1, 10⟩, ⟨13, 1, 14⟩⟩
  have found : ((Document.ofText .html text).subjects.filterMap Subject.htmlElementIn?).any
      (fun (e, ancestors) => e.name == "p".toList && e.endTag == some s &&
        Rules.isParagraphEndImplied e ancestors) = true := by
    decide +kernel
  obtain ⟨⟨e, ancestors⟩, member, holds⟩ := List.any_eq_true.mp found
  simp only [Bool.and_eq_true, beq_iff_eq] at holds
  obtain ⟨⟨paragraph, ends⟩, implied⟩ := holds
  let d := r.diagnostic (Checker.severityOf {} r) ⟨"a.html"⟩ (Rules.needlessEnd s)
  have told : d ∈ r.found (Checker.severityOf {} r) ⟨"a.html"⟩ (.ofText .html text)
      (.htmlElement e ancestors) := by
    rw [Rule.found_paragraph isRule rfl paragraph, if_pos implied, ends]
    exact List.mem_singleton_self d
  have shallow : (Html.Page.ofText text).Shallow := by decide +kernel
  have calm : (Html.Page.ofText text).goesOnWithout d.span "p" = false := by decide +kernel
  have spliced : Source.splice ⟨text⟩ d.span (String.ofList []).toList =
      "<div><p>x </div>".toList := by decide +kernel
  obtain ⟨shown, -, fix, fixed, -, same, -⟩ := Document.paragraph_end_omitted isRule rfl {} ⟨"a.html"⟩
    shallow (Subject.mem_of_htmlElementIn? member) paragraph told calm
  obtain rfl := Option.some.inj fixed
  rw [spliced] at same
  exact ⟨r, isRule, rfl, d, shown, _, rfl, spliced, same⟩

/-- What elements hold, as far as their names and the number of their children. -/
def Html.layout (nodes : List Node) : List (List Char × Nat) :=
  (elementsOf (preorderIn nodes)).map fun e => (e.name, e.children.length)

/-- In this page, which does not nest too deep, the rule tells of the end tag of a paragraph, and with
its fix the page is another one. -/
def Document.TellsOfNeededEnd (text : List Char) : Prop :=
  ∃ r ∈ StyleGuide.rules, r.id = "optional-tags" ∧ (Html.Page.ofText text).Shallow ∧
    ∃ (e : Html.Element) (ancestors : List Html.Element),
      .htmlElement e ancestors ∈ (Document.ofText .html text).subjects ∧ e.name = "p" ∧
        ∃ d ∈ r.found (Checker.severityOf {} r) ⟨"a.html"⟩ (.ofText .html text)
            (.htmlElement e ancestors), e.endTag = some d.span ∧ ∃ fix, d.fix = some fix ∧
          Html.bareIn (Html.Page.ofText
            (Source.splice ⟨text⟩ d.span fix.replacement.toList)).nodes ≠
              Html.bareIn (Html.Page.ofText text).nodes

theorem Document.tellsOfNeededEnd_of_layout {text : List Char} (s : Span)
    (told : ((Document.ofText .html text).subjects.filterMap Subject.htmlElementIn?).any
      (fun (e, ancestors) => e.name == "p".toList && e.endTag == some s &&
        Rules.isParagraphEndImplied e ancestors) = true)
    (shallow : (Html.Page.ofText text).Shallow)
    (differ : Html.layout (Html.bareIn (Html.Page.ofText
      (Source.splice ⟨text⟩ s (String.ofList []).toList)).nodes) ≠
        Html.layout (Html.bareIn (Html.Page.ofText text).nodes)) : TellsOfNeededEnd text := by
  let r := StyleGuide.htmlRules[4]
  have isRule : r ∈ StyleGuide.rules :=
    List.mem_append_left _ (List.mem_append_right _ (List.getElem_mem _))
  obtain ⟨⟨e, ancestors⟩, member, holds⟩ := List.any_eq_true.mp told
  simp only [Bool.and_eq_true, beq_iff_eq] at holds
  obtain ⟨⟨paragraph, ends⟩, implied⟩ := holds
  refine ⟨r, isRule, rfl, shallow, e, ancestors, Subject.mem_of_htmlElementIn? member, paragraph,
    r.diagnostic (Checker.severityOf {} r) ⟨"a.html"⟩ (Rules.needlessEnd s), ?_, ends, _, rfl,
    fun same => differ (congrArg Html.layout same)⟩
  rw [Rule.found_paragraph isRule rfl paragraph, if_pos implied, ends]
  exact List.mem_singleton_self _

/-- **A paragraph goes on where its end tag was**: the rule tells of end tags that are needed. The next
start tag ends the element around the paragraph, or the paragraph holds an element that is open, or the
next end tag is that of a paragraph around it. -/
theorem Document.paragraph_end_needed :
    TellsOfNeededEnd "<table><tr><td><p>x</p><td>y</table>".toList ∧
      TellsOfNeededEnd "<div><p><b>x</p><p>y</p></div>".toList ∧
        TellsOfNeededEnd "<div><p><b><p>x</p></p>y</div>".toList := by
  refine ⟨tellsOfNeededEnd_of_layout ⟨⟨19, 1, 20⟩, ⟨23, 1, 24⟩⟩ ?_ ?_ ?_,
    tellsOfNeededEnd_of_layout ⟨⟨12, 1, 13⟩, ⟨16, 1, 17⟩⟩ ?_ ?_ ?_,
    tellsOfNeededEnd_of_layout ⟨⟨15, 1, 16⟩, ⟨19, 1, 20⟩⟩ ?_ ?_ ?_⟩
  all_goals decide +kernel

end PageLint
