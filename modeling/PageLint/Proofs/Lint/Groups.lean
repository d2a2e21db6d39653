/-
# PageLint.Proofs.Lint.Groups — the selectors of a group on lines of their own

The rule on groups of selectors reads the text between two selectors, which is trivia, a comma and
trivia again. It is content with a line feed anywhere in this text, and where there is none it points at
the first comma of the text (`Rules.told_of_parted`). So it asks for a line break between the comma and
the next selector, and points at the comma, where what stands before the comma holds neither a line
feed nor a comma (`Document.groups_broken`). A line feed before the comma keeps the rule quiet, and a
comma in a comment draws it away (`Document.groups_misjudged`).
-/
import PageLint.Proofs.Css.Commas
import PageLint.Proofs.Css.Making
import PageLint.Proofs.Lint.Runs

namespace PageLint

set_option autoImplicit false

open Text

/-- The style rule that a subject is, if it is one. -/
def Subject.cssStyleRule? : Subject → Option (Css.StyleRule Css.Item)
  | cssStyleRule rule => some rule
  | _ => none

namespace Css

variable {cs : List Char} {s s' : Selector} {front before after back : Tokens}
  {comma : Token TokenKind}

/-- In a stylesheet of which no empty selector is told, one comma stands between two selectors of a
rule. -/
theorem Sheet.exists_parted {rule : StyleRule Item}
    (whole : ∀ issue ∈ (Sheet.ofText cs .start).issues, issue.fault ≠ .emptySelector)
    (member : .cssStyleRule rule ∈ (Sheet.ofText cs .start).subjects)
    (pair : (s, s') ∈ rule.selectors.zip rule.selectors.tail) :
    ∃ front before comma after back, Parted (tokenize cs .start) s s' front before comma after back := by
  obtain ⟨prelude, inside, selectors, told⟩ := Sheet.exists_prelude member
  rw [selectors] at pair
  refine Css.exists_parted inside ?_ pair
  refine List.eq_nil_iff_forall_not_mem.mpr fun issue wrong => whole issue (told wrong) ?_
  exact fault_readSelectors prelude issue wrong

end Css

namespace Rules

variable {cs : List Char} {s s' : Css.Selector} {front before after back : Css.Tokens}
  {comma : CssToken} {doc : Document}

/-- What the rule finds of a selector that should begin a line, at a sign in front of it. -/
def unbroken (s : Css.Selector) (sign : Span) : Finding :=
  (Finding.filled sign [("selector", s.text)]).suggest "Break the line after the comma" ",\n"

/-- The first comma behind a place. -/
def firstComma (p : Position) (text : List Char) : Span :=
  .covering (p.after (text.takeWhile (· != ','))) [',']

/-- What the rule finds of two selectors that follow each other. -/
def tellUnbroken (doc : Document) (s s' : Css.Selector) : Option Finding :=
  let gap : Span := ⟨s.span.finish, s'.span.start⟩
  let between := doc.source.slice gap
  if between.contains '\n' then none
  else some (unbroken s' (if between.contains ',' then firstComma gap.start between else gap))

theorem selectorNewline_eq (doc : Document) (rule : Css.StyleRule Css.Item) :
    selectorNewline doc (.cssStyleRule rule) = ((selectorsOf rule).zip (selectorsOf rule).tail).filterMap
      fun pair => tellUnbroken doc pair.1 pair.2 := by
  rw [selectorNewline, List.drop_one]
  rfl

theorem takeWhile_before_sign {c : Char} (text more : List Char) :
    (text ++ c :: more).takeWhile (· != c) = text.takeWhile (· != c) := by
  rw [List.takeWhile_append]
  split
  next all =>
    rw [(List.takeWhile_prefix _).eq_of_length all]
    simp
  next => rfl

/-- **Between two selectors the rule looks for a line feed, and then for a comma**, on either side of
the one that parts them. -/
theorem tellUnbroken_of_parted (isSource : doc.source = ⟨cs⟩)
    (parted : Css.Parted (Css.tokenize cs .start) s s' front before comma after back) :
    tellUnbroken doc s s' =
      if '\n' ∈ textOf before ∨ '\n' ∈ textOf after then none
      else some (unbroken s' (firstComma s.span.finish (textOf before))) := by
  have text : textOf (before ++ comma :: after) = textOf before ++ ',' :: textOf after := by
    rw [textOf_append, textOf_cons, parted.textOf_comma]
    rfl
  simp only [tellUnbroken, isSource, parted.slice, text, firstComma, takeWhile_before_sign]
  simp

/-- Where no comma stands before the one that parts two selectors, that one is the first. -/
theorem firstComma_of_parted
    (parted : Css.Parted (Css.tokenize cs .start) s s' front before comma after back)
    (plain : ',' ∉ textOf before) : firstComma s.span.finish (textOf before) = comma.span := by
  have all : (textOf before).takeWhile (· != ',') = textOf before :=
    List.takeWhile_eq_self_iff.mpr fun c member => bne_iff_ne.mpr fun same => plain (same ▸ member)
  rw [parted.span_comma, firstComma, all]

end Rules

theorem StyleGuide.selectorNewline_of_id : ∀ r ∈ rules, r.id = "selector-newline" →
    r.check = .total Rules.selectorNewline ∧ r.targets = [.cssStyleRule] ∧ r.languages = [.css] := by
  simp [rules, sharedRules, htmlRules, cssRules]

/-- **Selectors on lines of their own.** What the rule tells of a stylesheet it tells of its style rules,
one after the other, and of a style rule that is no step of an animation it tells of its selectors by
pairs. If the stylesheet has no empty selector, one comma stands between the two of a pair, with trivia
on both sides of it. If that text has a line feed in it, on either side of the comma, nothing is told of
the pair; and else one thing, at the first comma in the text. So where what stands before the comma has
neither a line feed nor a comma in it, one thing is told if and only if no line feed stands between the
comma and the second selector, and it is told at the comma. -/
theorem Document.groups_broken {r : Rule} (isRule : r ∈ StyleGuide.rules)
    (named : r.id = "selector-newline") (c : Checker) (file : Path) {cs : List Char}
    (whole : ∀ issue ∈ (Css.Sheet.ofText cs .start).issues, issue.fault ≠ .emptySelector) :
    let sheet := Css.Sheet.ofText cs .start
    let found := fun rule => r.found (c.severityOf r) file (.ofText .css cs) (.cssStyleRule rule)
    (c.runRule file (.ofText .css cs) r).diagnostics =
        (sheet.subjects.filterMap Subject.cssStyleRule?).flatMap found ∧
      ∀ rule, .cssStyleRule rule ∈ sheet.subjects → rule.keyframe = false →
        ∃ told : Css.Selector × Css.Selector → List Diagnostic,
          found rule = (rule.selectors.zip rule.selectors.tail).flatMap told ∧
          ∀ pair ∈ rule.selectors.zip rule.selectors.tail, ∃ front before comma after back,
            Css.Parted sheet.tokens pair.1 pair.2 front before comma after back ∧
            (told pair = if '\n' ∈ textOf before ∨ '\n' ∈ textOf after then [] else
              [r.diagnostic (c.severityOf r) file (Rules.unbroken pair.2
                (Rules.firstComma pair.1.span.finish (textOf before)))]) ∧
            ('\n' ∉ textOf before → ',' ∉ textOf before →
              ((∃ d, told pair = [d]) ↔ '\n' ∉ textOf after) ∧
                ∀ d ∈ told pair, d.span = comma.span) := by
  intro sheet found
  obtain ⟨check, targets, languages⟩ := StyleGuide.selectorNewline_of_id r isRule named
  refine ⟨Checker.runRule_pieces check ?_ rfl ?_ c file, fun rule member steps => ?_⟩
  · intro s rule isStyle
    cases s <;> simp_all [Subject.cssStyleRule?]
  · intro s applies
    cases s <;> simp_all [Rule.appliesTo, Subject.target, Subject.cssStyleRule?]
  have own : found rule = (rule.selectors.zip rule.selectors.tail).flatMap fun pair =>
      (Rules.tellUnbroken (.ofText .css cs) pair.1 pair.2).toList.map
        (r.diagnostic (c.severityOf r) file) := by
    rw [show found rule = _ from Rule.found_total check ?_, Rules.selectorNewline_eq,
      Rules.selectorsOf, steps, List.filterMap_eq_flatMap_toList, List.map_flatMap]
    · rfl
    · simp [Rule.appliesTo, targets, languages, Subject.target, Target.language?]
  refine ⟨_, own, fun pair isPair => ?_⟩
  obtain ⟨front, before, comma, after, back, parted⟩ := Css.Sheet.exists_parted whole member isPair
  have source : (Document.ofText .css cs).source = ⟨cs⟩ := rfl
  have tells := Rules.tellUnbroken_of_parted source parted
  refine ⟨front, before, comma, after, back, parted, ?_, fun line plain => ⟨?_, ?_⟩⟩
  · rw [tells]
    split <;> rfl
  · rw [tells]
    by_cases later : '\n' ∈ textOf after <;> simp [line, later]
  · rw [tells]
    intro d isTold
    split at isTold
    · cases isTold
    · obtain rfl := List.mem_singleton.mp isTold
      exact Rules.firstComma_of_parted parted plain

/-- A comment in front of the comma does not matter. -/
theorem Document.groups_broken_comment :
    let text := "a/**/,b\x7b\x7d".toList
    (∀ issue ∈ (Css.Sheet.ofText text .start).issues, issue.fault ≠ .emptySelector) ∧
      ∃ r ∈ StyleGuide.rules, r.id = "selector-newline" ∧
        ∃ rule, .cssStyleRule rule ∈ (Css.Sheet.ofText text .start).subjects ∧ rule.keyframe = false ∧
          rule.selectors.map (·.text) = [['a'], ['b']] ∧
          ∃ d, r.found (Checker.severityOf {} r) ⟨"a.css"⟩ (.ofText .css text) (.cssStyleRule rule) = [d] ∧
            d.span = ⟨⟨5, 1, 6⟩, ⟨6, 1, 7⟩⟩ := by
  intro text
  have whole : ∀ issue ∈ (Css.Sheet.ofText text .start).issues, issue.fault ≠ .emptySelector := by
    decide +kernel
  have isRule : StyleGuide.cssRules[15] ∈ StyleGuide.rules :=
    List.mem_append_right _ (List.getElem_mem _)
  have shape : ((Css.Sheet.ofText text .start).subjects.filterMap Subject.cssStyleRule?).map
      (fun rule => (rule.keyframe, rule.selectors.map (·.text))) = [(false, [['a'], ['b']])] := by
    decide +kernel
  have lines : ∀ t ∈ Css.tokenize text .start, '\n' ∉ t.text := by decide +kernel
  have commas : ∀ t ∈ Css.tokenize text .start, Css.isTrivia t → ',' ∉ t.text := by decide +kernel
  have only : ∀ t ∈ Css.tokenize text .start, t.kind = .comma → t.span = ⟨⟨5, 1, 6⟩, ⟨6, 1, 7⟩⟩ := by
    decide +kernel
  obtain ⟨rule, rules, own⟩ := List.map_eq_singleton_iff.mp shape
  obtain ⟨steps, selectors⟩ := Prod.mk.inj own
  obtain ⟨s, s', two⟩ := List.length_eq_two.mp (by simpa using congrArg List.length selectors)
  have member : .cssStyleRule rule ∈ (Css.Sheet.ofText text .start).subjects := by
    obtain ⟨s, inSheet, isStyle⟩ := List.mem_filterMap.mp (rules ▸ List.mem_singleton_self rule)
    cases s <;> simp_all [Subject.cssStyleRule?]
  obtain ⟨-, tells⟩ := Document.groups_broken isRule rfl {} ⟨"a.css"⟩ whole
  obtain ⟨told, found, pairs⟩ := tells rule member steps
  rw [two] at found pairs
  obtain ⟨front, before, comma, after, back, parted, -, one⟩ := pairs (s, s') List.mem_cons_self
  have split : Css.tokenize text .start = _ := parted.split
  have inBefore : ∀ t ∈ before, t ∈ Css.tokenize text .start := fun t here => by simp [split, here]
  have inAfter : ∀ t ∈ after, t ∈ Css.tokenize text .start := fun t here => by simp [split, here]
  obtain ⟨exactly, place⟩ := one
    (notMem_textOf fun t here => lines t (inBefore t here))
    (notMem_textOf fun t here => commas t (inBefore t here) (parted.before t here))
  obtain ⟨d, single⟩ := exactly.mpr (notMem_textOf fun t here => lines t (inAfter t here))
  refine ⟨whole, _, isRule, rfl, rule, member, steps, selectors, d, ?_, ?_⟩
  · simpa [single] using found
  · rw [place d (by simp [single])]
    exact only comma (by simp [split]) parted.isComma

/-- **A line feed in front of a comma keeps the rule quiet**, though the next selector stands right behind
the comma; and a comma in a comment in front of it is pointed at in its place. -/
theorem Document.groups_misjudged :
    let a : Rules.CssToken := ⟨.ident, ['a'], ⟨⟨0, 1, 1⟩, ⟨1, 1, 2⟩⟩⟩
    let feed : Rules.CssToken := ⟨.blank, ['\n'], ⟨⟨1, 1, 2⟩, ⟨2, 2, 1⟩⟩⟩
    let comma : Rules.CssToken := ⟨.comma, [','], ⟨⟨2, 2, 1⟩, ⟨3, 2, 2⟩⟩⟩
    let b : Rules.CssToken := ⟨.ident, ['b'], ⟨⟨3, 2, 2⟩, ⟨4, 2, 3⟩⟩⟩
    let sheet := Css.Sheet.ofText "a\n,b\x7b\x7d".toList .start
    sheet.issues = [] ∧
      (sheet.subjects.filterMap Subject.cssStyleRule?).map (fun rule => (rule.keyframe, rule.selectors)) =
        [(false, [⟨['a'], a.span, [a]⟩, ⟨['b'], b.span, [b]⟩])] ∧
      Css.Parted sheet.tokens ⟨['a'], a.span, [a]⟩ ⟨['b'], b.span, [b]⟩ [] [feed] comma []
        (sheet.tokens.drop 4) ∧
      ∃ r ∈ StyleGuide.rules, r.id = "selector-newline" ∧
        (Checker.runRule {} ⟨"a.css"⟩ (.ofText .css "a\n,b\x7b\x7d".toList) r).diagnostics = [] ∧
        (Checker.runRule {} ⟨"a.css"⟩ (.ofText .css "a/*,*/,b\x7b\x7d".toList) r).diagnostics.map
          (·.span) = [⟨⟨3, 1, 4⟩, ⟨4, 1, 5⟩⟩] := by
  intro a feed comma b sheet
  refine ⟨by decide +kernel, by decide +kernel, ?_, StyleGuide.cssRules[15],
    List.mem_append_right _ (List.getElem_mem _), rfl, by decide +kernel, by decide +kernel⟩
  exact ⟨by decide +kernel, rfl, by decide, by simp, rfl, rfl⟩

end PageLint
