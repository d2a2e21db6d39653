/-
# PageLint.Lint.Rules.Layout — space around blocks

A brace opens a block after one space, on the line of what it belongs to, and a
blank line comes between rules. Comments ahead of a rule belong to it, from the
first one that begins after the line of the rule before.
-/
import PageLint.Lint.Rule

namespace PageLint.Rules

set_option autoImplicit false

open Text

/-- What is wrong with the gap between a head and the `{` of its block. -/
def badGap (doc : Document) (headEnd : Position) (opening : Span) : List Finding :=
  let gap : Span := ⟨headEnd, opening.start⟩
  let spacing := doc.source.slice gap
  if spacing = [' '] then []
  else
    let found :=
      if spacing.isEmpty then Finding.filled opening
      else if spacing.contains '\n' then
        .saying gap "Put the opening brace on the same line as the selector"
      else .filled gap
    [found.suggest "Use a single space" [' ']]

/-- One space comes before the brace that opens a block. -/
def braceSpacing (doc : Document) : Subject → List Finding
  | .cssStyleRule r =>
    match r.prelude, r.block.opening with
    | some head, some opening => badGap doc head.finish opening
    | _, _ => []
  | .cssAtRule r =>
    match r.opening? with
    | some opening => badGap doc (r.preludeSpan.getD r.nameSpan).finish opening
    | none => []
  | _ => []

/-- An at-rule without a block. -/
def isStatement : Css.Item → Bool
  | .atRule r => r.isStatement
  | _ => false

/-- What opens an item: a selector or an at-keyword. -/
def headSpan : Css.Item → Span
  | .style r => (r.prelude.or r.block.opening).getD r.span
  | .atRule r => r.nameSpan
  | item => .emptyAt item.span.start

/-- The rules of a list that no blank line sets off from the rule before. `previous`
is the rule before, and `lead` where the comments ahead of the next one begin. -/
def crowdedRules (previous : Option Css.Item) (lead : Option Position) : List Css.Item → List Finding
  | [] => []
  | .comment c :: rest =>
    let starts := previous.any fun p => p.span.finish.line < c.span.start.line
    crowdedRules previous (lead.or (if starts then some c.span.start else none)) rest
  | .declarations _ :: rest => crowdedRules none none rest
  | item :: rest =>
    let own : List Finding :=
      match previous with
      | none => []
      | some p =>
        let start := lead.getD item.span.start
        if !(isStatement p && isStatement item) && start.line ≤ p.span.finish.line + 1 then
          [(Finding.filled (headSpan item)).suggest "Insert a blank line" ['\n']]
        else []
    own ++ crowdedRules (some item) none rest

/-- A blank line comes between rules, except between at-rules without a block and
between the steps of an animation. -/
def ruleBlankLine : Subject → List Finding
  | .cssRuleList items parent =>
    if parent.any (·.isKeyframes) then [] else crowdedRules none none items
  | _ => []

end PageLint.Rules
