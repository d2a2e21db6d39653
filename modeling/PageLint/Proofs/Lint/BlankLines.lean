/-
# PageLint.Proofs.Lint.BlankLines — blank lines between rules

The rule on blank lines goes over a list of items once, with the rule before and the first comment below
it in hand. So what it finds in a list comes apart at every two rules with nothing but comments between
them (`Rules.crowdedRules_between`), and of these it compares two lines: the one on which the first ends,
and the one on which the second begins, or the comments ahead of it (`Rules.leadIn`).

It never looks at what stands between these lines. If all of that is white space, the line below the first
rule is blank, and the rule does ask for a blank line (`Document.rules_apart`). If not, there need be no
blank line at all: a comment that begins next to the first rule and goes on below it keeps the rule quiet
(`Document.rules_misjudged`).
-/
import PageLint.Proofs.Css.Stretches
import PageLint.Proofs.Lint.Runs
import PageLint.Proofs.Text.Lines
import PageLint.Lint.StyleGuide

namespace PageLint

set_option autoImplicit false

open Text

/-- The items that a subject lists, if it is a list, with the at-rule that they stand in. -/
def Subject.cssRuleList? : Subject → Option (List Css.Item × Option (Css.AtRule Css.Item))
  | cssRuleList items parent => some (items, parent)
  | _ => none

/-- Whether an item is a rule of either kind. -/
def Css.Item.isRule : Css.Item → Bool
  | .style _ => true
  | .atRule _ => true
  | _ => false

/-! ## Blank lines of a text -/

namespace Source

variable {cs passed gap rest : List Char}

/-- **Where a stretch reaches beyond the next line**, and holds nothing but white space from its first line
feed on, the next line is blank. -/
theorem exists_blank_line (whole : cs = passed ++ (gap ++ rest))
    (blank : ∀ a b, gap = a ++ '\n' :: b → ∀ d ∈ b, isBlank d)
    (apart : (Position.start.after passed).line + 1 < (Position.start.after (passed ++ gap)).line) :
    ∃ text, line? ⟨cs⟩ ((Position.start.after passed).line + 1) = some text ∧ ∀ d ∈ text, isBlank d := by
  rw [Position.after_append, Position.line_after _ gap] at apart
  have feeds : 1 < gap.count '\n' := by omega
  obtain ⟨a, b, rfl, before⟩ :=
    List.eq_append_cons_of_mem (List.count_pos_iff.mp (Nat.zero_lt_of_lt feeds))
  rw [List.count_append, List.count_eq_zero_of_not_mem before, List.count_cons_self] at feeds
  have more : 0 < b.count '\n' := by omega
  obtain ⟨piece, b', rfl, unbroken⟩ := List.eq_append_cons_of_mem (List.count_pos_iff.mp more)
  have parted : cs = passed ++ a ++ '\n' :: (piece ++ '\n' :: (b' ++ rest)) := by
    rw [whole]
    simp
  have number : (Position.start.after passed).line + 1 =
      (Position.start.after (passed ++ a ++ ['\n'])).line := by
    rw [Position.after_append, Position.after_append, Position.line_after _ ['\n'],
      Position.line_after _ a, List.count_eq_zero_of_not_mem before]
    rfl
  refine ⟨content piece, ?_, fun d member => ?_⟩
  · rw [parted, number]
    exact line?_between _ _ unbroken
  · have inside := (getD_stripTail_leads ['\r'] piece).subset member
    exact blank a (piece ++ '\n' :: b') rfl d (List.mem_append_left _ inside)

end Source

namespace Rules

variable {previous : Option Css.Item} {lead : Option Position} {p n : Css.Item}
  {items front back : List Css.Item} {comments : List Css.Comment} {cs : List Char}

/-! ## Two rules of a list -/

/-- Where a rule begins, with the comments ahead of it: those from the first one that begins below the
last line of the rule before. -/
def leadIn (p : Css.Item) (comments : List Css.Comment) (n : Css.Item) : Position :=
  ((comments.find? fun c => p.span.finish.line < c.span.start.line).map (·.span.start)).getD n.span.start

/-- What is told of a rule that is not set off. -/
def crowded (n : Css.Item) : Finding :=
  (Finding.filled (headSpan n)).suggest "Insert a blank line" ['\n']

/-- What the rule says of two rules that follow each other. -/
def tellCrowded (p : Css.Item) (comments : List Css.Comment) (n : Css.Item) : List Finding :=
  if !(isStatement p && isStatement n) && (leadIn p comments n).line ≤ p.span.finish.line + 1 then
    [crowded n]
  else []

theorem crowdedRules_rule (isRule : n.isRule) (previous : Option Css.Item) (lead : Option Position) :
    crowdedRules previous lead (n :: back) =
      (match previous with
        | none => []
        | some p =>
          if !(isStatement p && isStatement n) &&
              (lead.getD n.span.start).line ≤ p.span.finish.line + 1 then [crowded n]
          else []) ++ crowdedRules (some n) none back := by
  cases n with
  | style rule => cases previous <;> rfl
  | atRule rule => cases previous <;> rfl
  | declarations block => cases isRule
  | comment c => cases isRule

/-- Comments are gone over for the first one that begins below the rule before. -/
theorem crowdedRules_comments (lead : Option Position) (rest : List Css.Item) :
    crowdedRules (some p) lead (comments.map .comment ++ rest) =
      crowdedRules (some p) (lead.or ((comments.find? fun c =>
        p.span.finish.line < c.span.start.line).map (·.span.start))) rest := by
  induction comments generalizing lead with
  | nil => simp
  | cons c comments ih =>
      rw [List.map_cons, List.cons_append, crowdedRules, ih, Option.or_assoc]
      by_cases below : p.span.finish.line < c.span.start.line <;> simp [below]

/-- A rule begins the search anew. -/
theorem crowdedRules_append (isRule : p.isRule) (rest : List Css.Item) :
    crowdedRules previous lead (front ++ p :: rest) =
      crowdedRules previous lead (front ++ [p]) ++ crowdedRules (some p) none rest := by
  induction front generalizing previous lead with
  | nil =>
      rw [List.nil_append, List.nil_append, crowdedRules_rule isRule, crowdedRules_rule isRule,
        List.append_assoc]
      rfl
  | cons item front ih =>
      rw [List.cons_append, List.cons_append]
      cases item with
      | comment c => rw [crowdedRules, crowdedRules, ih]
      | declarations block => rw [crowdedRules, crowdedRules, ih]
      | style rule => rw [crowdedRules_rule rfl, crowdedRules_rule rfl, ih, List.append_assoc]
      | atRule rule => rw [crowdedRules_rule rfl, crowdedRules_rule rfl, ih, List.append_assoc]

/-- **What is found in a list comes apart between two rules** with nothing but comments between them. -/
theorem crowdedRules_between (first : p.isRule) (second : n.isRule) :
    crowdedRules previous lead (front ++ p :: (comments.map .comment ++ n :: back)) =
      crowdedRules previous lead (front ++ [p]) ++
        (tellCrowded p comments n ++ crowdedRules (some n) none back) := by
  rw [crowdedRules_append first, crowdedRules_comments, crowdedRules_rule second, Option.none_or]
  rfl

/-- What is told is told at what opens a rule of the list. -/
theorem mem_crowdedRules {f : Finding} (found : f ∈ crowdedRules previous lead items) :
    ∃ item ∈ items, item.isRule ∧ f.span = headSpan item := by
  induction items generalizing previous lead with
  | nil => cases found
  | cons item items ih =>
      have later : ∀ {previous lead}, f ∈ crowdedRules previous lead items →
          ∃ other ∈ item :: items, other.isRule ∧ f.span = headSpan other := by
        intro previous lead inside
        obtain ⟨other, member, isRule, same⟩ := ih inside
        exact ⟨other, List.mem_cons_of_mem item member, isRule, same⟩
      have own : item.isRule → ∃ other ∈ item :: items, other.isRule ∧ f.span = headSpan other := by
        intro isRule
        rw [crowdedRules_rule isRule] at found
        rcases List.mem_append.mp found with here | inside
        · refine ⟨item, List.mem_cons_self, isRule, ?_⟩
          split at here
          · cases here
          split at here
          · rw [List.mem_singleton.mp here]
            rfl
          · cases here
        · exact later inside
      cases item with
      | comment c =>
          rw [crowdedRules] at found
          exact later found
      | declarations block =>
          rw [crowdedRules] at found
          exact later found
      | style rule => exact own rfl
      | atRule rule => exact own rfl

/-- **What is told of a rule** is what the list has at the head of the rule, if no other one opens
there. -/
theorem filter_crowdedRules (comments : List Css.Comment) (first : p.isRule) (second : n.isRule)
    (apart : ∀ x ∈ front ++ p :: back, x.isRule → headSpan x ≠ headSpan n) :
    (crowdedRules none none (front ++ p :: (comments.map .comment ++ n :: back))).filter
      (fun f => f.span = headSpan n) = tellCrowded p comments n := by
  have others : ∀ {previous lead items}, items ⊆ front ++ p :: back →
      (crowdedRules previous lead items).filter (fun f => f.span = headSpan n) = [] := by
    intro previous lead items fewer
    refine List.filter_eq_nil_iff.mpr fun f found => ?_
    obtain ⟨x, member, isRule, place⟩ := mem_crowdedRules found
    simpa [place] using apart x (fewer member) isRule
  have own : (tellCrowded p comments n).filter (fun f => f.span = headSpan n) =
      tellCrowded p comments n := by
    refine List.filter_eq_self.mpr fun f found => ?_
    rw [tellCrowded] at found
    split at found
    · rw [List.mem_singleton.mp found]
      exact decide_eq_true rfl
    · cases found
  rw [crowdedRules_between first second, List.filter_append, List.filter_append, own,
    others (by simp), others (by simp), List.append_nil, List.nil_append]

theorem leadIn_eq (p : Css.Item) (comments : List Css.Comment) (n : Css.Item) :
    ∃ item ∈ comments.map Css.Item.comment ++ [n], leadIn p comments n = item.span.start := by
  rw [leadIn]
  cases found : comments.find? fun c => p.span.finish.line < c.span.start.line with
  | none => exact ⟨n, by simp, rfl⟩
  | some c =>
      refine ⟨.comment c, ?_, rfl⟩
      exact List.mem_append_left _ (List.mem_map_of_mem (List.mem_of_find?_eq_some found))

/-! ## Rules at their places -/

/-- What opens a rule takes up some of its stretch. -/
theorem headSpan_inside (sound : n.Sound cs) (placed : n.HeadPlaced (.whole cs)) (isRule : n.isRule) :
    n.span.contains (headSpan n) ∧ (headSpan n).start.offset < (headSpan n).finish.offset := by
  have head : headSpan n ∈ n.head? := by
    cases n with
    | style rule =>
        obtain ⟨opening, found, -⟩ := Css.StyleRule.Placed.opening placed
        cases both : rule.prelude.or rule.block.opening with
        | none => simp [Option.mem_def.mp found] at both
        | some s => rw [headSpan, both, Css.Item.head?, both]; rfl
    | atRule rule => rfl
    | declarations block => cases isRule
    | comment c => cases isRule
  exact ⟨sound.laid.own.contains_head _ head, (sound.stretched.own.head _ head).some_⟩

/-- No two rules of a list are opened at one place. -/
theorem headSpan_ne (inOrder : InOrder (items.map Css.Item.span)) (sound : ∀ item ∈ items, item.Sound cs)
    (placed : ∀ item ∈ items, item.HeadPlaced (.whole cs))
    (list : items = front ++ p :: (comments.map .comment ++ n :: back)) (isRule : n.isRule) :
    ∀ x ∈ front ++ p :: back, x.isRule → headSpan x ≠ headSpan n := by
  have here : n ∈ items := by simp [list]
  obtain ⟨inside, some_⟩ := headSpan_inside (sound n here) (placed n here) isRule
  obtain ⟨begins, ends⟩ := span_contains_iff.mp inside
  have ordered := inOrder.ordered
  rw [list, ← List.singleton_append, ← List.append_assoc, ← List.append_assoc, List.map_append,
    List.map_cons] at ordered
  obtain ⟨-, behind, ahead⟩ := List.pairwise_append.mp ordered
  intro x member xRule same
  have there : x ∈ items := by
    rw [list]
    simp only [List.mem_append, List.mem_cons] at member ⊢
    tauto
  obtain ⟨inside', some'⟩ := headSpan_inside (sound x there) (placed x there) xRule
  obtain ⟨begins', ends'⟩ := span_contains_iff.mp inside'
  rw [same] at begins' ends'
  rw [← List.singleton_append, ← List.append_assoc] at member
  rcases List.mem_append.mp member with earlier | later
  · have before := ahead x.span (List.mem_map_of_mem (List.mem_append_left _ earlier)) n.span
      List.mem_cons_self
    omega
  · have after := List.rel_of_pairwise_cons behind (List.mem_map_of_mem later)
    omega

end Rules

theorem StyleGuide.ruleBlankLine_of_id : ∀ r ∈ rules, r.id = "rule-blank-line" →
    r.check = .total (fun _ => Rules.ruleBlankLine) ∧ r.targets = [.cssRuleList] ∧
      r.languages = [.css] := by
  simp [rules, sharedRules, htmlRules, cssRules, reading]

open Rules in
/-- **Rules set off from each other.** What the rule tells of a stylesheet it tells of its lists of items,
one after the other. In a list that does not hold the steps of an animation, take two rules with nothing
but comments between them, not both of them at-rules without a block: then one thing is told at the head of
the second one if it begins, with the comments ahead of it, at most one line below the last line of the
first; and else nothing.

So something is told just if no line at all lies between these two lines. If the text from the one to the
other is white space, once its first line is over, that is to say that no blank line lies between
them. -/
theorem Document.rules_apart {r : Rule} (isRule : r ∈ StyleGuide.rules)
    (named : r.id = "rule-blank-line") (c : Checker) (file : Path) (cs : List Char) :
    let sheet := Css.Sheet.ofText cs .start
    let found := fun (list : List Css.Item × Option (Css.AtRule Css.Item)) =>
      r.found (c.severityOf r) file (.ofText .css cs) (.cssRuleList list.1 list.2)
    (c.runRule file (.ofText .css cs) r).diagnostics =
        (sheet.subjects.filterMap Subject.cssRuleList?).flatMap found ∧
      ∀ items parent, .cssRuleList items parent ∈ sheet.subjects → parent.any (·.isKeyframes) = false →
        ∀ front p comments n back, items = front ++ p :: (comments.map .comment ++ n :: back) →
          p.isRule → n.isRule → ¬ (isStatement p ∧ isStatement n) →
            let told := (found (items, parent)).filter fun d => d.span = headSpan n
            let finish := p.span.finish
            let start := leadIn p comments n
            (told = if start.line ≤ finish.line + 1 then
              [r.diagnostic (c.severityOf r) file (crowded n)] else []) ∧
            ∃ passed gap rest, cs = passed ++ (gap ++ rest) ∧ finish = Position.start.after passed ∧
              start = Position.start.after (passed ++ gap) ∧
              ((∀ a b, gap = a ++ '\n' :: b → ∀ d ∈ b, isBlank d) →
                (told ≠ [] ↔ ¬ ∃ line text, finish.line < line ∧ line < start.line ∧
                  Source.line? ⟨cs⟩ line = some text ∧ ∀ d ∈ text, isBlank d)) := by
  intro sheet found
  obtain ⟨check, targets, languages⟩ := StyleGuide.ruleBlankLine_of_id r isRule named
  refine ⟨Checker.runRule_pieces check ?_ rfl ?_ c file, ?_⟩
  · intro s list isList
    cases s <;> simp_all [Subject.cssRuleList?]
    rw [← isList]
    exact ⟨rfl, rfl⟩
  · intro s applies
    cases s <;> simp_all [Rule.appliesTo, Subject.target, Subject.cssRuleList?]
  intro items parent member steps front p comments n back list first second blocks told finish start
  have sound : InOrder (items.map Css.Item.span) ∧ ∀ item ∈ items, item.Sound cs :=
    Css.Sheet.itemsSound cs _ member
  have placed : ∀ item ∈ items, item.HeadPlaced (.whole cs) :=
    Css.Sheet.placed_ofText (Passage.holds_origin (.whole cs)) _ member
  have own : found (items, parent) =
      (crowdedRules none none items).map (r.diagnostic (c.severityOf r) file) := by
    rw [show found (items, parent) = _ from Rule.found_total check ?_, ruleBlankLine, steps]
    · rfl
    · simp [Rule.appliesTo, targets, languages, Subject.target, Target.language?]
  have tells : told = if start.line ≤ finish.line + 1 then
      [r.diagnostic (c.severityOf r) file (crowded n)] else [] := by
    have alone := filter_crowdedRules comments first second
      (headSpan_ne sound.1 sound.2 placed list second)
    have same : told = ((crowdedRules none none items).filter fun f => f.span = headSpan n).map
        (r.diagnostic (c.severityOf r) file) := by
      rw [show told = (found (items, parent)).filter _ from rfl, own, List.filter_map]
      rfl
    have both : (isStatement p && isStatement n) = false := by simpa using blocks
    rw [same, list, alone, tellCrowded, both, Bool.not_false, Bool.true_and, apply_ite (List.map _)]
    simp only [decide_eq_true_eq]
    rfl
  refine ⟨tells, ?_⟩
  obtain ⟨item, isNext, begins⟩ := leadIn_eq p comments n
  have next : item ∈ comments.map Css.Item.comment ++ n :: back := by
    rw [← List.singleton_append, ← List.append_assoc]
    exact List.mem_append_left _ isNext
  have below : finish.offset ≤ start.offset := by
    have ordered := sound.1.ordered
    rw [list, List.map_append, List.map_cons] at ordered
    rw [show start = _ from begins]
    exact List.rel_of_pairwise_cons (List.pairwise_append.mp ordered).2.1 (List.mem_map_of_mem next)
  have ends := (sound.2 p (by simp [list])).stretched.own.finish
  have opens := (sound.2 item (by rw [list]; simp [next])).stretched.own.start
  rw [← begins] at opens
  obtain ⟨gap, ⟨passed, ⟨rest, whole⟩, place⟩, reach⟩ := ends.covers opens below
  have place_ : finish = Position.start.after passed := place
  have reach_ : start = Position.start.after (passed ++ gap) := by
    rw [Position.after_append, ← place_]
    exact reach
  have whole_ : cs = passed ++ (gap ++ rest) := by rw [← List.append_assoc]; exact whole.symm
  refine ⟨passed, gap, rest, whole_, place_, reach_, fun blank => ?_⟩
  have something : told ≠ [] ↔ start.line ≤ finish.line + 1 := by
    rw [tells]
    split
    next near => simpa using near
    next far => simpa using far
  rw [something]
  constructor
  · rintro near ⟨line, text, after, before, -⟩
    omega
  · intro none_
    by_contra far
    obtain ⟨text, stands, white⟩ := Source.exists_blank_line whole_ blank
      (by rw [← place_, ← reach_]; omega)
    rw [← place_] at stands
    exact none_ ⟨finish.line + 1, text, by omega, by omega, stands, white⟩

open Rules in
/-- Two rules on lines that follow each other. -/
theorem Document.rules_apart_adjacent :
    let text := "a\x7b\x7d\nb\x7b\x7d".toList
    ∃ r ∈ StyleGuide.rules, r.id = "rule-blank-line" ∧
      ∃ p n, .cssRuleList [p, n] none ∈ (Css.Sheet.ofText text .start).subjects ∧
        p.isRule ∧ n.isRule ∧ ¬ (isStatement p ∧ isStatement n) ∧
        headSpan n = ⟨⟨4, 2, 1⟩, ⟨5, 2, 2⟩⟩ ∧
        ∃ d, (r.found (Checker.severityOf {} r) ⟨"a.css"⟩ (.ofText .css text)
          (.cssRuleList [p, n] none)).filter (fun d => d.span = headSpan n) = [d] := by
  intro text
  have isRule : StyleGuide.cssRules[16] ∈ StyleGuide.rules :=
    List.mem_append_right _ (List.getElem_mem _)
  have shape : (Css.Sheet.ofText text .start).items.map (fun item =>
      (item.isRule, isStatement item, item.span, headSpan item)) =
      [(true, false, ⟨⟨0, 1, 1⟩, ⟨3, 1, 4⟩⟩, ⟨⟨0, 1, 1⟩, ⟨1, 1, 2⟩⟩),
        (true, false, ⟨⟨4, 2, 1⟩, ⟨7, 2, 4⟩⟩, ⟨⟨4, 2, 1⟩, ⟨5, 2, 2⟩⟩)] := by
    decide +kernel
  obtain ⟨p, n, two⟩ := List.length_eq_two.mp (by simpa using congrArg List.length shape)
  rw [two] at shape
  simp only [List.map_cons, List.map_nil, List.cons.injEq, Prod.mk.injEq, and_true] at shape
  obtain ⟨⟨first, block, stretch, -⟩, second, block', stretch', head⟩ := shape
  have member : .cssRuleList [p, n] none ∈ (Css.Sheet.ofText text .start).subjects := by
    rw [← two]
    exact List.mem_cons_self
  have blocks : ¬ (isStatement p ∧ isStatement n) := by simp [block]
  obtain ⟨-, tells⟩ := Document.rules_apart isRule rfl {} ⟨"a.css"⟩ text
  obtain ⟨told, -⟩ := tells [p, n] none member rfl [] p [] n [] rfl first second blocks
  refine ⟨_, isRule, rfl, p, n, member, first, second, blocks, head, _, told.trans (if_pos ?_)⟩
  show n.span.start.line ≤ p.span.finish.line + 1
  rw [stretch, stretch']

/-- **A comment that goes on below a rule passes for a blank line**, though none separates the rule from
the next one. -/
theorem Document.rules_misjudged :
    let text := "a\x7b\x7d/*\n*/\nb\x7b\x7d".toList
    (Css.Sheet.ofText text .start).items.map (fun item =>
        (item.isRule, item.span.start.line, item.span.finish.line)) =
        [(true, 1, 1), (false, 1, 2), (true, 3, 3)] ∧
      (∀ n, 1 < n → n < 3 → Source.line? ⟨text⟩ n = some ['*', '/']) ∧
      ∃ r ∈ StyleGuide.rules, r.id = "rule-blank-line" ∧
        (Checker.runRule {} ⟨"a.css"⟩ (.ofText .css text) r).diagnostics = [] := by
  intro text
  refine ⟨by decide +kernel, fun n above below => ?_, StyleGuide.cssRules[16],
    List.mem_append_right _ (List.getElem_mem _), rfl, by decide +kernel⟩
  obtain rfl : n = 2 := by omega
  decide +kernel

end PageLint
