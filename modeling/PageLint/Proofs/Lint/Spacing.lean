/-
# PageLint.Proofs.Lint.Spacing — the space before a brace and around a colon

Two rules look at what stands between two tokens: one space belongs in front of the brace that opens a
block and behind the colon of a declaration, and nothing in front of the colon. Their fixes put in what
belongs there. Each leaves the tokens on both sides as they are, and the rule has nothing more to tell
of the place (`Document.respaced`), with these exceptions:

* Where nothing stands before a brace, the rule points at the brace, and its fix takes the place of it.
* What stands before a brace or around a colon may be comments, which go with the white space.
* A line feed before a brace may be what ends the token in front of it.

The rules look for none of these (`Document.respaced_breaks`).
-/
import PageLint.Proofs.Css.Making
import PageLint.Proofs.Css.Spacing
import PageLint.Proofs.Lint.Runs

namespace PageLint

set_option autoImplicit false

open Text

/-! ## Tokens around the gaps of a stylesheet -/

namespace Css

variable {cs : List Char} {origin : Position} {s : Subject} {x : Imprint} {ts : Tokens}
  {first t u : Token TokenKind} {span : Span}

/-- What a subject shows is left by some of the tokens of the stylesheet. -/
theorem Sheet.exists_leaves (member : s ∈ (Sheet.ofText cs origin).subjects)
    (shown : s.imprint? = some x) : ∃ ts left, ts <:+: tokenize cs origin ∧
      Leaves depthCap (Sheet.ofText cs origin).issues ts left ∧ x ∈ left := by
  obtain ⟨left, leaves, same⟩ := Sheet.imprints_perm cs origin
  have inside := same.subset (List.mem_filterMap.mpr ⟨s, member, shown⟩)
  obtain ⟨own, isLeft, found⟩ := List.mem_flatten.mp inside
  obtain ⟨ts, isConstruct, here⟩ := Html.exists_of_mem_forall₂ leaves.flip isLeft
  refine ⟨ts, own, ?_, here, found⟩
  have cut : (Sheet.ofText cs origin).constructs.flatten = tokenize cs origin :=
    Sheet.flatten_constructs _
  exact cut ▸ List.infix_of_mem_flatten isConstruct

/-- The last token that is no trivia is where the tokens end, trimmed. -/
theorem exists_last_solid (some_ : spanOf? (trimTrivia ts) = some span) :
    ∃ front left mid, ts = front ++ left :: mid ∧ isTrivia left = false ∧ (∀ t ∈ mid, isTrivia t) ∧
      span.finish = left.span.finish := by
  obtain ⟨⟨front, back, whole, -, behind⟩, -, solid⟩ := trims_trimTrivia ts
  rw [spanOf?] at some_
  split at some_
  next first left _ last =>
    obtain ⟨kept, own⟩ := List.getLast?_eq_some_iff.mp last
    refine ⟨front ++ kept, left, back, ?_, solid left last, behind, ?_⟩
    · rw [whole, own]
      simp
    · rw [← Option.some.inj some_]
  next => cases some_

/-- The brace of a style rule stands behind its selectors. -/
theorem Sheet.gap_of_styleRule {rule : StyleRule Item} {prelude opening : Span}
    (member : .cssStyleRule rule ∈ (Sheet.ofText cs origin).subjects)
    (isPrelude : rule.prelude = some prelude) (opens : rule.block.opening = some opening) :
    ∃ front left mid right back, Gap (tokenize cs origin) front left mid right back ∧
      right.kind = .braceOpen ∧ prelude.finish = left.span.finish ∧ opening = right.span := by
  obtain ⟨ts, left, ⟨before, behind, whole⟩, leaves, found⟩ := Sheet.exists_leaves member rfl
  cases leaves with
  | @style written skipped brace kind _ =>
      rw [isPrelude, opens, List.mem_singleton, Imprint.style.injEq] at found
      obtain ⟨span, place⟩ := found
      obtain ⟨front, left, mid, rfl, solid, trivia, finish⟩ := exists_last_solid span.symm
      exact ⟨before ++ front, left, mid, brace, skipped ++ behind,
        ⟨by simp [← whole], solid, by simp [isTrivia, kind], trivia⟩, kind, finish,
        Option.some.inj place⟩
  | _ => simp at found

/-- The brace of an at-rule stands behind its prelude, or behind its name. -/
theorem Sheet.gap_of_atRule {rule : AtRule Item} {opening : Span}
    (member : .cssAtRule rule ∈ (Sheet.ofText cs origin).subjects) (opens : rule.opening? = some opening) :
    ∃ front left mid right back, Gap (tokenize cs origin) front left mid right back ∧
      right.kind = .braceOpen ∧ (rule.preludeSpan.getD rule.nameSpan).finish = left.span.finish ∧
        opening = right.span := by
  obtain ⟨-, -, -, -, -, -, -, prelude⟩ := Sheet.exists_keyword member
  obtain ⟨ts, left, ⟨before, behind, whole⟩, leaves, found⟩ := Sheet.exists_leaves member rfl
  cases leaves with
  | @atRule keyword brace written skipped isKeyword kind _ =>
      rw [opens, List.mem_singleton, Imprint.atRule.injEq, AtHead.ofTokens, AtHead.mk.injEq] at found
      obtain ⟨⟨-, name, tokens⟩, place⟩ := found
      have solid : isTrivia keyword = false := by simp [isTrivia, isKeyword]
      have closed : isTrivia brace = false := by simp [isTrivia, kind]
      cases span : spanOf? (trimTrivia written) with
      | none =>
          obtain ⟨⟨lead, trail, own, first, last⟩, -⟩ := trims_trimTrivia written
          have trivia : ∀ t ∈ written, isTrivia t := by
            rw [spanOf?_eq_none.mp span, List.nil_append] at own
            rw [own]
            exact List.forall_mem_append.mpr ⟨first, last⟩
          refine ⟨before, keyword, written, brace, skipped ++ behind,
            ⟨by simp [← whole], solid, closed, trivia⟩, kind, ?_, Option.some.inj place⟩
          rw [prelude, tokens, span, Option.getD_none, name]
      | some found =>
          obtain ⟨front, left, mid, rfl, solid, trivia, finish⟩ := exists_last_solid span
          refine ⟨before ++ keyword :: front, left, mid, brace, skipped ++ behind,
            ⟨by simp [← whole], solid, closed, trivia⟩, kind, ?_, Option.some.inj place⟩
          rw [prelude, tokens, span, Option.getD_some, finish]
  | _ => simp [opens] at found

/-- The colon of a declaration stands behind its property. -/
theorem Sheet.gap_before_colon {d : Declaration}
    (member : .cssDeclaration d ∈ (Sheet.ofText cs origin).subjects) :
    ∃ front left mid right back, Gap (tokenize cs origin) front left mid right back ∧
      (left.kind = .ident ∧ right.kind = .colon) ∧ d.propertySpan = left.span ∧
        d.colon = right.span := by
  obtain ⟨property, rest, n, ⟨before, whole⟩, read⟩ := Sheet.exists_read member
  obtain ⟨mid, colon, after, rfl, from_⟩ := Declaration.exists_readFrom read
  exact ⟨before, property, mid, colon, after,
    ⟨whole.symm, by simp [isTrivia, from_.ident], by simp [isTrivia, from_.isColon], from_.trivia⟩,
    ⟨from_.ident, from_.isColon⟩, from_.propertySpan, from_.colon⟩

/-- The value of a declaration, if it has one, stands behind its colon. -/
theorem Sheet.gap_after_colon {d : Declaration} {value : Span}
    (member : .cssDeclaration d ∈ (Sheet.ofText cs origin).subjects) (some_ : d.valueSpan = some value) :
    ∃ front left mid right back, Gap (tokenize cs origin) front left mid right back ∧
      left.kind = .colon ∧ d.colon = left.span ∧ value.start = right.span.start := by
  obtain ⟨property, rest, n, ⟨before, whole⟩, read⟩ := Sheet.exists_read member
  obtain ⟨mid, colon, after, rfl, from_⟩ := Declaration.exists_readFrom read
  rw [from_.valueSpan, spanOf?] at some_
  split at some_
  next first last head _ =>
    obtain ⟨more, own⟩ := from_.value
    obtain ⟨kept, value⟩ := List.head?_eq_some_iff.mp head
    rw [value, List.cons_append] at own
    have split : after = after.takeWhile isTrivia ++ first :: (kept ++ more) := by
      rw [own, List.takeWhile_append_dropWhile]
    have solid : isTrivia first = false := by
      have stops := List.head?_dropWhile_not isTrivia after
      rw [← own] at stops
      simpa using stops
    refine ⟨before ++ property :: mid, colon, after.takeWhile isTrivia, first, kept ++ more,
      ⟨?_, by simp [isTrivia, from_.isColon], solid, fun t member => List.mem_takeWhile_imp member⟩,
      from_.isColon, from_.colon, by rw [← Option.some.inj some_]⟩
    rw [← split, ← whole]
    simp
  next => cases some_

end Css

/-! ## What the rules find -/

namespace Rules

/-- The places that the rules on spacing look at. -/
inductive Spacing where
  | beforeBrace
  | beforeColon
  | afterColon

namespace Spacing

/-- The rule that looks at a place. -/
def rule : Spacing → String
  | beforeBrace => "brace-spacing"
  | beforeColon | afterColon => "property-colon-space"

/-- Between which tokens the place lies. -/
def Between (left right : CssToken) : Spacing → Prop
  | beforeBrace => right.kind = .braceOpen
  | beforeColon => left.kind = .ident ∧ right.kind = .colon
  | afterColon => left.kind = .colon

/-- What belongs there. -/
def wanted : Spacing → List Char
  | beforeColon => []
  | beforeBrace | afterColon => [' ']

/-- The sign that is pointed at where nothing stands there. -/
def sign? (left right : CssToken) : Spacing → Option CssToken
  | beforeBrace => some right
  | beforeColon => none
  | afterColon => some left

/-- What is put in the place of this sign. -/
def instead : Spacing → List Char
  | afterColon => [':', ' ']
  | beforeBrace | beforeColon => [' ']

end Spacing

/-- What is found of two tokens: not what belongs there stands between them. A fix puts that there, or
something in the place of a sign. -/
structure Misspaced (place : Spacing) (f : Finding) (left : CssToken) (mid : List CssToken)
    (right : CssToken) : Prop where
  between : place.Between left right
  other : textOf mid ≠ place.wanted
  apart : mid ≠ [] → f.span = ⟨left.span.finish, right.span.start⟩ ∧
    ∀ fix, f.fix = some fix → fix.replacement.toList = place.wanted
  close : mid = [] → (∃ sign ∈ place.sign? left right, f.span = sign.span) ∧
    ∀ fix, f.fix = some fix → fix.replacement.toList = place.instead

variable {cs : List Char} {f : Finding} {doc : Document} {s : Subject} {front mid back : List CssToken}
  {left right : CssToken}

/-- What the rule on braces finds before a brace. -/
theorem misspaced_of_badGap (isSource : doc.source = ⟨cs⟩)
    (gap : Css.Gap (Css.tokenize cs .start) front left mid right back) (kind : right.kind = .braceOpen)
    (member : f ∈ badGap doc left.span.finish right.span) :
    Misspaced .beforeBrace f left mid right := by
  simp only [badGap, isSource, gap.slice] at member
  split at member
  next => cases member
  next other =>
    obtain rfl := List.mem_singleton.mp member
    refine ⟨kind, other, fun some_ => ⟨?_, fun fix fixed => ?_⟩, ?_⟩
    · have text : (textOf mid).isEmpty = false := by
        simpa using gap.textOf_eq_nil.not.mpr some_
      rw [text, if_neg Bool.false_ne_true]
      split <;> rfl
    · cases fixed
      exact String.toList_ofList
    · rintro rfl
      refine ⟨⟨right, rfl, rfl⟩, fun fix fixed => ?_⟩
      cases fixed
      exact String.toList_ofList

theorem mem_braceSpacing (isSource : doc.source = ⟨cs⟩)
    (inSheet : s ∈ (Css.Sheet.ofText cs .start).subjects) (member : f ∈ braceSpacing doc s) :
    ∃ front left mid right back, Css.Gap (Css.tokenize cs .start) front left mid right back ∧
      Misspaced .beforeBrace f left mid right := by
  cases s with
  | cssStyleRule rule =>
      rw [braceSpacing] at member
      split at member
      next prelude opening isPrelude opens =>
        obtain ⟨front, left, mid, right, back, gap, kind, finish, rfl⟩ :=
          Css.Sheet.gap_of_styleRule inSheet isPrelude opens
        rw [finish] at member
        exact ⟨front, left, mid, right, back, gap, misspaced_of_badGap isSource gap kind member⟩
      next => cases member
  | cssAtRule rule =>
      rw [braceSpacing] at member
      split at member
      next opening opens =>
        obtain ⟨front, left, mid, right, back, gap, kind, finish, rfl⟩ :=
          Css.Sheet.gap_of_atRule inSheet opens
        rw [finish] at member
        exact ⟨front, left, mid, right, back, gap, misspaced_of_badGap isSource gap kind member⟩
      next => cases member
  | _ => cases member

theorem mem_propertyColonSpace (isSource : doc.source = ⟨cs⟩)
    (inSheet : s ∈ (Css.Sheet.ofText cs .start).subjects) (member : f ∈ propertyColonSpace doc s) :
    ∃ place, place.rule = "property-colon-space" ∧ ∃ front left mid right back,
      Css.Gap (Css.tokenize cs .start) front left mid right back ∧ Misspaced place f left mid right := by
  cases s with
  | cssDeclaration d =>
      rw [propertyColonSpace] at member
      rcases List.mem_append.mp member with before | after
      · split at before
        next apart =>
          obtain rfl := List.mem_singleton.mp before
          obtain ⟨front, left, mid, right, back, gap, kinds, property, colon⟩ :=
            Css.Sheet.gap_before_colon inSheet
          rw [property, colon] at apart
          have some_ : mid ≠ [] := by
            rintro rfl
            rw [gap.touch] at apart
            exact absurd apart (lt_irrefl _)
          refine ⟨.beforeColon, rfl, front, left, mid, right, back, gap, kinds,
            gap.textOf_eq_nil.not.mpr some_, fun _ => ⟨by rw [← property, ← colon]; rfl, fun fix fixed => ?_⟩,
            fun none_ => absurd none_ some_⟩
          cases fixed
          exact String.toList_ofList
        next => cases before
      · split at after
        next => cases after
        next value isValue =>
          obtain ⟨front, left, mid, right, back, gap, kind, colon, start⟩ :=
            Css.Sheet.gap_after_colon inSheet isValue
          simp only [isSource, colon, start, gap.slice] at after
          split at after
          next empty =>
            obtain rfl := List.mem_singleton.mp after
            have none_ : mid = [] := gap.textOf_eq_nil.mp (by simpa using empty)
            refine ⟨.afterColon, rfl, front, left, mid, right, back, gap, kind, ?_,
              fun some_ => absurd none_ some_, fun _ => ⟨⟨left, rfl, rfl⟩, fun fix fixed => ?_⟩⟩
            · rw [none_]
              simp [textOf, Spacing.wanted]
            · cases fixed
              rfl
          next full =>
            split at after
            next other =>
              obtain rfl := List.mem_singleton.mp after
              have some_ : mid ≠ [] := gap.textOf_eq_nil.not.mp (by simpa using full)
              rw [Bool.and_eq_true, bne_iff_ne] at other
              refine ⟨.afterColon, rfl, front, left, mid, right, back, gap, kind, other.1,
                fun _ => ⟨rfl, fun fix fixed => ?_⟩, fun none_ => absurd none_ some_⟩
              cases fixed
              exact String.toList_ofList
            next => cases after
  | _ => cases member

/-! ## Places that are put right -/

section Places

variable {place place' : Spacing} {front' mid' back' : List CssToken} {left' right' : CssToken}

/-- A rule looks at one place between two tokens. -/
theorem Spacing.eq_of_between (same : place'.rule = place.rule) (here : place.Between left right)
    (there : place'.Between left right) : place' = place := by
  match place, place', here, there with
  | beforeBrace, beforeBrace, _, _ | beforeColon, beforeColon, _, _ | afterColon, afterColon, _, _ => rfl
  | beforeBrace, beforeColon, _, _ | beforeBrace, afterColon, _, _ | beforeColon, beforeBrace, _, _
  | afterColon, beforeBrace, _, _ => exact absurd same (by decide)
  | beforeColon, afterColon, here, there => exact absurd (here.1.symm.trans there) (by decide)
  | afterColon, beforeColon, here, there => exact absurd (there.1.symm.trans here) (by decide)

theorem Spacing.mem_sign? {sign : CssToken} (isSign : sign ∈ place.sign? left right) :
    sign = left ∨ sign = right := by
  cases place with
  | beforeBrace => exact .inr (Option.some.inj isSign).symm
  | beforeColon => cases isSign
  | afterColon => exact .inl (Option.some.inj isSign).symm

theorem Spacing.solid_of_sign? {sign : CssToken} (isSign : sign ∈ place.sign? left right)
    (gap : Css.Gap (Css.tokenize cs .start) front left mid right back) :
    sign ∈ Css.tokenize cs .start ∧ Css.isTrivia sign = false := by
  rcases Spacing.mem_sign? isSign with rfl | rfl
  · exact ⟨gap.mem_left, gap.left⟩
  · exact ⟨gap.mem_right, gap.right⟩

/-- Where a rule points at a sign, a space belongs there. -/
theorem Spacing.wanted_of_sign? {sign : CssToken} (isSign : sign ∈ place.sign? left right) :
    place.wanted ≠ [] := by
  cases place with
  | beforeColon => cases isSign
  | beforeBrace | afterColon => exact List.cons_ne_nil _ _

/-- Two signs that a rule points at, if they are one token, are so for one reason. -/
theorem Spacing.sign?_inj {sign : CssToken} (same : place'.rule = place.rule)
    (isSign : sign ∈ place.sign? left right) (isSign' : sign ∈ place'.sign? left' right') :
    left' = left ∨ right' = right := by
  match place, place', isSign, isSign' with
  | beforeBrace, beforeBrace, here, there => exact .inr (Option.some.inj (there.trans here.symm))
  | afterColon, afterColon, here, there => exact .inl (Option.some.inj (there.trans here.symm))
  | beforeBrace, afterColon, _, _ | afterColon, beforeBrace, _, _ => exact absurd same (by decide)

variable (gap : Css.Gap (Css.tokenize cs .start) front left mid right back)
  (between : place.Between left right) (fits : textOf mid = place.wanted)
  (same : place'.rule = place.rule)
  (gap' : Css.Gap (Css.tokenize cs .start) front' left' mid' right' back')
  (found : Misspaced place' f left' mid' right')
include gap between fits same gap' found

/-- Between the same tokens the same belongs. -/
theorem Misspaced.right_ne : right' ≠ right := by
  intro here
  obtain ⟨-, rfl, rfl, rfl, -⟩ := gap'.unique gap (congrArg Token.span here)
  obtain rfl := Spacing.eq_of_between same between found.between
  exact found.other fits

/-- **Where what belongs there stands between two tokens**, the rule finds nothing: no finding ends
where the second token begins. -/
theorem Misspaced.finish_ne : f.span.finish ≠ right.span.start := by
  have other := Misspaced.right_ne gap between fits same gap' found
  intro ends
  by_cases none_ : mid' = []
  · -- The sign that is pointed at would be the first token, which is that of another place.
    obtain ⟨⟨sign, isSign, here⟩, -⟩ := found.close none_
    rw [here] at ends
    have own := Spacing.solid_of_sign? isSign gap'
    rcases gap.before_right own.1 ends with ⟨rfl, rfl⟩ | trivia
    · match place, place', fits, between, isSign, found.between with
      | .beforeColon, .afterColon, _, between, isSign, there =>
          obtain rfl := Option.some.inj isSign
          exact absurd (between.1.symm.trans there) (by decide)
      | .beforeColon, .beforeBrace, _, _, _, _ => exact absurd same (by decide)
    · rw [own.2] at trivia
      cases trivia
  · have begins : right'.span.start = right.span.start := by
      rw [← ends, (found.apart none_).1]
    exact other (Css.eq_of_start gap'.mem_right gap.mem_right begins)

/-- Neither does one point at the sign. -/
theorem Misspaced.sign_ne : ∀ sign ∈ place.sign? left right, f.span ≠ sign.span := by
  have other := Misspaced.right_ne gap between fits same gap' found
  intro sign isSign here
  have some_ : mid ≠ [] := by
    rintro rfl
    exact Spacing.wanted_of_sign? isSign fits.symm
  have before : left'.span.finish ≠ right.span.start := by
    intro ends
    rcases gap.before_right gap'.mem_left ends with ⟨none_, -⟩ | trivia
    · exact some_ none_
    · rw [gap'.left] at trivia
      cases trivia
  have behind : right'.span.start ≠ left.span.finish := by
    intro begins
    rcases gap.behind_left gap'.mem_right begins with ⟨none_, -⟩ | trivia
    · exact some_ none_
    · rw [gap'.right] at trivia
      cases trivia
  by_cases none_ : mid' = []
  · obtain ⟨⟨sign', isSign', here'⟩, -⟩ := found.close none_
    obtain rfl : sign' = sign :=
      Css.eq_of_span (Spacing.solid_of_sign? isSign' gap').1 (Spacing.solid_of_sign? isSign gap).1
        (here'.symm.trans here)
    subst none_
    rcases Spacing.sign?_inj same isSign isSign' with rfl | rfl
    · exact behind gap'.touch.symm
    · exact other rfl
  · rw [(found.apart none_).1] at here
    rcases Spacing.mem_sign? isSign with rfl | rfl
    · exact behind (congrArg Span.finish here)
    · exact before (congrArg Span.start here)

end Places

/-! ## What a fix puts in -/

section Fixes

variable {place : Spacing} {fix : Fix}

/-- What belongs at a place may stand there. -/
theorem Spacing.admits (between : place.Between left right) : Css.Admits right place.wanted := by
  cases place with
  | beforeColon => exact .inr ⟨rfl, between.2⟩
  | beforeBrace | afterColon => exact .inl rfl

variable (gap : Css.Gap (Css.tokenize cs .start) front left mid right back)
  (found : Misspaced place f left mid right) (fixed : f.fix = some fix)
include gap found fixed

/-- A fix puts between two tokens what belongs there, if it does not take the place of a brace. -/
theorem Misspaced.splice (keeps : place = .beforeBrace → mid ≠ []) :
    Source.splice ⟨cs⟩ f.span fix.replacement.toList =
      textOf (front ++ [left]) ++ (place.wanted ++ textOf (right :: back)) := by
  by_cases none_ : mid = []
  · obtain ⟨⟨sign, isSign, here⟩, replacement⟩ := found.close none_
    match place, isSign, keeps, found.between, replacement with
    | .beforeBrace, _, keeps, _, _ => exact absurd none_ (keeps rfl)
    | .afterColon, isSign, _, kind, replacement =>
        obtain rfl := Option.some.inj isSign
        have colon : left.text = [':'] :=
          Css.text_of_sign (d := ':') (by decide) (mem_of_mem_locate gap.mem_left) kind
        have before : textOf (front ++ [left]) = textOf front ++ [':'] := by
          simp [textOf, colon]
        subst none_
        rw [here, replacement fix fixed, Css.splice_token gap.split, before]
        simp [textOf, Spacing.instead, Spacing.wanted]
  · obtain ⟨here, replacement⟩ := found.apart none_
    rw [here, replacement fix fixed, gap.splice none_]

/-- A fix that takes the place of a brace loses it. -/
theorem Misspaced.solids_ne (isBrace : place = .beforeBrace) (none_ : mid = []) :
    Css.solids (Css.tokenize (Source.splice ⟨cs⟩ f.span fix.replacement.toList) .start) ≠
      Css.solids (Css.tokenize cs .start) := by
  subst isBrace none_
  obtain ⟨⟨sign, isSign, here⟩, replacement⟩ := found.close rfl
  obtain rfl := Option.some.inj isSign
  have brace : right.text = ['\x7b'] :=
    Css.text_of_sign (d := '\x7b') (by decide) (mem_of_mem_locate gap.mem_right) found.between
  have split : Css.tokenize cs .start = (front ++ [left]) ++ right :: back := gap.around
  have count : ∀ text, ((Css.solids (Css.tokenize text .start)).flatMap Lexeme.text).count '\x7b' =
      text.count '\x7b' := fun text => Css.count_solids (by decide) text .start
  intro same
  have counts := count (Source.splice ⟨cs⟩ f.span fix.replacement.toList)
  rw [same, count, here, replacement fix fixed, Css.splice_token split, Css.textOf_split split, textOf_cons,
    brace] at counts
  simp [Spacing.instead] at counts

end Fixes

end Rules

/-! ## Spacing put right -/

theorem StyleGuide.spacing_of_id : ∀ r ∈ rules,
    (r.id = "brace-spacing" → r.check = .total Rules.braceSpacing) ∧
      (r.id = "property-colon-space" → r.check = .total Rules.propertyColonSpace) := by
  simp [rules, sharedRules, htmlRules, cssRules]

/-- What the rules on spacing tell of a stylesheet they tell of what stands between two tokens. -/
theorem Checker.mem_runRule_spacing {r : Rule} (isRule : r ∈ StyleGuide.rules)
    (named : r.id ∈ ["brace-spacing", "property-colon-space"]) {c : Checker} {file : Path}
    {cs : List Char} {d : Diagnostic} (told : d ∈ (c.runRule file (.ofText .css cs) r).diagnostics) :
    ∃ (place : Rules.Spacing) (f : Finding) (front : Css.Tokens) (left : Rules.CssToken)
      (mid : Css.Tokens) (right : Rules.CssToken) (back : Css.Tokens), place.rule = r.id ∧
      Css.Gap (Css.tokenize cs .start) front left mid right back ∧ Rules.Misspaced place f left mid right ∧
      d = r.diagnostic (c.severityOf r) file f := by
  have source : (Document.ofText .css cs).source = ⟨cs⟩ := rfl
  simp only [List.mem_cons, List.not_mem_nil, or_false] at named
  rcases named with named | named
  · obtain ⟨s, member, f, found, rfl⟩ := mem_runRule ((StyleGuide.spacing_of_id r isRule).1 named) told
    have inSheet := (List.mem_cons.mp member).resolve_left (by rintro rfl; cases found)
    obtain ⟨front, left, mid, right, back, gap, own⟩ := Rules.mem_braceSpacing source inSheet found
    exact ⟨.beforeBrace, f, front, left, mid, right, back, named.symm, gap, own, rfl⟩
  · obtain ⟨s, member, f, found, rfl⟩ := mem_runRule ((StyleGuide.spacing_of_id r isRule).2 named) told
    have inSheet := (List.mem_cons.mp member).resolve_left (by rintro rfl; cases found)
    obtain ⟨place, same, front, left, mid, right, back, gap, own⟩ :=
      Rules.mem_propertyColonSpace source inSheet found
    exact ⟨place, f, front, left, mid, right, back, same.trans named.symm, gap, own, rfl⟩

/-- **Spacing put right.** What the rules on spacing tell of lies between two tokens, or is a sign where
nothing stands between them. Let what stands there not begin with a line feed that ends the first token. Then the fix
keeps all tokens but for white space if, and only if, no comment stands there and it does not take the
place of a brace. And if it does not, then the same two tokens have what belongs there between them, and
the rule tells no more of that place: nothing that it tells ends where the second token begins, or
points at the sign. -/
theorem Document.respaced {r : Rule} (isRule : r ∈ StyleGuide.rules)
    (named : r.id ∈ ["brace-spacing", "property-colon-space"]) (c : Checker) (file : Path)
    {cs : List Char} {d : Diagnostic} {fix : Fix}
    (told : d ∈ (c.runRule file (.ofText .css cs) r).diagnostics) (fixed : d.fix = some fix) :
    let text := Source.splice ⟨cs⟩ d.span fix.replacement.toList
    ∃ (place : Rules.Spacing) (front : Css.Tokens) (left : Rules.CssToken) (mid : Css.Tokens)
      (right : Rules.CssToken) (back : Css.Tokens), place.rule = r.id ∧
      Css.Gap (Css.tokenize cs .start) front left mid right back ∧ place.Between left right ∧
      (mid ≠ [] → d.span = ⟨left.span.finish, right.span.start⟩) ∧
      (mid = [] → ∃ sign ∈ place.sign? left right, d.span = sign.span) ∧
      (((textOf mid).head? = some '\n' → ¬ Css.LineEnded left) →
        (Css.solids (Css.tokenize text .start) = Css.solids (Css.tokenize cs .start) ↔
          (∀ t ∈ mid, t.kind = .blank) ∧ (place = .beforeBrace → mid ≠ [])) ∧
        ((place = .beforeBrace → mid ≠ []) → ∃ mid' right' back',
          Css.Gap (Css.tokenize text .start) front left mid' right' back' ∧
          textOf mid' = place.wanted ∧
          (right' :: back').map Token.lexeme = (right :: back).map Token.lexeme ∧
          ∀ d' ∈ (c.runRule file (.ofText .css text) r).diagnostics,
            d'.span.finish ≠ right'.span.start ∧
            ∀ sign ∈ place.sign? left right', d'.span ≠ sign.span)) := by
  intro text
  obtain ⟨place, f, front, left, mid, right, back, same, gap, found, rfl⟩ :=
    Checker.mem_runRule_spacing isRule named told
  refine ⟨place, front, left, mid, right, back, same, gap, found.between,
    fun some_ => (found.apart some_).1, fun none_ => (found.close none_).1, fun line => ⟨?_, ?_⟩⟩
  · by_cases keeps : place = .beforeBrace → mid ≠ []
    · have newText : text = _ := found.splice gap fixed keeps
      rw [newText, Css.solids_respaced gap (Rules.Spacing.admits found.between) line]
      exact (and_iff_left keeps).symm
    · obtain ⟨isBrace, none_⟩ := Classical.not_imp.mp keeps
      exact iff_of_false (found.solids_ne gap fixed isBrace (not_not.mp none_)) fun both => keeps both.2
  · intro keeps
    have newText : text = _ := found.splice gap fixed keeps
    obtain ⟨mid', right', back', gap', fits, lexemes⟩ :=
      gap.exists_respaced (Rules.Spacing.admits found.between) line
    rw [← newText] at gap'
    have kind : right'.kind = right.kind := congrArg Lexeme.kind (List.cons.inj lexemes).1
    have between : place.Between left right' := by
      cases place with
      | beforeBrace => exact kind.trans found.between
      | beforeColon => exact ⟨found.between.1, kind.trans found.between.2⟩
      | afterColon => exact found.between
    refine ⟨mid', right', back', gap', fits, lexemes, fun d' told' => ?_⟩
    obtain ⟨place', f', _, _, _, _, _, same', there, found', rfl⟩ :=
      Checker.mem_runRule_spacing isRule named told'
    have own := same'.trans same.symm
    exact ⟨Rules.Misspaced.finish_ne gap' between fits own there found',
      Rules.Misspaced.sign_ne gap' between fits own there found'⟩

/-- A brace on a line of its own goes behind its selector. -/
theorem Document.respaced_line :
    let text := "a\n\x7b\x7d".toList
    let new := "a \x7b\x7d".toList
    ∃ r ∈ StyleGuide.rules, r.id = "brace-spacing" ∧
      ∃ d ∈ (Checker.runRule {} ⟨"a.css"⟩ (.ofText .css text) r).diagnostics,
        ∃ fix, d.fix = some fix ∧ Source.splice ⟨text⟩ d.span fix.replacement.toList = new ∧
          Css.solids (Css.tokenize new .start) = Css.solids (Css.tokenize text .start) ∧
          ∃ front left mid right back, Css.Gap (Css.tokenize new .start) front left mid right back ∧
            right.kind = .braceOpen ∧ textOf mid = [' '] ∧
            ∀ d' ∈ (Checker.runRule {} ⟨"a.css"⟩ (.ofText .css new) r).diagnostics,
              d'.span.finish ≠ right.span.start ∧ d'.span ≠ right.span := by
  intro text new
  let r := StyleGuide.cssRules[9]
  have isRule : r ∈ StyleGuide.rules := List.mem_append_right _ (List.getElem_mem _)
  let d := r.diagnostic (Checker.severityOf {} r) ⟨"a.css"⟩
    ((Finding.saying ⟨⟨1, 1, 2⟩, ⟨2, 2, 1⟩⟩
      "Put the opening brace on the same line as the selector").suggest "Use a single space" [' '])
  have told : d ∈ (Checker.runRule {} ⟨"a.css"⟩ (.ofText .css text) r).diagnostics := by
    decide +kernel
  have spliced : Source.splice ⟨text⟩ d.span (String.ofList [' ']).toList = new := by decide +kernel
  obtain ⟨place, front, left, mid, right, back, same, gap, between, -, -, both⟩ :=
    Document.respaced isRule (by decide) {} ⟨"a.css"⟩ told rfl
  obtain rfl : place = .beforeBrace := by
    cases place with
    | beforeBrace => rfl
    | beforeColon | afterColon => exact absurd same (by decide)
  let a : Rules.CssToken := ⟨.ident, ['a'], ⟨⟨0, 1, 1⟩, ⟨1, 1, 2⟩⟩⟩
  let feed : Rules.CssToken := ⟨.blank, ['\n'], ⟨⟨1, 1, 2⟩, ⟨2, 2, 1⟩⟩⟩
  let brace : Rules.CssToken := ⟨.braceOpen, ['\x7b'], ⟨⟨2, 2, 1⟩, ⟨3, 2, 2⟩⟩⟩
  let closing : Rules.CssToken := ⟨.braceClose, ['\x7d'], ⟨⟨3, 2, 2⟩, ⟨4, 2, 3⟩⟩⟩
  have own : Css.Gap (Css.tokenize text .start) [] a [feed] brace [closing] :=
    ⟨by decide +kernel, rfl, rfl, by decide⟩
  have only : ∀ t ∈ Css.tokenize text .start, t.kind = .braceOpen → t.span = brace.span := by
    decide +kernel
  obtain ⟨rfl, rfl, rfl, rfl, rfl⟩ := gap.unique own (only right gap.mem_right between)
  obtain ⟨iff, tells⟩ := both fun _ => by simp [Css.LineEnded, a]
  obtain ⟨mid', right', back', gap', fits, lexemes, gone⟩ := tells fun _ => List.cons_ne_nil _ _
  rw [spliced] at iff gap' gone
  refine ⟨r, isRule, rfl, d, told, _, rfl, spliced,
    iff.mpr ⟨by decide, fun _ => List.cons_ne_nil _ _⟩, [], a, mid', right', back', gap',
    congrArg Lexeme.kind (List.cons.inj lexemes).1, fits, fun d' told' => ?_⟩
  obtain ⟨finish, sign⟩ := gone d' told'
  exact ⟨finish, sign right' rfl⟩

/-- A fix that a rule offers does not keep the tokens of a text but for white space. -/
def Document.Loses (rule : String) (text : List Char) : Prop :=
  ∃ r ∈ StyleGuide.rules, r.id = rule ∧
    ∃ d ∈ (Checker.runRule {} ⟨"a.css"⟩ (.ofText .css text) r).diagnostics, ∃ fix ∈ d.fix,
      Css.solids (Css.tokenize (Source.splice ⟨text⟩ d.span fix.replacement.toList) .start) ≠
        Css.solids (Css.tokenize text .start)

/-- What the rules on spacing offer loses a brace with nothing in front of it, a comment in front of a
brace, and what a line feed ends there; and it loses comments around a colon. -/
theorem Document.respaced_breaks :
    Document.Loses "brace-spacing" "a\x7b\x7d".toList ∧
      Document.Loses "brace-spacing" "a/**/\x7b\x7d".toList ∧
      Document.Loses "brace-spacing" "a\\\n\x7b\x7d".toList ∧
      Document.Loses "property-colon-space" "a/**/: b".toList ∧
      Document.Loses "property-colon-space" "a:/**/b".toList := by
  unfold Document.Loses
  decide +kernel

end PageLint
