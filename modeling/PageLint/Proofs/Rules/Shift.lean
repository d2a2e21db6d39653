/-
# PageLint.Proofs.Rules.Shift — rules on stylesheets, inside a page

A rule on a stylesheet finds in a shifted subject what it finds in the subject, shifted. For
most rules this needs nothing but the tokens: kinds and texts stay, two tokens that touch
still touch (`glued?_shift`), and lines keep their distance.

Rules on spacing read it off the source of their document. Where one document `Embeds`
another from a place on, a stretch between places of the inner one shows the same text in
both (`Document.Embeds.slice`), so these rules follow as well.
-/
import PageLint.Proofs.Css.Shift
import PageLint.Proofs.Rules.Sheets

namespace PageLint

set_option autoImplicit false

open Text

variable {o : Position}

namespace Position

theorem shift_injective (origin : o.Counted) : Function.Injective o.shift := by
  intro p q same
  obtain ⟨line, column⟩ := origin
  obtain ⟨offset, pLine, pColumn⟩ := p
  obtain ⟨offset', qLine, qColumn⟩ := q
  simp only [shift, mk.injEq] at same ⊢
  obtain ⟨offsets, lines, columns⟩ := same
  have sameLine : pLine = qLine := by omega
  subst sameLine
  refine ⟨by omega, rfl, ?_⟩
  split at columns <;> omega

theorem line_shift_eq_iff (origin : o.Counted) {p q : Position} :
    (o.shift p).line = (o.shift q).line ↔ p.line = q.line := by
  obtain ⟨line, -⟩ := origin
  simp only [shift]
  omega

theorem line_shift_lt_iff (origin : o.Counted) {p q : Position} :
    (o.shift p).line < (o.shift q).line ↔ p.line < q.line := by
  obtain ⟨line, -⟩ := origin
  simp only [shift]
  omega

theorem line_shift_le_succ_iff (origin : o.Counted) {p q : Position} :
    (o.shift p).line ≤ (o.shift q).line + 1 ↔ p.line ≤ q.line + 1 := by
  obtain ⟨line, -⟩ := origin
  simp only [shift]
  omega

end Position

/-- The finding, shifted. -/
def Finding.shift (o : Position) (f : Finding) : Finding := { f with span := f.span.shift o }

/-- One document holds the text of another, from a place on. -/
def Document.Embeds (host : Document) (o : Position) (file : Document) : Prop :=
  (Passage.whole host.source.text).Holds o file.source.text

namespace Document.Embeds

variable {host file : Document}

theorem counted (embeds : host.Embeds o file) : o.Counted :=
  (Passage.Holds.marks embeds).counted Position.counted_start

theorem slice (embeds : host.Embeds o file) {s : Span}
    (here : (Passage.whole file.source.text).Marks s.start)
    (there : (Passage.whole file.source.text).Marks s.finish) :
    host.source.slice (s.shift o) = file.source.slice s :=
  Passage.slice_shift (h := ⟨file.source.text, o⟩) embeds.counted embeds here there

end Document.Embeds

namespace Rules

variable {ts : List CssToken} {t : CssToken}

/-! ## Putting findings together -/

theorem flatMap_shift {α β : Type} {xs : List α} {move : α → β} {find : α → List Finding}
    {find' : β → List Finding} (each : ∀ x ∈ xs, find' (move x) = (find x).map (Finding.shift o)) :
    (xs.map move).flatMap find' = (xs.flatMap find).map (Finding.shift o) := by
  rw [List.flatMap_map, List.map_flatMap]
  exact List.flatMap_congr each

theorem filterMap_shift {α β : Type} {xs : List α} {move : α → β} {find : α → Option Finding}
    {find' : β → Option Finding}
    (each : ∀ x ∈ xs, find' (move x) = (find x).map (Finding.shift o)) :
    (xs.map move).filterMap find' = (xs.filterMap find).map (Finding.shift o) := by
  rw [List.filterMap_map, List.map_filterMap]
  exact List.filterMap_congr each

theorem neighbours_shift {α β : Type} (xs : List α) (move : α → β) :
    (xs.map move).zip ((xs.map move).drop 1) = (xs.zip (xs.drop 1)).map (Prod.map move move) := by
  rw [← List.map_drop, List.zip_map]

/-! ## Tokens -/

theorem urlArgument?_shift (t : CssToken) (rest : List CssToken) :
    urlArgument? (t.shift o) (rest.map (Token.shift o)) = (urlArgument? t rest).map (Token.shift o) := by
  have opens : isUrlFunction (t.shift o) = isUrlFunction t := rfl
  rw [urlArgument?, urlArgument?, opens]
  split
  · rw [nextSignificant?, nextSignificant?, List.find?_map, Option.filter_map]
    rfl
  · rfl

theorem stringValue_shift (t : CssToken) : (stringValue (t.shift o)).1 = (stringValue t).1 := by
  simp only [stringValue, Token.text_shift]
  cases t.text <;> rfl

theorem doubleQuoted_shift (before : Option CssToken) (ts : List CssToken) :
    doubleQuoted (before.map (Token.shift o)) (ts.map (Token.shift o)) =
      (doubleQuoted before ts).map (Finding.shift o) := by
  induction ts generalizing before with
  | nil => rfl
  | cons t rest ih =>
      have opens : (before.map (Token.shift o)).any isUrlFunction = before.any isUrlFunction := by
        cases before <;> rfl
      have next : (if Css.isTrivia (t.shift o) then before.map (Token.shift o) else some (t.shift o)) =
          (if Css.isTrivia t then before else some t).map (Token.shift o) := by
        rw [Css.isTrivia_shift]
        split <;> rfl
      rw [List.map_cons, doubleQuoted, doubleQuoted, next, ih, List.map_append, opens,
        Token.kind_shift, Token.text_shift, stringValue_shift]
      congr 1
      split
      · simp only [List.map_cons, List.map_nil]
        split <;> rfl
      · rfl

theorem quotedUrls_shift (ts : List CssToken) :
    quotedUrls (ts.map (Token.shift o)) = (quotedUrls ts).map (Finding.shift o) := by
  induction ts with
  | nil => rfl
  | cons t rest ih =>
      rw [List.map_cons, quotedUrls, quotedUrls, ih, List.map_append, urlArgument?_shift]
      congr 1
      cases urlArgument? t rest with
      | none => rfl
      | some arg =>
          simp only [Option.map_some, Option.toList_some, List.map_cons, List.map_nil,
            stringValue_shift]
          split <;> rfl

theorem leadingZeros_shift (ts : List CssToken) :
    leadingZeros (ts.map (Token.shift o)) = (leadingZeros ts).map (Finding.shift o) := by
  rw [leadingZeros, leadingZeros, List.filter_map]
  apply filterMap_shift
  intro t _
  rw [Token.text_shift]
  cases withoutLeadingZero? t.text <;> rfl

theorem zeroLengths_shift (depth : Nat) (ts : List CssToken) :
    zeroLengths depth (ts.map (Token.shift o)) = (zeroLengths depth ts).map (Finding.shift o) := by
  induction ts generalizing depth with
  | nil => rfl
  | cons t rest ih =>
      rw [List.map_cons, zeroLengths, zeroLengths, Token.kind_shift]
      split
      · exact ih _
      · exact ih _
      · exact ih _
      · rw [List.map_append, ih, Token.text_shift]
        split <;> rfl
      · exact ih _

/-- Tokens that touch still touch. -/
theorem glued?_shift (origin : o.Counted) (t : CssToken) (rest : List CssToken) :
    glued? (t.shift o) (rest.map (Token.shift o)) = (glued? t rest).map (Token.shift o) := by
  rw [glued?, glued?, List.head?_map, Option.filter_map]
  congr 2
  funext next
  rw [Bool.eq_iff_iff]
  simp [(Position.shift_injective origin).eq_iff]

theorem className?_shift (origin : o.Counted) (point : CssToken) (rest : List CssToken) :
    className? (point.shift o) (rest.map (Token.shift o)) =
      (className? point rest).map (Token.shift o) := by
  rw [className?, className?, Token.kind_shift, Token.text_shift]
  split
  · rw [glued?_shift origin, Option.filter_map]
    rfl
  · rfl

/-- The token, the one before it and those after it, shifted. -/
def Site.shift (o : Position) (site : Site) : Site :=
  ⟨site.before.map (Token.shift o), site.here.shift o, site.after.map (Token.shift o)⟩

theorem sitesOutsideBrackets_shift (inside : Bool) (before : Option CssToken) (ts : List CssToken) :
    sitesOutsideBrackets inside (before.map (Token.shift o)) (ts.map (Token.shift o)) =
      (sitesOutsideBrackets inside before ts).map (Site.shift o) := by
  induction ts generalizing inside before with
  | nil => rfl
  | cons t rest ih =>
      have next : ∀ inside, sitesOutsideBrackets inside (some (t.shift o)) (rest.map (Token.shift o)) =
          (sitesOutsideBrackets inside (some t) rest).map (Site.shift o) := fun inside =>
        ih inside (some t)
      rw [List.map_cons, sitesOutsideBrackets, sitesOutsideBrackets, Token.kind_shift]
      simp only [next]
      split
      · rfl
      split
      · rfl
      split
      · rfl
      · rfl

theorem sitesOf_shift (s : Css.Selector) : sitesOf (s.shift o) = (sitesOf s).map (Site.shift o) :=
  sitesOutsideBrackets_shift false none s.tokens

theorem selectorsOf_shift (r : Css.StyleRule Css.Item) :
    selectorsOf (r.shift o) = (selectorsOf r).map (Css.Selector.shift o) := by
  rw [selectorsOf, selectorsOf]
  show (if r.keyframe then [] else r.selectors.map (Css.Selector.shift o)) = _
  split <;> rfl

theorem qualified?_shift (origin : o.Counted) (name : CssToken) (rest : List CssToken) :
    qualified? (name.shift o) (rest.map (Token.shift o)) = (qualified? name rest).map (Span.shift o) := by
  rw [qualified?, qualified?, glued?_shift origin]
  cases glued? name rest with
  | none => rfl
  | some next =>
      simp only [Option.map_some]
      rw [Token.kind_shift, ← List.map_drop, className?_shift origin]
      split
      · rfl
      · simp only [Option.map_map]
        congr 1
        funext c
        simp [Span.shift_join origin]

/-! ## Rules that read tokens -/

variable {s : Subject}

theorem singleQuotes_shift (s : Subject) :
    singleQuotes (s.shift o) = (singleQuotes s).map (Finding.shift o) := by
  cases s with
  | cssDeclaration d => exact doubleQuoted_shift none d.valueTokens
  | cssStyleRule r => exact flatMap_shift fun selector _ => doubleQuoted_shift none selector.tokens
  | cssAtRule r =>
      show (if r.name = "charset" then [] else doubleQuoted none (r.preludeTokens.map _)) = _
      rw [singleQuotes]
      split
      · rfl
      · exact doubleQuoted_shift none r.preludeTokens
  | _ => rfl

theorem urlUnquoted_shift (s : Subject) :
    urlUnquoted (s.shift o) = (urlUnquoted s).map (Finding.shift o) := by
  cases s with
  | cssDeclaration d => exact quotedUrls_shift d.valueTokens
  | cssAtRule r => exact quotedUrls_shift r.preludeTokens
  | _ => rfl

theorem charsetDoubleQuotes_shift (s : Subject) :
    charsetDoubleQuotes (s.shift o) = (charsetDoubleQuotes s).map (Finding.shift o) := by
  cases s with
  | cssAtRule r =>
      have same : r.preludeTokens.find? ((·.kind == .string) ∘ Token.shift o) =
          r.preludeTokens.find? (·.kind == .string) := rfl
      simp only [Subject.shift, charsetDoubleQuotes, Css.AtRule.shift, List.find?_map, same]
      split
      · cases r.preludeTokens.find? (·.kind == .string) with
        | none => rfl
        | some t =>
            simp only [Option.map_some, Token.text_shift, stringValue_shift]
            split <;> rfl
      · rfl
  | _ => rfl

theorem leadingZero_shift (s : Subject) :
    leadingZero (s.shift o) = (leadingZero s).map (Finding.shift o) := by
  cases s with
  | cssDeclaration d => exact leadingZeros_shift d.valueTokens
  | cssAtRule r => exact leadingZeros_shift r.preludeTokens
  | _ => rfl

theorem zeroUnit_shift (s : Subject) : zeroUnit (s.shift o) = (zeroUnit s).map (Finding.shift o) := by
  cases s with
  | cssDeclaration d =>
      have custom : (d.shift o).isCustom = d.isCustom := rfl
      have name : (d.shift o).name = d.name := rfl
      rw [Subject.shift, zeroUnit, zeroUnit, custom, name]
      split
      · rfl
      · exact zeroLengths_shift 0 d.valueTokens
  | _ => rfl

theorem threeDigitHex_shift (s : Subject) :
    threeDigitHex (s.shift o) = (threeDigitHex s).map (Finding.shift o) := by
  cases s with
  | cssDeclaration d =>
      simp only [Subject.shift, threeDigitHex, Css.Declaration.shift, List.filter_map]
      apply filterMap_shift
      intro t _
      rw [Token.text_shift]
      cases shortHex? (t.text.drop 1) <;> rfl
  | _ => rfl

theorem idClassHyphen_shift (origin : o.Counted) (s : Subject) :
    idClassHyphen (s.shift o) = (idClassHyphen s).map (Finding.shift o) := by
  have words : ∀ (name : List Char) (span : Span),
      underscored name (span.shift o) = (underscored name span).map (Finding.shift o) := by
    intro name span
    rw [underscored, underscored]
    split <;> rfl
  cases s with
  | cssStyleRule r =>
      rw [Subject.shift, idClassHyphen, idClassHyphen, selectorsOf_shift]
      apply flatMap_shift
      intro selector _
      rw [sitesOf_shift]
      apply flatMap_shift
      intro site _
      rw [Site.shift, Token.kind_shift, Token.text_shift, Token.span_shift, className?_shift origin]
      split
      · exact words _ _
      · cases className? site.here site.after with
        | none => rfl
        | some name =>
            simp only [Option.map_some, Token.text_shift, Token.span_shift, ← Span.shift_join origin]
            exact words _ _
  | _ => rfl

theorem idSelector_shift (s : Subject) :
    idSelector (s.shift o) = (idSelector s).map (Finding.shift o) := by
  cases s with
  | cssStyleRule r =>
      apply flatMap_shift
      intro selector _
      rw [sitesOf_shift, List.filter_map, List.map_map, List.map_map]
      rfl
  | _ => rfl

theorem important_shift (s : Subject) : important (s.shift o) = (important s).map (Finding.shift o) := by
  cases s with
  | cssDeclaration d =>
      simp only [Subject.shift, important, Css.Declaration.shift]
      cases d.important <;> rfl
  | _ => rfl

/-! ## Rules on the order and the lines of a stylesheet -/

theorem declarations_shift (b : Css.Block Css.Item) :
    (b.shift o).declarations = b.declarations.map (Css.Declaration.shift o) := by
  rw [Css.Block.shift]

theorem declarationSemicolon_shift (s : Subject) :
    declarationSemicolon (s.shift o) = (declarationSemicolon s).map (Finding.shift o) := by
  cases s with
  | cssBlock b =>
      rw [Subject.shift, declarationSemicolon, declarationSemicolon, declarations_shift,
        List.getLast?_map]
      cases b.declarations.getLast? with
      | none => rfl
      | some d =>
          have lacks : (d.shift o).semicolon.isNone = d.semicolon.isNone := by
            simp [Css.Declaration.shift]
          simp only [Option.map_some, lacks]
          split <;> rfl
  | _ => rfl

theorem alphabeticalDeclarations_shift (s : Subject) :
    alphabeticalDeclarations (s.shift o) = (alphabeticalDeclarations s).map (Finding.shift o) := by
  cases s with
  | cssBlock b =>
      rw [Subject.shift, alphabeticalDeclarations, alphabeticalDeclarations, declarations_shift,
        neighbours, neighbours, neighbours_shift]
      apply filterMap_shift
      intro pair _
      obtain ⟨previous, current⟩ := pair
      show (if previous.isCustom || current.isCustom then none
        else if (sortKey previous.property).compare (sortKey current.property) = .gt then some _
        else none) = _
      dsimp only
      split
      · rfl
      split <;> rfl
  | _ => rfl

theorem declarationNewline_shift (origin : o.Counted) (s : Subject) :
    declarationNewline (s.shift o) = (declarationNewline s).map (Finding.shift o) := by
  cases s with
  | cssBlock b =>
      rw [Subject.shift, declarationNewline, declarationNewline, declarations_shift,
        neighbours, neighbours, neighbours_shift]
      simp only [Css.Block.span_shift, Span.start_shift, Span.finish_shift,
        Position.line_shift_eq_iff origin]
      split
      · rfl
      · apply filterMap_shift
        intro pair _
        obtain ⟨previous, current⟩ := pair
        simp only [Prod.map, Css.Declaration.shift, Span.start_shift, Span.finish_shift,
          Position.line_shift_eq_iff origin]
        split <;> rfl
  | _ => rfl

theorem headSpan_shift (item : Css.Item) : headSpan (item.shift o) = (headSpan item).shift o := by
  cases item with
  | style r =>
      rw [Css.shift_style, headSpan, headSpan, Css.StyleRule.shift]
      have opening : (r.block.shift o).opening = r.block.opening.map (Span.shift o) := by
        rw [Css.Block.shift]
      simp only [opening]
      cases r.prelude with
      | some span => rfl
      | none => cases r.block.opening <;> rfl
  | atRule r =>
      rw [Css.shift_atRule]
      rfl
  | declarations block =>
      rw [Css.shift_declarations]
      simp [headSpan, Css.Item.span, Span.shift_emptyAt]
  | comment c =>
      rw [Css.shift_comment]
      rfl

theorem isStatement_shift (item : Css.Item) : isStatement (item.shift o) = isStatement item := by
  cases item with
  | style r => rw [Css.shift_style]; rfl
  | atRule r =>
      rw [Css.shift_atRule]
      simp only [isStatement, Css.AtRule.isStatement, Css.AtRule.shift]
      cases r.body <;> rw [Css.Body.shift]
  | declarations block => rw [Css.shift_declarations]; rfl
  | comment c => rw [Css.shift_comment]; rfl

/-- The finding on a rule that no blank line sets off from the rule before it. -/
def crowding (previous : Option Css.Item) (lead : Option Position) (item : Css.Item) :
    List Finding :=
  match previous with
  | none => []
  | some p =>
    if !(isStatement p && isStatement item) &&
        (lead.getD item.span.start).line ≤ p.span.finish.line + 1 then
      [(Finding.filled (headSpan item)).suggest "Insert a blank line" ['\n']]
    else []

theorem crowding_shift (origin : o.Counted) (previous : Option Css.Item) (lead : Option Position)
    (item : Css.Item) :
    crowding (previous.map (Css.Item.shift o)) (lead.map o.shift) (item.shift o) =
      (crowding previous lead item).map (Finding.shift o) := by
  cases previous with
  | none => rfl
  | some p =>
      have start : (lead.map o.shift).getD (item.span.shift o).start =
          o.shift (lead.getD item.span.start) := by
        cases lead <;> rfl
      simp only [crowding, Option.map_some, isStatement_shift, start, Css.Item.span_shift,
        Span.finish_shift, Position.line_shift_le_succ_iff origin, headSpan_shift]
      split <;> rfl

/-- The induction is on the items; the rule before them and where the comments ahead of the next
one begin change with it. -/
theorem crowdedRules_shift (origin : o.Counted) (previous : Option Css.Item)
    (lead : Option Position) (items : List Css.Item) :
    crowdedRules (previous.map (Css.Item.shift o)) (lead.map o.shift)
        (items.map (Css.Item.shift o)) = (crowdedRules previous lead items).map (Finding.shift o) := by
  induction items generalizing previous lead with
  | nil => rfl
  | cons item rest ih =>
      have rule : crowding (previous.map (Css.Item.shift o)) (lead.map o.shift) (item.shift o) ++
          crowdedRules (some (item.shift o)) none (rest.map (Css.Item.shift o)) =
          (crowding previous lead item ++ crowdedRules (some item) none rest).map
            (Finding.shift o) := by
        rw [List.map_append, crowding_shift origin, ← ih (some item) none]
        rfl
      rw [List.map_cons]
      cases item with
      | style r =>
          rw [Css.shift_style] at rule ⊢
          exact rule
      | atRule r =>
          rw [Css.shift_atRule] at rule ⊢
          exact rule
      | declarations block =>
          rw [Css.shift_declarations, crowdedRules, crowdedRules]
          exact ih none none
      | comment c =>
          rw [Css.shift_comment, crowdedRules, crowdedRules]
          have starts : ((previous.map (Css.Item.shift o)).any fun p =>
              p.span.finish.line < (c.shift o).span.start.line) =
              previous.any fun p => p.span.finish.line < c.span.start.line := by
            cases previous with
            | none => rfl
            | some p =>
                simp only [Option.map_some, Option.any_some, Css.Item.span_shift, Span.finish_shift]
                exact decide_eq_decide.mpr (Position.line_shift_lt_iff origin)
          have next : ((lead.map o.shift).or (if (previous.any fun p =>
              p.span.finish.line < c.span.start.line) then some (c.shift o).span.start else none)) =
              (lead.or (if (previous.any fun p => p.span.finish.line < c.span.start.line) then
                some c.span.start else none)).map o.shift := by
            cases lead with
            | some p => rfl
            | none => split <;> rfl
          rw [starts, next]
          exact ih previous _

theorem ruleBlankLine_shift (origin : o.Counted) (s : Subject) :
    ruleBlankLine (s.shift o) = (ruleBlankLine s).map (Finding.shift o) := by
  cases s with
  | cssRuleList items parent =>
      have steps : (parent.map (Css.AtRule.shift o)).any (·.isKeyframes) = parent.any (·.isKeyframes) := by
        cases parent <;> rfl
      rw [Subject.shift, ruleBlankLine, ruleBlankLine, steps]
      split
      · rfl
      · exact crowdedRules_shift origin none none items
  | _ => rfl

/-! ## Rules that read the source -/

variable {host file : Document}

theorem badGap_shift (embeds : host.Embeds o file) {headEnd : Position} {opening : Span}
    (marked : (Passage.whole file.source.text).Marks headEnd)
    (covered : (Passage.whole file.source.text).Covers opening) :
    badGap host (o.shift headEnd) (opening.shift o) =
      (badGap file headEnd opening).map (Finding.shift o) := by
  have same := embeds.slice (s := ⟨headEnd, opening.start⟩) marked covered.start
  rw [Span.shift_mk] at same
  simp only [badGap, Span.start_shift, same]
  split
  · rfl
  · simp only [List.map_cons, List.map_nil]
    split
    · rfl
    split <;> rfl

theorem braceSpacing_shift (embeds : host.Embeds o file) {s : Subject}
    (placed : s.Placed (.whole file.source.text)) :
    braceSpacing host (s.shift o) = (braceSpacing file s).map (Finding.shift o) := by
  cases s with
  | cssStyleRule r =>
      obtain ⟨-, prelude, opening, found, covered⟩ := (placed : Css.StyleRule.Placed _ r)
      have shifted : (r.shift o).block.opening = some (opening.shift o) := by
        rw [Css.StyleRule.shift, Css.Block.shift, Option.mem_def.mp found]
        rfl
      rw [Subject.shift, braceSpacing, braceSpacing, shifted, Option.mem_def.mp found]
      simp only [Css.StyleRule.shift]
      cases head : r.prelude with
      | none => rfl
      | some span => exact badGap_shift embeds (prelude span head).finish covered
  | cssAtRule r =>
      obtain ⟨name, prelude, -, opening⟩ := (placed : Css.AtRule.Placed _ r)
      have shifted : (r.shift o).opening? = r.opening?.map (Span.shift o) := by
        rw [Css.AtRule.shift, Css.AtRule.opening?, Css.AtRule.opening?]
        cases r.body with
        | statement => rw [Css.Body.shift]; rfl
        | declarations block => rw [Css.Body.shift, Css.Block.shift]
        | rules opening closing items => rw [Css.Body.shift]; rfl
      have head : ((r.shift o).preludeSpan.getD (r.shift o).nameSpan).finish =
          o.shift (r.preludeSpan.getD r.nameSpan).finish := by
        simp only [Css.AtRule.shift]
        cases r.preludeSpan <;> rfl
      rw [Subject.shift, braceSpacing, braceSpacing, shifted, head]
      cases isOpening : r.opening? with
      | none => rfl
      | some span =>
          refine badGap_shift embeds ?_ (opening span isOpening)
          cases found : r.preludeSpan with
          | none => exact name.finish
          | some p => exact (prelude p found).finish
  | _ => rfl

theorem propertyColonSpace_shift (embeds : host.Embeds o file) {s : Subject}
    (placed : s.Placed (.whole file.source.text)) :
    propertyColonSpace host (s.shift o) = (propertyColonSpace file s).map (Finding.shift o) := by
  cases s with
  | cssDeclaration d =>
      obtain ⟨property, colon, value, -, -, -⟩ := (placed : Css.Declaration.Placed _ d)
      rw [Subject.shift, propertyColonSpace, propertyColonSpace, List.map_append]
      simp only [Css.Declaration.shift, Span.start_shift, Span.finish_shift, Position.offset_shift,
        Nat.add_lt_add_iff_right]
      congr 1
      · split <;> rfl
      · cases found : d.valueSpan with
        | none => rfl
        | some v =>
            have same := embeds.slice (s := ⟨d.colon.finish, v.start⟩) colon.finish
              (value v found).start
            rw [Span.shift_mk] at same
            simp only [Option.map_some, Span.start_shift, same]
            split
            · rfl
            split <;> rfl
  | _ => rfl

theorem selectorNewline_shift (embeds : host.Embeds o file) {s : Subject}
    (placed : s.Placed (.whole file.source.text)) :
    selectorNewline host (s.shift o) = (selectorNewline file s).map (Finding.shift o) := by
  cases s with
  | cssStyleRule r =>
      have selectors := selectorsOf_placed placed
      rw [Subject.shift, selectorNewline, selectorNewline]
      dsimp only
      rw [selectorsOf_shift, neighbours_shift]
      apply filterMap_shift
      intro pair member
      obtain ⟨previous, current⟩ := pair
      obtain ⟨isBefore, isAfter⟩ := mem_of_mem_neighbours member
      have here := (selectors.each _ isBefore).span.finish
      have same := embeds.slice (s := ⟨previous.span.finish, current.span.start⟩) here
        (selectors.each _ isAfter).span.start
      rw [Span.shift_mk] at same
      have counted := here.counted Position.counted_start
      simp only [Prod.map, Css.Selector.shift, Span.start_shift, Span.finish_shift, same]
      generalize file.source.slice ⟨previous.span.finish, current.span.start⟩ = between
      split
      · rfl
      · have comma : Span.covering ((o.shift previous.span.finish).after
            (between.takeWhile (· != ','))) [','] = (Span.covering (previous.span.finish.after
              (between.takeWhile (· != ','))) [',']).shift o := by
          rw [Span.shift_covering embeds.counted (counted.after _),
            Position.shift_after embeds.counted counted]
        rw [comma]
        split <;> rfl
  | _ => rfl

theorem typeSelectorQualifier_shift (embeds : host.Embeds o file) {s : Subject}
    (placed : s.Placed (.whole file.source.text)) :
    typeSelectorQualifier host (s.shift o) = (typeSelectorQualifier file s).map (Finding.shift o) := by
  cases s with
  | cssStyleRule r =>
      rw [Subject.shift, typeSelectorQualifier, typeSelectorQualifier, selectorsOf_shift]
      apply flatMap_shift
      intro selector member
      rw [sitesOf_shift]
      apply filterMap_shift
      intro site isSite
      have reads := Site.reads ((selectorsOf_placed placed).each selector member).tokens isSite
      have first : ((site.shift o).before.map startsCompound).getD true =
          (site.before.map startsCompound).getD true := by
        rw [Site.shift]
        cases site.before <;> rfl
      have name : (site.shift o).here.kind = site.here.kind := rfl
      rw [first, name]
      split
      · have qualifier : qualified? (site.shift o).here (site.shift o).after =
            (qualified? site.here site.after).map (Span.shift o) :=
          qualified?_shift embeds.counted site.here site.after
        rw [qualifier]
        cases found : qualified? site.here site.after with
        | none => rfl
        | some span =>
            have covered := covers_qualified? (reads.sublist (List.sublist_cons_self _ _)) span found
            have same := embeds.slice covered.start covered.finish
            simp only [Option.map_some, same, Option.some.injEq]
            simp only [Finding.shift, Finding.suggest, Finding.filled, Site.shift,
              Token.span_shift, Token.text_shift, Span.shift_join embeds.counted]
      · rfl
  | _ => rfl

end Rules

/-! ## The style guide -/

/-- A check finds in a shifted subject of a document that holds another what it finds in the
subject of the other, shifted. -/
def Check.Follows (check : Check) : Prop :=
  ∀ {host file : Document} {o : Position}, host.Embeds o file → ∀ s : Subject,
    s.Placed (.whole file.source.text) →
    check host (s.shift o) = (check file s).map (List.map (Finding.shift o))

theorem Check.follows_total {find : Document → Subject → List Finding}
    (shifts : ∀ {host file : Document} {o : Position}, host.Embeds o file → ∀ s : Subject,
      s.Placed (.whole file.source.text) →
      find host (s.shift o) = (find file s).map (Finding.shift o)) :
    (Check.total find).Follows := by
  intro host file o embeds s placed
  exact congrArg Except.ok (shifts embeds s placed)

open Rules in
/-- **Rules on stylesheets follow them into pages.** -/
theorem StyleGuide.follows_cssRules : ∀ r ∈ StyleGuide.cssRules, r.check.Follows := by
  simp only [cssRules, List.forall_mem_cons, List.not_mem_nil, false_implies, implies_true,
    and_true, reading]
  refine ⟨?_, ?_, ?_, ?_, ?_, ?_, ?_, ?_, ?_, ?_, ?_, ?_, ?_, ?_, ?_, ?_, ?_⟩
  · exact Check.follows_total fun _ s _ => singleQuotes_shift s
  · exact Check.follows_total fun _ s _ => urlUnquoted_shift s
  · exact Check.follows_total fun _ s _ => charsetDoubleQuotes_shift s
  · exact Check.follows_total fun embeds s _ => idClassHyphen_shift embeds.counted s
  · exact Check.follows_total fun _ s _ => threeDigitHex_shift s
  · exact Check.follows_total fun _ s _ => leadingZero_shift s
  · exact Check.follows_total fun _ s _ => zeroUnit_shift s
  · exact Check.follows_total fun _ s _ => declarationSemicolon_shift s
  · exact Check.follows_total fun embeds _ placed => propertyColonSpace_shift embeds placed
  · exact Check.follows_total fun embeds _ placed => braceSpacing_shift embeds placed
  · exact Check.follows_total fun _ s _ => alphabeticalDeclarations_shift s
  · exact Check.follows_total fun embeds _ placed => typeSelectorQualifier_shift embeds placed
  · exact Check.follows_total fun _ s _ => important_shift s
  · exact Check.follows_total fun _ s _ => idSelector_shift s
  · exact Check.follows_total fun embeds s _ => declarationNewline_shift embeds.counted s
  · exact Check.follows_total fun embeds _ placed => selectorNewline_shift embeds placed
  · exact Check.follows_total fun embeds s _ => ruleBlankLine_shift embeds.counted s

end PageLint
