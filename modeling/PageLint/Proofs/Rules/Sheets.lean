/-
# PageLint.Proofs.Rules.Sheets — what rules find in stylesheets lies there

One theorem for each rule that looks at subjects of stylesheets: of a subject that is in
its place, every finding is, too. A rule that reads the text of a stretch off its document
needs the document's text to be that of the passage; any other one does not.
-/
import PageLint.Proofs.Rules.Tokens

namespace PageLint.Rules

set_option autoImplicit false

open Text

variable {g : Passage} {s : Subject} {t : CssToken} {ts : List CssToken} {span : Span}

/-! ## Tokens by themselves -/

theorem coversAll_capitals {text : List Char} (covered : g.Covers span) :
    CoversAll g (capitals text span) := by
  rw [capitals]
  split
  · exact coversAll_singleton covered
  · exact coversAll_nil

theorem coversAll_capitalsInValue (reads : g.Reads ts) : CoversAll g (capitalsInValue ts) :=
  coversAll_flatMap fun _ member => coversAll_capitals (reads.covers (List.mem_of_mem_filter member))

theorem coversAll_capitalsInSelector (reads : g.Reads ts) (inBrackets afterSign : Bool) :
    CoversAll g (capitalsInSelector inBrackets afterSign ts) := by
  induction ts generalizing inBrackets afterSign with
  | nil => exact coversAll_nil
  | cons t rest ih =>
      have later := ih (reads.sublist (List.sublist_cons_self _ _))
      have own : CoversAll g (if inBrackets && afterSign then [] else capitals t.text t.span) := by
        split
        · exact coversAll_nil
        · exact coversAll_capitals (reads.covers List.mem_cons_self)
      rw [capitalsInSelector]
      split
      · exact later _ _
      · exact later _ _
      · exact later _ _
      all_goals first
        | exact own.append (later _ _)
        | exact later _ _

theorem coversAll_leadingZeros (reads : g.Reads ts) : CoversAll g (leadingZeros ts) := by
  apply coversAll_filterMap
  intro t member f found
  obtain ⟨short, -, rfl⟩ := Option.map_eq_some_iff.mp found
  exact reads.covers (List.mem_of_mem_filter member)

theorem coversAll_zeroLengths (reads : g.Reads ts) (depth : Nat) :
    CoversAll g (zeroLengths depth ts) := by
  induction ts generalizing depth with
  | nil => exact coversAll_nil
  | cons t rest ih =>
      have later := ih (reads.sublist (List.sublist_cons_self _ _))
      rw [zeroLengths]
      split
      · exact later _
      · exact later _
      · exact later _
      · refine CoversAll.append ?_ (later _)
        split
        · exact coversAll_singleton (reads.covers List.mem_cons_self)
        · exact coversAll_nil
      · exact later _

theorem coversAll_doubleQuoted (reads : g.Reads ts) (before : Option CssToken) :
    CoversAll g (doubleQuoted before ts) := by
  induction ts generalizing before with
  | nil => exact coversAll_nil
  | cons t rest ih =>
      rw [doubleQuoted]
      refine CoversAll.append ?_ (ih (reads.sublist (List.sublist_cons_self _ _)) _)
      split
      · have own := reads.covers List.mem_cons_self
        refine coversAll_singleton ?_
        split
        · exact own
        · exact own
      · exact coversAll_nil

theorem coversAll_quotedUrls (reads : g.Reads ts) : CoversAll g (quotedUrls ts) := by
  induction ts with
  | nil => exact coversAll_nil
  | cons t rest ih =>
      have tail : g.Reads rest := reads.sublist (List.sublist_cons_self _ _)
      rw [quotedUrls]
      refine CoversAll.append (coversAll_toList fun f found => ?_) (ih tail)
      obtain ⟨arg, argument, rfl⟩ := Option.map_eq_some_iff.mp found
      have own := tail.covers (urlArgument?_mem argument)
      dsimp only
      split
      · exact own
      · exact own

theorem coversAll_schemed {url : List Char} (covered : g.Covers span) :
    CoversAll g (schemed url span) := by
  rw [schemed]
  split
  · exact coversAll_singleton covered
  split
  · exact coversAll_singleton covered
  · exact coversAll_nil

theorem coversAll_underscored {name : List Char} (covered : g.Covers span) :
    CoversAll g (underscored name span) := by
  rw [underscored]
  split
  · exact coversAll_singleton covered
  · exact coversAll_nil

/-! ## Quotes, addresses and numbers -/

theorem covers_singleQuotes (placed : s.Placed g) : CoversAll g (singleQuotes s) := by
  cases s with
  | cssDeclaration d => exact coversAll_doubleQuoted (Css.Declaration.Placed.tokens placed) none
  | cssStyleRule r =>
      exact coversAll_flatMap fun selector member => coversAll_doubleQuoted
        ((Css.StyleRule.Placed.selectors placed).each selector member).tokens none
  | cssAtRule r =>
      rw [singleQuotes]
      split
      · exact coversAll_nil
      · exact coversAll_doubleQuoted (Css.AtRule.Placed.tokens placed) none
  | _ => exact coversAll_nil

theorem covers_charsetDoubleQuotes (placed : s.Placed g) : CoversAll g (charsetDoubleQuotes s) := by
  cases s with
  | cssAtRule r =>
      have tokens := Css.AtRule.Placed.tokens placed
      rw [charsetDoubleQuotes]
      split
      · split
        next t found =>
          split
          · exact coversAll_singleton (tokens.covers (List.mem_of_find?_eq_some found))
          · exact coversAll_nil
        next => exact coversAll_nil
      · exact coversAll_nil
  | _ => exact coversAll_nil

theorem covers_urlUnquoted (placed : s.Placed g) : CoversAll g (urlUnquoted s) := by
  cases s with
  | cssDeclaration d => exact coversAll_quotedUrls (Css.Declaration.Placed.tokens placed)
  | cssAtRule r => exact coversAll_quotedUrls (Css.AtRule.Placed.tokens placed)
  | _ => exact coversAll_nil

theorem covers_leadingZero (placed : s.Placed g) : CoversAll g (leadingZero s) := by
  cases s with
  | cssDeclaration d => exact coversAll_leadingZeros (Css.Declaration.Placed.tokens placed)
  | cssAtRule r => exact coversAll_leadingZeros (Css.AtRule.Placed.tokens placed)
  | _ => exact coversAll_nil

theorem covers_zeroUnit (placed : s.Placed g) : CoversAll g (zeroUnit s) := by
  cases s with
  | cssDeclaration d =>
      rw [zeroUnit]
      split
      · exact coversAll_nil
      · exact coversAll_zeroLengths (Css.Declaration.Placed.tokens placed) 0
  | _ => exact coversAll_nil

theorem covers_threeDigitHex (placed : s.Placed g) : CoversAll g (threeDigitHex s) := by
  cases s with
  | cssDeclaration d =>
      apply coversAll_filterMap
      intro t member f found
      obtain ⟨short, -, rfl⟩ := Option.map_eq_some_iff.mp found
      exact (Css.Declaration.Placed.tokens placed).covers (List.mem_of_mem_filter member)
  | _ => exact coversAll_nil

/-! ## Selectors -/

theorem selectorsOf_sublist (r : Css.StyleRule Css.Item) :
    (selectorsOf r).Sublist r.selectors := by
  rw [selectorsOf]
  split
  · exact List.nil_sublist _
  · exact List.Sublist.refl _

theorem selectorsOf_placed {r : Css.StyleRule Css.Item} (placed : r.Placed g) :
    Css.SelectorsPlaced g (selectorsOf r) where
  each selector member := placed.selectors.each selector ((selectorsOf_sublist r).subset member)
  ordered := placed.selectors.ordered.sublist (selectorsOf_sublist r)

theorem covers_idClassHyphen (placed : s.Placed g) : CoversAll g (idClassHyphen s) := by
  cases s with
  | cssStyleRule r =>
      refine coversAll_flatMap fun selector member => coversAll_flatMap fun site isSite => ?_
      have reads := Site.reads ((selectorsOf_placed placed).each selector member).tokens isSite
      have own := reads.covers List.mem_cons_self
      split
      · exact coversAll_underscored own
      · split
        next name named =>
          have next := reads.covers (List.mem_cons_of_mem _ (className?_mem named))
          exact coversAll_underscored (own.join next)
        next => exact coversAll_nil
  | _ => exact coversAll_nil

theorem covers_qualified? {name : CssToken} {rest : List CssToken} (reads : g.Reads rest) :
    ∀ i ∈ qualified? name rest, g.Covers i := by
  intro i found
  rw [qualified?] at found
  split at found
  · simp at found
  next next glued =>
    have own := reads.covers (glued?_mem glued)
    split at found
    · rw [← Option.some.inj found]
      exact own
    · obtain ⟨c, named, rfl⟩ := Option.map_eq_some_iff.mp found
      exact own.join (reads.covers (List.mem_of_mem_drop (className?_mem named)))

theorem covers_typeSelectorQualifier (doc : Document) (placed : s.Placed g) :
    CoversAll g (typeSelectorQualifier doc s) := by
  cases s with
  | cssStyleRule r =>
      refine coversAll_flatMap fun selector member => coversAll_filterMap fun site isSite f found => ?_
      have reads := Site.reads ((selectorsOf_placed placed).each selector member).tokens isSite
      split at found
      · obtain ⟨i, qualifier, rfl⟩ := Option.map_eq_some_iff.mp found
        exact (reads.covers List.mem_cons_self).join
          (covers_qualified? (reads.sublist (List.sublist_cons_self _ _)) i qualifier)
      · simp at found
  | _ => exact coversAll_nil

theorem covers_idSelector (placed : s.Placed g) : CoversAll g (idSelector s) := by
  cases s with
  | cssStyleRule r =>
      apply coversAll_flatMap
      intro selector member f found
      obtain ⟨site, isSite, rfl⟩ := List.mem_map.mp found
      have tokens := ((Css.StyleRule.Placed.selectors placed).each selector member).tokens
      exact (Site.reads tokens (List.mem_of_mem_filter isSite)).covers List.mem_cons_self
  | _ => exact coversAll_nil

theorem mem_of_mem_neighbours {α : Type} {xs : List α} {pair : α × α}
    (member : pair ∈ xs.zip (xs.drop 1)) : pair.1 ∈ xs ∧ pair.2 ∈ xs :=
  ⟨(List.of_mem_zip member).1, List.mem_of_mem_drop (List.of_mem_zip member).2⟩

theorem rel_of_mem_neighbours {α : Type} {R : α → α → Prop} {xs : List α} {pair : α × α}
    (related : xs.Pairwise R) (member : pair ∈ xs.zip (xs.drop 1)) : R pair.1 pair.2 := by
  induction xs with
  | nil => simp at member
  | cons x xs ih =>
      cases xs with
      | nil => simp at member
      | cons y ys =>
          simp only [List.drop_succ_cons, List.drop_zero, List.zip_cons_cons] at member
          obtain ⟨first, others⟩ := List.pairwise_cons.mp related
          rcases List.mem_cons.mp member with rfl | later
          · exact first y List.mem_cons_self
          · exact ih others (by simpa using later)

/-- The comma between two selectors stands where the gap between them has its first one. -/
theorem covers_selectorNewline {doc : Document} {cs : List Char} (source : doc.source = ⟨cs⟩)
    (placed : s.Placed (.whole cs)) : CoversAll (.whole cs) (selectorNewline doc s) := by
  cases s with
  | cssStyleRule r =>
      apply coversAll_filterMap
      intro pair member f found
      obtain ⟨previous, current⟩ := pair
      have selectors := selectorsOf_placed placed
      obtain ⟨isBefore, isAfter⟩ := mem_of_mem_neighbours member
      have ordered := rel_of_mem_neighbours selectors.ordered member
      have gap : (Passage.whole cs).Covers ⟨previous.span.finish, current.span.start⟩ :=
        (selectors.each _ isBefore).span.finish.covers (selectors.each _ isAfter).span.start ordered
      have shown := Source.shows_slice gap
      simp only [source] at found
      generalize Source.slice ⟨cs⟩ ⟨previous.span.finish, current.span.start⟩ = between at shown found
      split at found
      · simp at found
      · rw [← Option.some.inj found]
        show (Passage.whole cs).Covers (if between.contains ',' then _ else _)
        split
        next comma =>
          obtain ⟨after, parted⟩ := eq_takeWhile_append (by simpa using comma)
          have holds := shown.1
          rw [parted] at holds
          have mark : (Passage.whole cs).Holds
              (previous.span.finish.after (between.takeWhile (· != ','))) ([','] ++ after) :=
            holds.right
          exact mark.left.covers
        · exact gap
  | _ => exact coversAll_nil

/-! ## Declarations -/

theorem covers_declarationSemicolon (placed : s.Placed g) :
    CoversAll g (declarationSemicolon s) := by
  cases s with
  | cssBlock b =>
      rw [declarationSemicolon]
      split
      next d last =>
        split
        · have own := Css.Declaration.Placed.span (placed d (List.mem_of_getLast? last))
          exact coversAll_singleton own.finish.covers_emptyAt
        · exact coversAll_nil
      next => exact coversAll_nil
  | _ => exact coversAll_nil

theorem covers_propertyColonSpace {doc : Document} {cs : List Char} (source : doc.source = ⟨cs⟩)
    (placed : s.Placed (.whole cs)) : CoversAll (.whole cs) (propertyColonSpace doc s) := by
  cases s with
  | cssDeclaration d =>
      obtain ⟨property, colon, value, -, -, -⟩ := (placed : Css.Declaration.Placed _ d)
      rw [propertyColonSpace]
      apply CoversAll.append
      · split
        next ordered =>
          exact coversAll_singleton (property.finish.covers colon.start ordered.le)
        next => exact coversAll_nil
      · split
        · exact coversAll_nil
        next v found =>
          rw [source]
          dsimp only
          split
          · exact coversAll_singleton colon
          next some_ =>
            split
            · refine coversAll_singleton (covers_gap colon.finish (value v found).start ?_)
              simpa using some_
            · exact coversAll_nil
  | _ => exact coversAll_nil

theorem covers_alphabeticalDeclarations (placed : s.Placed g) :
    CoversAll g (alphabeticalDeclarations s) := by
  cases s with
  | cssBlock b =>
      apply coversAll_filterMap
      intro pair member f found
      have current := placed pair.2 (mem_of_mem_neighbours member).2
      dsimp only at found
      split at found
      · simp at found
      split at found
      · rw [← Option.some.inj found]
        exact Css.Declaration.Placed.property current
      · simp at found
  | _ => exact coversAll_nil

theorem covers_important (placed : s.Placed g) : CoversAll g (important s) := by
  cases s with
  | cssDeclaration d =>
      apply coversAll_toList
      intro f found
      obtain ⟨i, marked, rfl⟩ := Option.map_eq_some_iff.mp found
      exact Css.Declaration.Placed.important placed i marked
  | _ => exact coversAll_nil

theorem covers_declarationNewline (placed : s.Placed g) : CoversAll g (declarationNewline s) := by
  cases s with
  | cssBlock b =>
      rw [declarationNewline]
      split
      · exact coversAll_nil
      · apply coversAll_filterMap
        intro pair member f found
        have current := placed pair.2 (mem_of_mem_neighbours member).2
        dsimp only at found
        split at found
        · rw [← Option.some.inj found]
          exact Css.Declaration.Placed.property current
        · simp at found
  | _ => exact coversAll_nil

/-! ## Space around blocks -/

theorem covers_badGap {doc : Document} {cs : List Char} (source : doc.source = ⟨cs⟩)
    {headEnd : Position} {opening : Span} (marked : (Passage.whole cs).Marks headEnd)
    (covered : (Passage.whole cs).Covers opening) :
    CoversAll (.whole cs) (badGap doc headEnd opening) := by
  simp only [badGap, source]
  split
  · exact coversAll_nil
  · refine coversAll_singleton ?_
    split
    · exact covered
    next some_ =>
      have gap := covers_gap marked covered.start (by simpa using some_)
      split
      · exact gap
      · exact gap

theorem covers_braceSpacing {doc : Document} {cs : List Char} (source : doc.source = ⟨cs⟩)
    (placed : s.Placed (.whole cs)) : CoversAll (.whole cs) (braceSpacing doc s) := by
  cases s with
  | cssStyleRule r =>
      obtain ⟨-, prelude, opening, found, covered⟩ := (placed : Css.StyleRule.Placed _ r)
      rw [braceSpacing]
      split
      next head i isHead isOpening =>
        have same : i = opening := Option.some.inj (isOpening.symm.trans found)
        rw [same]
        exact covers_badGap source (prelude head isHead).finish covered
      next => exact coversAll_nil
  | cssAtRule r =>
      obtain ⟨name, prelude, -, opening⟩ := (placed : Css.AtRule.Placed _ r)
      rw [braceSpacing]
      split
      next i isOpening =>
        refine covers_badGap source ?_ (opening i isOpening)
        cases head : r.preludeSpan with
        | none => exact name.finish
        | some p => exact (prelude p head).finish
      next => exact coversAll_nil
  | _ => exact coversAll_nil

/-- What opens a rule is in its place. -/
theorem covers_headSpan {item : Css.Item} (placed : item.HeadPlaced g)
    (rule : ∀ block, item ≠ .declarations block) : g.Covers (headSpan item) := by
  cases item with
  | style r =>
      obtain ⟨-, prelude, opening, found, covered⟩ := (placed : Css.StyleRule.Placed _ r)
      cases head : r.prelude with
      | none =>
          rw [headSpan, head, Option.none_or, found]
          exact covered
      | some p =>
          rw [headSpan, head]
          exact prelude p head
  | atRule r => exact Css.AtRule.Placed.name placed
  | declarations block => exact absurd rfl (rule block)
  | comment c => exact (Passage.Shows.covers placed).start.covers_emptyAt

theorem coversAll_crowdedRules {items : List Css.Item} (placed : ∀ item ∈ items, item.HeadPlaced g)
    (previous : Option Css.Item) (lead : Option Position) :
    CoversAll g (crowdedRules previous lead items) := by
  fun_induction crowdedRules previous lead items with
  | case1 => exact coversAll_nil
  | case2 previous lead c rest starts ih => exact ih (List.forall_mem_cons.mp placed).2
  | case3 previous lead block rest ih => exact ih (List.forall_mem_cons.mp placed).2
  | case4 previous lead item rest notComment notBare own ih =>
      rw [List.forall_mem_cons] at placed
      refine CoversAll.append ?_ (ih placed.2)
      simp only [own]
      split
      · exact coversAll_nil
      · split
        · exact coversAll_singleton (covers_headSpan placed.1 notBare)
        · exact coversAll_nil

theorem covers_ruleBlankLine (placed : s.Placed g) : CoversAll g (ruleBlankLine s) := by
  cases s with
  | cssRuleList items parent =>
      rw [ruleBlankLine]
      split
      · exact coversAll_nil
      · exact coversAll_crowdedRules placed none none
  | _ => exact coversAll_nil

end PageLint.Rules
