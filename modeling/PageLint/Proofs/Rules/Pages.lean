/-
# PageLint.Proofs.Rules.Pages — what rules find in pages and in lines lies there

The rules on subjects of pages, those on either language, and those on the source as a
whole. A line's content stands where the line begins (`holds_linesOf`), so what is found at
either end of it is a stretch of the text.
-/
import PageLint.Proofs.Rules.Sheets

namespace PageLint.Rules

set_option autoImplicit false

open Text

variable {g : Passage} {s : Subject} {p : Position} {cs : List Char}

/-! ## Lines -/

theorem head_splitBy_leads {q : Char → Bool} {piece : List Char} {pieces : List (List Char)}
    (parted : splitBy q cs = piece :: pieces) : piece <+: cs := by
  induction cs generalizing piece pieces with
  | nil =>
      rw [splitBy] at parted
      rw [← (List.cons.inj parted).1]
  | cons c cs ih =>
      rw [splitBy] at parted
      split at parted
      · rw [← (List.cons.inj parted).1]
        exact List.nil_prefix
      next first rest _ inner =>
        rw [← (List.cons.inj parted).1]
        exact List.cons_prefix_cons.mpr ⟨rfl, ih inner⟩
      next inner => exact absurd inner (splitBy_ne_nil q cs)

/-- The pieces between line feeds stand where lines begin. -/
theorem holds_splitBy (holds : g.Holds p cs) :
    ∀ line ∈ (splitBy (· == '\n') cs).zip (p :: Source.lineStartsFrom p cs),
      g.Holds line.2 line.1 := by
  induction cs generalizing p with
  | nil =>
      intro line member
      rw [List.mem_singleton.mp member]
      exact holds
  | cons c cs ih =>
      have later := ih holds.tail
      obtain ⟨first, rest, parted⟩ := List.exists_cons_of_ne_nil (splitBy_ne_nil (· == '\n') cs)
      rw [parted] at later
      by_cases feed : c = '\n'
      · simp only [splitBy, feed, parted, Source.lineStartsFrom, beq_self_eq_true, if_true,
          List.zip_cons_cons] at later ⊢
        exact List.forall_mem_cons.mpr ⟨holds.marks, later⟩
      · have other : (c == '\n') = false := beq_eq_false_iff_ne.mpr feed
        simp only [splitBy, other, parted, Source.lineStartsFrom, if_neg feed,
          List.zip_cons_cons] at later ⊢
        refine List.forall_mem_cons.mpr ⟨?_, (List.forall_mem_cons.mp later).2⟩
        exact holds.leading (List.cons_prefix_cons.mpr ⟨rfl, head_splitBy_leads parted⟩)

/-- **Every line is where it begins.** -/
theorem holds_linesOf (cs : List Char) :
    ∀ line ∈ linesOf ⟨cs⟩, (Passage.whole cs).Holds line.start line.content := by
  intro line member
  obtain ⟨⟨⟨number, content⟩, start⟩, paired, rfl⟩ := List.mem_map.mp member
  obtain ⟨i, here⟩ := List.mem_iff_getElem?.mp paired
  obtain ⟨numbered, begins⟩ := List.getElem?_zip_eq_some.mp here
  have content_ : ∃ piece, (Source.pieces ⟨cs⟩)[i]? = some piece ∧ Source.content piece = content := by
    simp only [Source.lines, List.getElem?_mapIdx, Option.map_eq_some_iff, Prod.mk.injEq] at numbered
    obtain ⟨c, held, -, rfl⟩ := numbered
    simp only [Source.lineContents, List.getElem?_map, Option.map_eq_some_iff] at held
    obtain ⟨piece, taken, same⟩ := held
    refine ⟨piece, ?_, same⟩
    rw [List.getElem?_take] at taken
    split at taken
    · exact taken
    · simp at taken
  obtain ⟨piece, isPiece, rfl⟩ := content_
  have both : (piece, start) ∈ (Source.pieces ⟨cs⟩).zip (Source.lineStarts ⟨cs⟩) :=
    List.mem_of_getElem? (List.getElem?_zip_eq_some.mpr ⟨isPiece, begins⟩)
  have stands := holds_splitBy (Passage.holds_origin (.whole cs)) (piece, start) both
  exact stands.leading (getD_stripTail_leads ['\r'] piece)

theorem coversAll_onLines {exempt : List LineRange} {find : Line → Option Finding}
    (each : ∀ line, (Passage.whole cs).Holds line.start line.content →
      ∀ f ∈ find line, (Passage.whole cs).Covers f.span) :
    CoversAll (.whole cs) (onLines exempt ⟨cs⟩ find) := by
  apply coversAll_filterMap
  intro line member f found
  split at found
  · simp at found
  · exact each line (holds_linesOf cs line member) f found

theorem covers_mendIndent {indent : List Char} (holds : g.Holds p indent) :
    ∀ f ∈ mendIndent p indent, g.Covers f.span := by
  intro f found
  simp only [mendIndent] at found
  split at found
  · rw [← Option.some.inj found]
    exact holds.covers
  split at found
  · rw [← Option.some.inj found]
    exact holds.covers
  · simp at found

theorem covers_indentation {doc : Document} (source : doc.source = ⟨cs⟩) :
    CoversAll (.whole cs) (indentation doc) := by
  rw [indentation, source]
  apply coversAll_onLines
  intro line holds f found
  dsimp only at found
  split at found
  · simp at found
  · exact covers_mendIndent (holds.leading <| List.takeWhile_prefix _) f found

theorem covers_trailingWhitespace {doc : Document} (source : doc.source = ⟨cs⟩) :
    CoversAll (.whole cs) (trailingWhitespace doc) := by
  rw [trailingWhitespace, source]
  apply coversAll_onLines
  intro line holds f found
  dsimp only at found
  split at found
  · simp at found
  · rw [← Option.some.inj found]
    obtain ⟨rest, whole⟩ := trimEndBy_leads isSpacing line.content
    generalize trimEndBy isSpacing line.content = kept at whole ⊢
    rw [← whole] at holds ⊢
    rw [List.drop_left]
    exact holds.right.covers

theorem covers_byteOrderMark {doc : Document} (source : doc.source = ⟨cs⟩) :
    CoversAll (.whole cs) (byteOrderMark doc) := by
  rw [byteOrderMark, source]
  split
  next mark =>
    obtain ⟨rest, text⟩ : ∃ rest, cs = '\uFEFF' :: rest := by
      cases cs with
      | nil => simp at mark
      | cons c rest => exact ⟨rest, by rw [← Option.some.inj mark]⟩
    have holds : (Passage.whole cs).Holds .start ([ '\uFEFF'] ++ rest) := by
      have whole := Passage.holds_origin (.whole cs)
      rwa [Passage.whole, text] at whole ⊢
    exact coversAll_singleton holds.left.covers
  next => exact coversAll_nil

/-! ## Words of a text -/

theorem covers_todosIn (holds : g.Holds p cs) (before : Option Char) :
    CoversAll g (todosIn before p cs) := by
  induction cs generalizing before p with
  | nil => exact coversAll_nil
  | cons c cs ih =>
      have later := ih holds.tail (some c)
      simp only [todosIn]
      split
      · exact later
      next after strip =>
        split
        · exact later
        · rw [stripHead_eq_some_iff.mp strip] at holds
          exact List.forall_mem_cons.mpr ⟨holds.left.covers, later⟩

theorem covers_todoFormat (placed : s.Placed g) : CoversAll g (todoFormat s) := by
  cases s with
  | htmlComment c => exact covers_todosIn (Passage.Shows.holds placed) none
  | cssComment c => exact covers_todosIn (Passage.Shows.holds placed) none
  | _ => exact coversAll_nil

theorem covers_references (holds : g.Holds p cs) : ∀ r ∈ references p cs, g.Covers r.2.2 := by
  induction cs generalizing p with
  | nil => simp [references]
  | cons c cs ih =>
      have later := ih holds.tail
      simp only [references]
      split
      · split
        next r n named =>
          refine List.forall_mem_cons.mpr ⟨?_, later⟩
          refine (holds.leading ?_).covers
          exact List.cons_prefix_cons.mpr ⟨rfl, List.take_prefix _ _⟩
        next => exact later
      · exact later

theorem judgeReference_span {r : Referent} {text : List Char} {span : Span} {f : Finding}
    (judged : judgeReference r text span = some f) : f.span = span := by
  rw [judgeReference.eq_def] at judged
  dsimp only at judged
  split at judged
  next name =>
    split at judged
    · simp at judged
    · rw [← Option.some.inj judged]
      cases namedCharacters.lookup name <;> rfl
  next code =>
    obtain ⟨c, -, rfl⟩ := Option.map_eq_some_iff.mp judged
    rfl

theorem covers_referencesIn (holds : g.Holds p cs) : CoversAll g (referencesIn p cs) := by
  apply coversAll_filterMap
  intro r member f found
  have covered := covers_references holds r member
  rwa [judgeReference_span found]

theorem covers_entityReferences (placed : s.Placed g) : CoversAll g (entityReferences s) := by
  cases s with
  | htmlText t =>
      rw [entityReferences]
      split
      · exact coversAll_nil
      · exact covers_referencesIn (Passage.Shows.holds placed)
  | htmlElement e ancestors =>
      apply coversAll_flatMap
      intro a member
      split
      next value span isValue isSpan =>
        have own := (Html.Element.Placed.tag placed).attributes a member
        exact covers_referencesIn (own.inner value isValue span isSpan).holds
      next => exact coversAll_nil
  | _ => exact coversAll_nil

/-! ## Elements -/

theorem covers_protocolRelativeUrl (placed : s.Placed g) :
    CoversAll g (protocolRelativeUrl s) := by
  cases s with
  | htmlElement e ancestors =>
      apply coversAll_flatMap
      intro a member
      split
      next value span isValue isSpan =>
        have own := (Html.Element.Placed.tag placed).attributes a (List.mem_of_mem_filter member)
        exact coversAll_schemed (own.inner value isValue span isSpan).covers
      next => exact coversAll_nil
  | cssDeclaration d =>
      have tokens := Css.Declaration.Placed.tokens placed
      exact coversAll_flatMap fun url member =>
        coversAll_schemed (covers_urlArguments tokens url member)
  | cssAtRule r =>
      have tokens := Css.AtRule.Placed.tokens placed
      rw [protocolRelativeUrl]
      split
      · refine coversAll_flatMap fun url member => coversAll_schemed ?_
        rcases List.mem_append.mp member with member | member
        · exact covers_urlArguments tokens url member
        · obtain ⟨t, first, rfl⟩ := Option.map_eq_some_iff.mp (Option.mem_toList.mp member)
          have found := List.mem_of_find?_eq_some (Option.filter_eq_some_iff.mp first).1
          exact covers_stringValue (tokens.shows t found)
      · exact coversAll_nil
  | _ => exact coversAll_nil

theorem covers_lowercaseNames (doc : Document) (placed : s.Placed g) :
    CoversAll g (lowercaseNames doc s) := by
  cases s with
  | htmlElement e ancestors =>
      have tag := Html.Element.Placed.tag placed
      rw [lowercaseNames]
      split
      · exact coversAll_nil
      · refine CoversAll.append (coversAll_capitals tag.name) ?_
        exact coversAll_flatMap fun a member => coversAll_capitals (tag.attributes a member).name
  | cssStyleRule r =>
      exact coversAll_flatMap fun selector member => coversAll_capitalsInSelector
        ((Css.StyleRule.Placed.selectors placed).each selector member).tokens false false
  | cssAtRule r =>
      exact (coversAll_capitals (Css.AtRule.Placed.name placed)).append
        (coversAll_capitalsInValue (Css.AtRule.Placed.tokens placed))
  | cssDeclaration d =>
      obtain ⟨property, -, -, tokens, important, -⟩ := (placed : Css.Declaration.Placed g d)
      rw [lowercaseNames]
      split
      · exact coversAll_nil
      · refine ((coversAll_capitals property).append ?_).append ?_
        · split
          · exact coversAll_nil
          · exact coversAll_capitalsInValue tokens
        · cases marked : d.important with
          | none => exact coversAll_nil
          | some i => exact coversAll_capitals (important i marked)
  | _ => exact coversAll_nil

theorem covers_doctypeHtml5 (placed : s.Placed g) : CoversAll g (doctypeHtml5 s) := by
  cases s with
  | htmlDoctype d =>
      simp only [doctypeHtml5]
      split
      · exact coversAll_nil
      · exact coversAll_singleton (Passage.Shows.covers placed)
  | _ => exact coversAll_nil

theorem covers_voidElementSelfClose (placed : s.Placed g) :
    CoversAll g (voidElementSelfClose s) := by
  cases s with
  | htmlElement e ancestors =>
      rw [voidElementSelfClose]
      split
      next finish ends =>
        split
        · exact coversAll_singleton ((Html.Element.Placed.tag placed).finish finish ends)
        · exact coversAll_nil
      next => exact coversAll_nil
  | _ => exact coversAll_nil

theorem covers_altAttribute (placed : s.Placed g) : CoversAll g (altAttribute s) := by
  cases s with
  | htmlElement e ancestors =>
      rw [altAttribute]
      split
      · exact coversAll_singleton (Html.Element.Placed.tag placed).span
      · exact coversAll_nil
  | _ => exact coversAll_nil

theorem covers_doubleQuotes (placed : s.Placed g) : CoversAll g (doubleQuotes s) := by
  cases s with
  | htmlElement e ancestors =>
      apply coversAll_flatMap
      intro a member
      have own := (Html.Element.Placed.tag placed).attributes a (List.mem_of_mem_filter member)
      split
      next value span _ isSpan =>
        refine coversAll_singleton ?_
        split
        · exact own.value span isSpan
        · exact own.value span isSpan
      next => exact coversAll_nil
  | _ => exact coversAll_nil

theorem covers_optionalTags (placed : s.Placed g) : CoversAll g (optionalTags s) := by
  cases s with
  | htmlElement e ancestors =>
      rw [optionalTags]
      apply CoversAll.append
      · split
        · exact coversAll_singleton (Html.Element.Placed.tag placed).span
        · exact coversAll_nil
      · split
        next span ends =>
          split
          · exact coversAll_singleton (Html.Element.Placed.endTag placed span ends)
          · exact coversAll_nil
        next => exact coversAll_nil
  | _ => exact coversAll_nil

theorem attribute?_mem {tag : Html.StartTag} {name : List Char} {a : Html.Attribute}
    (found : tag.attribute? name = some a) : a ∈ tag.attributes :=
  List.mem_of_find?_eq_some found

theorem covers_typeAttribute (placed : s.Placed g) : CoversAll g (typeAttribute s) := by
  cases s with
  | htmlElement e ancestors =>
      rw [typeAttribute]
      split
      next a found =>
        split
        · exact coversAll_singleton
            ((Html.Element.Placed.tag placed).attributes a (attribute?_mem found)).span
        · exact coversAll_nil
      next => exact coversAll_nil
  | _ => exact coversAll_nil

theorem covers_metaCharset (placed : s.Placed g) : CoversAll g (metaCharset s) := by
  cases s with
  | htmlElement e ancestors =>
      simp only [metaCharset]
      split
      · exact coversAll_nil
      split
      next => exact coversAll_singleton (Html.Element.Placed.tag placed).span
      next a found =>
        split
        · exact coversAll_nil
        · obtain ⟨child, isChild, named⟩ := List.exists_of_findSome?_eq_some found
          have tag := Html.Element.Placed.children placed child (List.mem_of_mem_filter isChild)
          exact coversAll_singleton (tag.attributes a (attribute?_mem named)).span
  | _ => exact coversAll_nil

end PageLint.Rules
