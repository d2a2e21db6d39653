/-
# PageLint.Proofs.Lint.Dereferenced — characters for references to them

The rule on references offers to write a character as itself, if it does not mean anything in markup by
itself. It does not ask what stands in front of it: a `<` that is text, since `&` follows it, begins a
tag once a letter does (`Document.reference_opens_tag`). Where the text in front does not go on to
markup with the character (`Completes`), the text stays one text, in the content of an element as well
as in a title, and the page stays as it is but for this text (`Document.dereferenced`).
-/
import PageLint.Proofs.Html.Revision
import PageLint.Proofs.Html.Walk
import PageLint.Proofs.Lint.Runs

namespace PageLint

set_option autoImplicit false

open Text

/-! ## References in a text -/

namespace Rules

variable {p : Position} {cs ref : List Char} {r : Referent} {span : Span} {f : Finding} {fix : Fix}

/-- A reference is a part of the text, and lies where it stands. -/
theorem mem_references (member : (r, ref, span) ∈ references p cs) : ∃ front back,
    cs = front ++ (ref ++ back) ∧ ref.head? = some '&' ∧ span = .covering (p.after front) ref := by
  induction cs generalizing p with
  | nil => cases member
  | cons c cs ih =>
      have later : (r, ref, span) ∈ references (p.next c) cs → ∃ front back,
          c :: cs = front ++ (ref ++ back) ∧ ref.head? = some '&' ∧
            span = .covering (p.after front) ref := by
        intro inside
        obtain ⟨front, back, whole, sign, place⟩ := ih inside
        exact ⟨c :: front, back, by rw [whole]; rfl, sign, place⟩
      simp only [references] at member
      split at member
      next sign =>
        split at member
        next named n found =>
          rcases List.mem_cons.mp member with here | inside
          · obtain ⟨rfl, rfl, rfl⟩ := by simpa using here
            refine ⟨[], cs.drop n, ?_, congrArg some sign, rfl⟩
            rw [List.nil_append, List.cons_append, List.take_append_drop]
          · exact later inside
        next => exact later member
      next => exact later member

/-- A fix writes one character, and one that need not be written by a reference. -/
theorem fix_judgeReference (judged : judgeReference r ref span = some f)
    (fixed : f.fix = some fix) :
    f.span = span ∧ ∃ c, needsReference c = false ∧ fix.replacement.toList = [c] := by
  have plain : ∀ named ∈ namedCharacters, needsReference named.2 = false := by decide +kernel
  cases r with
  | name name =>
      simp only [judgeReference] at judged
      split at judged
      · cases judged
      · obtain rfl := Option.some.inj judged
        cases known : namedCharacters.lookup name with
        | none =>
            rw [known] at fixed
            cases fixed
        | some c =>
            rw [known] at fixed
            cases fixed
            obtain ⟨before, after, table, -⟩ := List.lookup_eq_some_iff.mp known
            exact ⟨rfl, c, plain (name, c) (by simp [table]), String.toList_ofList⟩
  | code code =>
      simp only [judgeReference] at judged
      obtain ⟨c, found, rfl⟩ := Option.map_eq_some_iff.mp judged
      cases fixed
      refine ⟨rfl, c, ?_, String.toList_ofList⟩
      simpa using (Option.filter_eq_some_iff.mp found).2

end Rules

namespace Html

/-! ## A text in which a character is written -/

/-- Behind a text that ends so, the character goes on to markup: to a tag, a comment or a declaration
behind a `<`, and to an end tag behind `</` and letters. -/
inductive Completes (front : List Char) (c : Char) : Prop
  | opening : front.getLast? = some '<' → c.isAlpha ∨ c ∈ ['/', '!', '?'] → Completes front c
  | closing {word : List Char} : '<' :: '/' :: word <:+ front → (∀ d ∈ word, d.isAlpha) →
    c.isAlpha ∨ c = '/' → Completes front c

variable {front back rest ref : List Char} {c d : Char} {name tail more : List Char} {mode next : Mode}

/-- What ends a text is what ends its last part, or goes on from a part in front. -/
theorem suffix_around {s : List Char} (ends : s <:+ front ++ c :: back) :
    s <:+ back ∨ ∃ lead, lead <:+ front ∧ s = lead ++ c :: back := by
  obtain ⟨passed, whole⟩ := ends
  rcases List.append_eq_append_iff.mp whole with ⟨lead, same, here⟩ | ⟨later, rfl, same⟩
  · exact .inr ⟨lead, ⟨passed, same.symm⟩, here⟩
  · cases later with
    | nil => exact .inr ⟨[], List.nil_suffix, by simpa using same.symm⟩
    | cons first later => exact .inl ⟨later, (List.cons.inj same).2.symm⟩

/-- A text between tags goes on where a character takes the place of a reference. -/
theorem startsMarkup_written (sign : c ≠ '<') (open_ : ¬ Completes front c)
    (goes : ∀ s, s <:+ front ++ (ref ++ back) → s ≠ [] → startsMarkup (s ++ rest) = false) :
    ∀ s, s <:+ front ++ c :: back → s ≠ [] → startsMarkup (s ++ rest) = false := by
  intro s ends some_
  rcases suffix_around ends with later | ⟨lead, part, rfl⟩
  · exact goes s (later.trans ((List.suffix_append ref back).trans (List.suffix_append _ _))) some_
  · match lead with
    | [] => exact startsMarkup_eq_false_of_ne sign _
    | [d] =>
        by_cases first : d = '<'
        · subst first
          have last : front.getLast? = some '<' := by
            obtain ⟨passed, rfl⟩ := part
            simp
          have plain : ¬ (c.isAlpha ∨ c ∈ ['/', '!', '?']) := fun goesOn => open_ (.opening last goesOn)
          simp only [List.mem_cons, List.not_mem_nil, or_false, not_or] at plain
          simp [startsMarkup, plain]
        · exact startsMarkup_eq_false_of_ne first _
    | d :: e :: lead =>
        have known := goes (d :: e :: lead ++ (ref ++ back))
          (by
            obtain ⟨passed, rfl⟩ := part
            exact ⟨passed, by simp⟩)
          (List.cons_ne_nil _ _)
        by_cases first : d = '<'
        · subst first
          exact known
        · exact startsMarkup_eq_false_of_ne first _

/-- Text that is no markup goes on where a character takes the place of a reference. -/
theorem endsRaw_written (letters : ∀ d ∈ name, d.isAlpha) (sign : c ≠ '<')
    (blank : isBlank c = false) (close : c ≠ '>') (open_ : ¬ Completes front c)
    (goes : ∀ s, s <:+ front ++ (ref ++ back) → s ≠ [] → endsRaw name (s ++ rest) = false) :
    ∀ s, s <:+ front ++ c :: back → s ≠ [] → endsRaw name (s ++ rest) = false := by
  intro s ends some_
  rcases suffix_around ends with later | ⟨lead, part, rfl⟩
  · exact goes s (later.trans ((List.suffix_append ref back).trans (List.suffix_append _ _))) some_
  rw [Bool.eq_false_iff]
  intro ends
  obtain ⟨word, after, whole, spelled, isWord, stop⟩ := endsRaw_spec ends letters
  rw [List.append_assoc, List.cons_append] at whole
  match lead with
  | [] => exact sign (List.cons.inj whole).1
  | [d] =>
      obtain ⟨rfl, left⟩ := List.cons.inj whole
      have last : front.getLast? = some '<' := by
        obtain ⟨passed, rfl⟩ := part
        simp
      exact open_ (.opening last (.inr (by simp [(List.cons.inj left).1])))
  | d :: e :: lead =>
      obtain ⟨rfl, left⟩ := List.cons.inj whole
      obtain ⟨rfl, inner⟩ := List.cons.inj left
      -- The name in the end tag ends before the character, with it or behind it.
      rcases List.append_eq_append_iff.mp inner with ⟨longer, rfl, after_⟩ | ⟨longer, rfl, rfl⟩
      · have letters' : ∀ f ∈ lead, f.isAlpha :=
          fun f member => isWord f (List.mem_append_left _ member)
        cases longer with
        | nil =>
            rw [List.nil_append] at after_
            have stops := stop c (by rw [← after_]; rfl)
            simp only [blank, beq_iff_eq, close, Bool.false_or, Bool.or_eq_true, or_false] at stops
            exact open_ (.closing part letters' (.inr stops))
        | cons f longer =>
            obtain ⟨rfl, -⟩ := List.cons.inj after_
            exact open_ (.closing part letters' (.inl (isWord c (by simp))))
      · cases longer with
        | nil =>
            have stops := stop c rfl
            simp only [blank, beq_iff_eq, close, Bool.false_or, Bool.or_eq_true, or_false] at stops
            exact open_ (.closing part (by simpa using isWord) (.inr stops))
        | cons f longer =>
            have known := endsRaw_of spelled (stop f rfl) (longer ++ (ref ++ back ++ rest))
            have whole := goes ('<' :: '/' :: (word ++ f :: longer) ++ (ref ++ back))
              (by
                obtain ⟨passed, rfl⟩ := part
                exact ⟨passed, by simp⟩)
              (List.cons_ne_nil _ _)
            have shape : '<' :: '/' :: word ++ f :: (longer ++ (ref ++ back ++ rest)) =
                '<' :: '/' :: (word ++ f :: longer) ++ (ref ++ back) ++ rest := by simp
            rw [← shape, known] at whole
            cases whole

/-- The character is read as if it stood between tags. -/
def Mode.ReadsContent : Mode → Char → Prop
  | .head, c => c ≠ '\uFEFF'
  | .content, _ => True
  | .tag _, c => c = '<'
  | .raw _ _, _ => False

/-- How a text is cut off: between tags, up to markup, or as what is no markup, up to its end tag. -/
inductive TextCut (rest : List Char) (c : Char) (tail : List Char) : Mode → Prop
  | plain {mode : Mode} : mode.ReadsContent c →
    (∀ s, s <:+ c :: tail → s ≠ [] → startsMarkup (s ++ rest) = false) → AtMarkup rest →
    TextCut rest c tail mode
  | raw (name : List Char) :
    (∀ s, s <:+ c :: tail → s ≠ [] → endsRaw name (s ++ rest) = false) →
    (rest = [] ∨ endsRaw name rest) → TextCut rest c tail (.raw name .text)

theorem scan_readsContent (reads : mode.ReadsContent c) (rest : List Char) :
    scan mode c rest = scanContent c rest := by
  cases mode with
  | head => exact if_neg reads
  | content => rfl
  | tag name => exact if_pos reads
  | raw name kind => exact reads.elim

theorem textCut_content (reads : mode.ReadsContent c)
    (scanned : scanContent c (tail ++ rest) = ⟨.text, tail.length, next⟩) :
    TextCut rest c tail mode ∧ next = .content := by
  have plain : startsMarkup (c :: (tail ++ rest)) = false := by
    by_contra markup
    have other := scanContent_ne_text (by simpa using markup)
    rw [scanned] at other
    exact other rfl
  rw [scanContent_text plain] at scanned
  obtain ⟨-, length, rfl⟩ := Scan.mk.inj scanned
  obtain ⟨goes, stops⟩ := extentUntil_eq_length length
  refine ⟨.plain reads (fun s ends some_ => ?_) stops, rfl⟩
  rcases List.suffix_cons_iff.mp ends with rfl | inside
  · exact plain
  · exact goes s inside some_

theorem startsMarkup_of_endsRaw {cs : List Char} (known : name ∈ unparsedElements)
    (ends : endsRaw name cs) : startsMarkup cs := by
  obtain ⟨word, after, rfl, -⟩ := endsRaw_spec ends (letters_of_unparsed known).1
  rfl

/-- **A text is cut off in one of these ways.** -/
theorem textCut_of_scan (proper : mode.Proper)
    (scanned : scan mode c (tail ++ rest) = ⟨.text, tail.length, next⟩) :
    TextCut rest c tail mode ∧ next = .content := by
  cases mode with
  | head =>
      rw [scan] at scanned
      split at scanned
      · cases scanned
      next other => exact textCut_content other scanned
  | content => exact textCut_content trivial scanned
  | tag name =>
      rw [scan] at scanned
      split at scanned
      next opens => exact textCut_content opens scanned
      next =>
        have parts := scanTag_parts name c (tail ++ rest)
        rw [scanned] at parts
        simp at parts
  | raw name kind =>
      by_cases ends : endsRaw name (c :: (tail ++ rest))
      · rw [scan_raw_ends ends] at scanned
        have other := scanContent_ne_text (startsMarkup_of_endsRaw proper.1 ends)
        rw [scanned] at other
        exact absurd rfl other
      · obtain ⟨rfl, rfl, length⟩ := scan_raw_goes (by simpa using ends) scanned
        obtain ⟨goes, stops⟩ := extentUntil_eq_length length
        exact ⟨.raw name goes stops, rfl⟩

theorem TextCut.scan (cut : TextCut rest c tail mode) :
    Html.scan mode c (tail ++ rest) = ⟨.text, tail.length, .content⟩ := by
  cases cut with
  | plain reads goes stops =>
      have plain := goes (c :: tail) (List.suffix_refl _) (List.cons_ne_nil _ _)
      have length : extentUntil startsMarkup (tail ++ rest) = tail.length := extentUntil_append
        (fun s ends some_ => goes s (ends.trans (List.suffix_cons c tail)) some_) stops
      rw [scan_readsContent reads, ← length]
      exact scanContent_text plain
  | raw name goes stops =>
      have length : extentUntil (endsRaw name) (c :: tail ++ rest) = (c :: tail).length :=
        extentUntil_append goes stops
      rw [List.cons_append] at length
      rw [Html.scan, length]
      rfl

/-- What stands in front of a text sees no difference between texts that begin alike, or not with a
`<`. -/
theorem TextCut.alike (cut : TextCut rest c tail mode) (begins : c = '<' → d = '<') (z : List Char) :
    mode.Alike (c :: tail ++ rest) (d :: z) := by
  cases cut with
  | plain reads goes stops =>
      have plain := goes (c :: tail) (List.suffix_refl _) (List.cons_ne_nil _ _)
      cases mode with
      | head => trivial
      | content =>
          refine ⟨List.cons_ne_nil _ _, fun markup => ?_, fun first => ?_, fun name known ends => ?_⟩
          · rw [plain] at markup
            cases markup
          · rintro e ⟨⟩
            exact begins (Option.some.inj first)
          · rw [startsMarkup_of_endsRaw known ends] at plain
            cases plain
      | tag name =>
          obtain rfl : c = '<' := reads
          obtain rfl := begins rfl
          exact ⟨List.cons_ne_nil _ _, rfl, fun _ => rfl⟩
      | raw name kind => exact reads.elim
  | raw name goes stops => exact List.cons_ne_nil _ _

/-- **A character takes the place of a reference**: the text is still one, if its part in front does
not go on to markup with the character. -/
theorem TextCut.written (cut : TextCut rest c tail mode) (proper : mode.Proper) {ch : Char}
    (plain : Rules.needsReference ch = false) (open_ : ¬ Completes front ch)
    (sign : ref.head? = some '&') (old : c :: tail = front ++ (ref ++ back))
    (new : d :: more = front ++ ch :: back) :
    TextCut rest d more mode ∧ (c = '<' → d = '<') := by
  simp only [Rules.needsReference, Bool.or_eq_false_iff, beq_eq_false_iff_ne] at plain
  obtain ⟨⟨⟨⟨⟨⟨⟨⟨⟨⟨-, noOpen⟩, noClose⟩, -⟩, -⟩, solid⟩, -⟩, -⟩, -⟩, -⟩, noMark⟩ := plain
  -- The text begins as before, unless the reference begins it.
  have begins : c = d ∨ c = '&' ∧ d = ch := by
    cases front with
    | nil =>
        obtain ⟨ref, rfl⟩ := List.head?_eq_some_iff.mp sign
        exact .inr ⟨(List.cons.inj old).1, (List.cons.inj new).1⟩
    | cons first front => exact .inl ((List.cons.inj old).1.trans (List.cons.inj new).1.symm)
  refine ⟨?_, fun opens => ?_⟩
  · cases cut with
    | plain reads goes stops =>
        rw [old] at goes
        refine .plain ?_ (new ▸ startsMarkup_written noOpen open_ goes) stops
        rcases begins with rfl | ⟨rfl, rfl⟩
        · exact reads
        · cases mode with
          | head => exact noMark
          | content => trivial
          | tag name => cases reads
          | raw name kind => exact reads
    | raw name goes stops =>
        rw [old] at goes
        have letters := (letters_of_unparsed proper.1).1
        exact .raw name (new ▸ endsRaw_written letters noOpen solid noClose open_ goes) stops
  · rcases begins with rfl | ⟨rfl, -⟩
    · exact opens
    · cases opens

/-- **A character for a reference**: the token of a text may be written anew with the character, if the
text in front does not go on to markup with it. -/
theorem exists_retexting {cs : List Char} {t : Token TokenKind} {ch : Char}
    (member : t ∈ tokenize cs) (text : t.kind = .text) (said : t.text = front ++ (ref ++ back))
    (sign : ref.head? = some '&') (plain : Rules.needsReference ch = false)
    (open_ : ¬ Completes front ch) :
    ∃ (e : Edit) (r : Revision e), e.old = cs ∧
      e.span = .covering (t.span.start.after front) ref ∧ e.put = [ch] ∧ r.token = t ∧
      r.written = front ++ ch :: back := by
  obtain ⟨pieces, x, c, tail, rest, mode, next, own, span, whole, proper, cuts, scanned⟩ :=
    token_cut member
  rw [text] at scanned
  obtain ⟨cut, rfl⟩ := textCut_of_scan proper scanned
  have some_ : ref ≠ [] := by
    rintro rfl
    cases sign
  have old : c :: tail = front ++ (ref ++ back) := own.symm.trans said
  obtain ⟨d, more, new⟩ : ∃ d more, d :: more = front ++ ([ch] ++ back) := by
    cases front with
    | nil => exact ⟨ch, back, rfl⟩
    | cons first front => exact ⟨first, front ++ ([ch] ++ back), rfl⟩
  obtain ⟨cut', begins⟩ := cut.written proper plain open_ sign old new
  obtain ⟨r, token, left, right⟩ :=
    exists_revision cuts scanned old new cut'.scan (cut.alike begins (more ++ rest)) some_
  have start : t.span.start = Position.start.after x := congrArg Span.start span
  refine ⟨_, r, ?_, ?_, rfl, ?_, ?_⟩
  · rw [whole, old]
    simp [Edit.old]
  · rw [start, ← Position.after_append]
    rfl
  · rw [token, ← text, ← span, ← own]
  · rw [Revision.written, left, right]
    rfl

end Html

/-! ## The rule -/

theorem StyleGuide.entityReferences_of_id : ∀ r ∈ rules, r.id = "entity-references" →
    r.check = reading Rules.entityReferences := by
  simp [rules, sharedRules, htmlRules, cssRules]

/-- **A character for a reference changes only the text**, where it does not mean anything in markup
behind what stands in front of it. If the rule on references tells of a reference in a text with a fix,
the fix is one character that means nothing by itself. With the fix put in its place, the page has the
same tokens, moved along, but for this text, which has the character; it has the same tree, and the same
is wrong with it. -/
theorem Document.dereferenced {r : Rule} (isRule : r ∈ StyleGuide.rules)
    (named : r.id = "entity-references") (c : Checker) (file : Path) {cs : List Char}
    {u : Html.TextNode} (visited : .htmlText u ∈ (Document.ofText .html cs).subjects)
    {d : Diagnostic} (told : d ∈ r.found (c.severityOf r) file (.ofText .html cs) (.htmlText u))
    {fix : Fix} (fixed : d.fix = some fix) :
    let old := Html.Page.ofText cs
    let new := Html.Page.ofText (Source.splice ⟨cs⟩ d.span fix.replacement.toList)
    d ∈ (c.runRule file (.ofText .html cs) r).diagnostics ∧
      ∃ front ref back ch, u.text = front ++ (ref ++ back) ∧ ref.head? = some '&' ∧
        d.span = .covering (u.span.start.after front) ref ∧
        fix.replacement.toList = [ch] ∧ Rules.needsReference ch = false ∧
        (¬ Html.Completes front ch → ∃ e : Edit, e.old = cs ∧ e.span = d.span ∧ e.put = [ch] ∧
          let f := Html.Carry.retexting e u.span (front ++ ch :: back)
          new.tokens = old.tokens.map f.token ∧ new.nodes = f.nodes old.nodes ∧
            new.issues = f.issues old.issues) := by
  intro old new
  have check := StyleGuide.entityReferences_of_id r isRule named
  have answer : ∀ s, r.check (.ofText .html cs) s = .ok (Rules.entityReferences s) := by
    intro s
    rw [check]
    rfl
  obtain ⟨findings, answered, found, isFound, rfl⟩ := Rule.mem_found told
  rw [answer] at answered
  obtain rfl := Except.ok.inj answered
  rw [Rules.entityReferences] at isFound
  split at isFound
  · cases isFound
  next markup =>
    obtain ⟨⟨referent, ref, span⟩, inText, judged⟩ := List.mem_filterMap.mp isFound
    obtain ⟨front, back, said, sign, rfl⟩ := Rules.mem_references inText
    obtain ⟨place, ch, plain, replacement⟩ := Rules.fix_judgeReference judged fixed
    obtain ⟨t, member, kind, text, span⟩ := Html.Page.token_of_text visited
    rw [if_neg markup] at kind
    refine ⟨?_, front, ref, back, ch, said, sign, place, replacement, plain, fun open_ => ?_⟩
    · rw [Checker.runRule, Rule.diagnostics_runOver fun s _ => ⟨_, answer s⟩]
      exact List.mem_flatMap.mpr ⟨_, List.mem_cons_of_mem _ visited, told⟩
    · obtain ⟨e, rev, rfl, spanned, put, rfl, written⟩ :=
        Html.exists_retexting member kind (text ▸ said) sign plain open_
      rw [span] at place ⊢
      have newText : Source.splice ⟨e.old⟩ found.span fix.replacement.toList = e.new := by
        rw [place, replacement, ← put, ← spanned, Source.splice_span]
      refine ⟨e, rfl, spanned.trans place.symm, put, ?_⟩
      have follows := Html.Carry.follows_retexting e rev.token.span rev.written
      have page := rev.page follows (.inl kind)
      rw [written, ← newText] at page
      exact page

/-- The only text of a page is handed to the rules. -/
theorem Document.subject_of_texts {cs : List Char} {u : Html.TextNode}
    (texts : (Html.preorderIn (Html.Page.ofText cs).nodes).filterMap Html.Node.text? = [u]) :
    .htmlText u ∈ (Document.ofText .html cs).subjects := by
  rw [← Html.texts_nodesSubjects []] at texts
  have member : u ∈ (Document.ofText .html cs).subjects.filterMap Subject.htmlText? :=
    texts ▸ List.mem_singleton_self u
  obtain ⟨s, visited, own⟩ := List.mem_filterMap.mp member
  cases s with
  | htmlText t =>
      obtain rfl : t = u := Option.some.inj own
      exact visited
  | _ => cases own

/-- A sign that does not go on to markup behind a `<`. -/
theorem Document.dereferenced_sign :
    let text := "<p>1 <&#61; 2".toList
    ∃ r ∈ StyleGuide.rules, r.id = "entity-references" ∧
      ∃ d ∈ (Checker.runRule {} ⟨"a.html"⟩ (.ofText .html text) r).diagnostics,
        ∃ fix, d.fix = some fix ∧
          Source.splice ⟨text⟩ d.span fix.replacement.toList = "<p>1 <= 2".toList ∧
          (Html.Page.ofText "<p>1 <= 2".toList).tokens.map Token.kind =
            (Html.Page.ofText text).tokens.map Token.kind := by
  intro text
  let r := StyleGuide.htmlRules[6]
  have isRule : r ∈ StyleGuide.rules :=
    List.mem_append_left _ (List.mem_append_right _ (List.getElem_mem _))
  let u : Html.TextNode := ⟨"1 <&#61; 2".toList, false, ⟨⟨3, 1, 4⟩, ⟨13, 1, 14⟩⟩⟩
  have texts : (Html.preorderIn (Html.Page.ofText text).nodes).filterMap Html.Node.text? = [u] := by
    decide +kernel
  let d := r.diagnostic (Checker.severityOf {} r) ⟨"a.html"⟩
    ((Finding.filled ⟨⟨6, 1, 7⟩, ⟨11, 1, 12⟩⟩ [("entity", "&#61;".toList)]).suggest
      "Use the character" ['='])
  have told : d ∈ r.found (Checker.severityOf {} r) ⟨"a.html"⟩ (.ofText .html text)
      (.htmlText u) := by
    have found : r.found (Checker.severityOf {} r) ⟨"a.html"⟩ (.ofText .html text)
      (.htmlText u) = [d] := rfl
    rw [found]
    exact List.mem_singleton_self d
  have spliced : Source.splice ⟨text⟩ d.span (String.ofList ['=']).toList = "<p>1 <= 2".toList := by
    decide +kernel
  obtain ⟨shown, front, ref, back, ch, -, -, -, replacement, -, page⟩ :=
    Document.dereferenced isRule rfl {} ⟨"a.html"⟩ (subject_of_texts texts) told rfl
  obtain rfl : '=' = ch := List.singleton_inj.mp (String.toList_ofList.symm.trans replacement)
  have open_ : ¬ Html.Completes front '=' := by
    rintro (⟨-, goesOn⟩ | ⟨-, -, goesOn⟩)
    · exact absurd goesOn (by decide)
    · exact absurd goesOn (by decide)
  obtain ⟨e, -, -, -, tokens, -⟩ := page open_
  refine ⟨r, isRule, rfl, d, shown, _, rfl, spliced, ?_⟩
  rw [← spliced, tokens, List.map_map]
  rfl

/-- **A character may begin markup where its reference did not**: the rule tells of a letter behind a `<`
that is text, and offers a fix that makes a start tag of both. -/
theorem Document.reference_opens_tag :
    let text := "<&#97;>".toList
    ∃ u, .htmlText u ∈ (Document.ofText .html text).subjects ∧
      ∃ r ∈ StyleGuide.rules, r.id = "entity-references" ∧
        ∃ d ∈ r.found (Checker.severityOf {} r) ⟨"a.html"⟩ (.ofText .html text) (.htmlText u),
          ∃ fix, d.fix = some fix ∧
            Source.splice ⟨text⟩ d.span fix.replacement.toList = "<a>".toList ∧
            (Html.Page.ofText text).tokens.map Token.kind = [.text] ∧
            (Html.Page.ofText "<a>".toList).tokens.map Token.kind = [.tagOpen, .tagEnd] := by
  intro text
  let r := StyleGuide.htmlRules[6]
  have isRule : r ∈ StyleGuide.rules :=
    List.mem_append_left _ (List.mem_append_right _ (List.getElem_mem _))
  let u : Html.TextNode := ⟨text, false, ⟨⟨0, 1, 1⟩, ⟨7, 1, 8⟩⟩⟩
  have texts : (Html.preorderIn (Html.Page.ofText text).nodes).filterMap Html.Node.text? = [u] := by
    decide +kernel
  let d := r.diagnostic (Checker.severityOf {} r) ⟨"a.html"⟩
    ((Finding.filled ⟨⟨1, 1, 2⟩, ⟨6, 1, 7⟩⟩ [("entity", "&#97;".toList)]).suggest
      "Use the character" ['a'])
  have found : r.found (Checker.severityOf {} r) ⟨"a.html"⟩ (.ofText .html text)
    (.htmlText u) = [d] := rfl
  refine ⟨u, subject_of_texts texts, r, isRule, rfl, d, ?_, ⟨_, rfl, ?_, ?_, ?_⟩⟩
  · rw [found]
    exact List.mem_singleton_self d
  all_goals decide +kernel

end PageLint
