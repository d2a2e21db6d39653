/-
# PageLint.Proofs.Lint.Requoted — double quotes for single ones

The rule on quotes offers to write the value of an attribute in double quotes. The new attribute ends
where the old one did, whatever the value holds: the lexer looks for the quote that the value begins
with, and the value does not hold the other one (`exists_requoting`). A value that lacks its closing
quote goes on to the end of the text, so that nothing stands behind it that could be read otherwise.
So the page stays as it is but for how the one attribute is quoted, and the rule tells of the others
as before (`Document.requoted`).
-/
import PageLint.Proofs.Html.Revision
import PageLint.Proofs.Html.Walk
import PageLint.Proofs.Lint.Runs

namespace PageLint

set_option autoImplicit false

open Text

namespace Html

/-! ## An attribute written anew -/

variable {c : Char} {name gap margin v : List Char}

/-- The page after a value was put in double quotes: places move as the edit says, and the attribute
whose value is edited has double quotes, the second of which may have been lacking. -/
def Carry.requoting (e : Edit) (spot : Span) (text : List Char) : Carry where
  place := e.move
  content s old := if s = spot then text else old
  quote a := if a.valueSpan = some e.span then .double else a.quote
  mends s := s == e.span

theorem Carry.follows_requoting (e : Edit) (spot : Span) (text : List Char) :
    (Carry.requoting e spot text).Follows e spot text where
  place := rfl
  content _ _ := rfl
  quote _ other := if_neg other
  mends _ other := beq_eq_false_iff_ne.mpr other

/-- A start tag does not go on with an assignment where a name comes next. -/
theorem assignmentExtent_letter (letter : endsAttributeName c = false) (rest : List Char) :
    assignmentExtent (c :: rest) = 0 := by
  obtain ⟨notTag, noSign, -⟩ := endsAttributeName_eq_false_iff.mp letter
  have solid := (endsTagName_eq_false_iff.mp notTag).1
  rw [assignmentExtent_eq_zero_iff, List.dropWhile_cons_of_neg (by simp [solid])]
  exact fun same => noSign (Option.some.inj same)

variable {cs : List Char} {t : Token TokenKind}

/-- What is read off an attribute whose value was put in double quotes. -/
theorem reads_requoting {e : Edit} {x : List Char} (isName : IsAttributeName name)
    (gapBlank : ∀ c ∈ gap, isBlank c) (marginBlank : ∀ c ∈ margin, isBlank c)
    (begins : ∀ c ∈ e.cut.head?, isBlank c = false)
    (before : e.before = x ++ (name ++ (gap ++ '=' :: margin)))
    (put : e.put = '"' :: (v ++ ['"'])) (start : t.span.start = Position.start.after x)
    (said : t.text = name ++ (gap ++ '=' :: (margin ++ e.cut)))
    (marked : Attribute.readValue name e.start e.cut = (v, .single,
      if lacksQuote e.cut then [⟨.unterminatedValue name, .covering e.start e.cut⟩] else [])) :
    (Carry.requoting e t.span (name ++ (gap ++ '=' :: (margin ++ e.put)))).Reads t := by
  let f := Carry.requoting e t.span (name ++ (gap ++ '=' :: (margin ++ e.put)))
  have place : t.span.start.after (name ++ (gap ++ '=' :: margin)) = e.start := by
    rw [start, ← Position.after_append, ← before]
    rfl
  have still : (f.token t).span.start = t.span.start := by
    refine (congrArg e.move start).trans (.trans (Edit.move_before ?_) start.symm)
    rw [before]
    exact List.prefix_append _ _
  have said' : (f.token t).text = name ++ (gap ++ '=' :: (margin ++ e.put)) := if_pos rfl
  have begins' : ∀ c ∈ e.put.head?, isBlank c = false := by
    rw [put]
    rintro c ⟨⟩
    rfl
  have marked' : Attribute.readValue name e.start e.put = (v, .double, []) := by
    have quote : isQuote '"' := rfl
    have closed : ['"'].isSuffixOf (v ++ ['"']) :=
      List.isSuffixOf_iff_suffix.mpr (List.suffix_append v ['"'])
    simp [put, Attribute.readValue, stripTail, quote, closed]
  have nameSpan : f.span (.covering t.span.start name) = .covering t.span.start name := by
    rw [start]
    refine Edit.moveSpan_before ?_
    rw [before, ← List.append_assoc]
    exact List.prefix_append _ _
  have valueSpan : f.span (.covering e.start e.cut) = .covering e.start e.put := e.moveSpan_span
  have quoted : ∀ a : Attribute, a.valueSpan = some (.covering e.start e.cut) →
      f.quote a = .double := fun a same => if_pos same
  have told : f.issues (if lacksQuote e.cut then
      [⟨.unterminatedValue name, .covering e.start e.cut⟩] else []) = [] := by
    split
    · have mended : f.mends (.covering e.start e.cut) := beq_self_eq_true (α := Span) _
      simp [Carry.issues, Carry.isMended, mended]
    · rfl
  show Attribute.ofToken (f.token t) =
    (f.attr (Attribute.ofToken t).1, f.issues (Attribute.ofToken t).2)
  rw [ofToken_assigned isName gapBlank marginBlank begins' said',
    ofToken_assigned isName gapBlank marginBlank begins said, still, place]
  simp only [marked, marked', told, Carry.attr, quoted, nameSpan, Option.map_some, valueSpan]
  rfl

/-- **Double quotes for single ones**: the token of an attribute may be written anew with its value in
double quotes, if the value does not hold one. If the value lacks its closing quote, nothing stands
behind it. -/
theorem exists_requoting (member : t ∈ tokenize cs) (attr : t.kind = .attr)
    (single : (Attribute.ofToken t).1.quote = .single)
    (valued : (Attribute.ofToken t).1.value = some v) (plain : '"' ∉ v) :
    ∃ (e : Edit) (r : Revision e), e.old = cs ∧ (Attribute.ofToken t).1.valueSpan = some e.span ∧
      e.put = '"' :: (v ++ ['"']) ∧ r.token = t ∧ (e.finish = e.span.finish ∨ e.after = []) ∧
      (Carry.requoting e r.token.span r.written).Reads t := by
  obtain ⟨front, x, c, tail, rest, mode, next, text, span, whole, proper, cuts, scanned⟩ :=
    token_cut member
  rw [attr] at scanned
  have isAttr : (scan mode c (tail ++ rest)).kind = .attr := by rw [scanned]
  obtain ⟨n, rfl⟩ := exists_tag_of_attr proper.holdsText isAttr
  obtain ⟨name, after, raw?, isName, here, written⟩ := written_scan proper.holdsText isAttr
  rw [scanned, List.take_left, ← text] at written
  generalize said : t.text = old at written
  cases written with
  | bare =>
      rw [ofToken_bare isName said] at single
      cases single
  | @assigned gap margin raw _ gapBlank marginBlank begins =>
      have read := ofToken_assigned isName gapBlank marginBlank begins said
      obtain ⟨value, quote, marked, -, -, shape⟩ := readValue_marked name raw
        (t.span.start.after (name ++ (gap ++ '=' :: margin)))
      simp only [marked] at read
      rw [read] at single valued
      obtain rfl : quote = .single := single
      obtain rfl : value = v := Option.some.inj valued
      obtain ⟨c', label, rfl⟩ := List.exists_cons_of_ne_nil isName.1
      rw [text, List.cons_append] at said
      obtain ⟨rfl, inside⟩ := List.cons.inj said
      have some_ : raw ≠ [] := by
        rw [shape]
        exact List.cons_ne_nil _ _
      have extent : valueExtent (raw ++ rest) = raw.length :=
        valueExtent_eq_length isName gapBlank marginBlank begins some_ inside
          (congrArg Scan.more scanned)
      let left := c :: label ++ (gap ++ '=' :: margin)
      let put := '"' :: (value ++ ['"'])
      let more := label ++ (gap ++ '=' :: (margin ++ put))
      have scanned' : scan (.tag n) c (more ++ rest) = ⟨.attr, more.length, .tag n⟩ := by
        have begins' : ∀ d ∈ (put ++ rest).head?, isBlank d = false := by
          rintro d ⟨⟩
          rfl
        have extent' : valueExtent (put ++ rest) = put.length := by
          have quoted := valueExtent_quoted (q := '"') rfl plain rest
          simpa [put] using quoted
        have whole := scan_assigned (n := n) isName gapBlank marginBlank begins'
        rw [extent'] at whole
        have parted : label ++ (gap ++ '=' :: (margin ++ (put ++ rest))) = more ++ rest := by
          simp [more]
        rw [parted] at whole
        rw [whole]
        congr 1
        simp only [more, List.length_append, List.length_cons]
        omega
      have letter := isName.2 c List.mem_cons_self
      have alike : (Mode.tag n).Alike (c :: tail ++ rest) (c :: more ++ rest) :=
        ⟨List.cons_ne_nil _ _, rfl, fun _ => assignmentExtent_letter letter _⟩
      have goesOn : next = .tag n := by
        rw [scan_label letter] at scanned
        exact (Scan.mk.inj scanned).2.2.symm
      subst goesOn
      have old : c :: tail = left ++ (raw ++ []) := by
        rw [inside]
        simp [left]
      have new : c :: more = left ++ (put ++ []) := by simp [left, more]
      obtain ⟨r, token, ownLeft, ownRight⟩ :=
        exists_revision cuts scanned old new scanned' alike some_
      have start : t.span.start = Position.start.after x := by
        rw [span]
        rfl
      have place : Position.start.after (x ++ left) = t.span.start.after left := by
        rw [Position.after_append, start]
      have same : r.token = t := by
        rw [token, ← attr, ← span, ← text]
      have valueSpan : (Attribute.ofToken t).1.valueSpan =
          some (.covering (Position.start.after (x ++ left)) raw) := by
        rw [read, place]
      refine ⟨_, r, ?_, valueSpan, rfl, same, ?_, ?_⟩
      · rw [whole, old]
        simp [Edit.old]
      · by_cases lacks : lacksQuote raw
        · exact .inr (nil_of_lacksQuote extent lacks)
        · rw [if_neg lacks] at shape
          refine .inl ?_
          show (Position.start.after (x ++ left)).after put =
            (Position.start.after (x ++ left)).after raw
          rw [shape]
          exact Position.after_quoted rfl rfl _ value
      · have written : r.written = c :: label ++ (gap ++ '=' :: (margin ++ put)) := by
          rw [Revision.written, ownLeft, ownRight]
          simp [left]
        rw [same, written]
        refine reads_requoting isName gapBlank marginBlank begins rfl rfl start ?_ ?_
        · rw [text, old]
          simp [left]
        · rw [Edit.start, place]
          exact marked

/-! ## Attributes of the page -/

/-- The attributes of a page, in document order. -/
def Page.attributes (page : Page) : List Attribute := page.elements.flatMap (·.tag.attributes)

/-- A value is the end of its token. -/
theorem valueSpan_ofToken {s : Span} (valued : (Attribute.ofToken t).1.valueSpan = some s) :
    ∃ front raw, t.text = front ++ raw ∧ s = .covering (t.span.start.after front) raw := by
  simp only [Attribute.ofToken] at valued
  split at valued
  next rest afterSign left =>
    have ends : trimStart afterSign <:+ t.text :=
      (trimStart_suffix _).trans ((List.suffix_cons _ _).trans
        (left ▸ (trimStart_suffix _).trans (List.drop_suffix _ _)))
    exact ⟨_, _, (List.suffix_iff_eq_append.mp ends).symm, (Option.some.inj valued).symm⟩
  next => cases valued

variable {e : Edit} {r : Revision e} {f : Carry}

/-- Only the value that is edited stands at its stretch. -/
theorem Revision.valueSpan_ne (r : Revision e) (member : t ∈ tokenize e.old) (other : t ≠ r.token) :
    (Attribute.ofToken t).1.valueSpan ≠ some e.span := by
  intro valued
  obtain ⟨front, raw, text, span⟩ := valueSpan_ofToken valued
  have spares := (r.spares_other member other).1
  rw [text] at spares
  exact spares.right.ne le_rfl le_rfl span.symm

/-- The attributes of the page are read off what their tokens become. -/
theorem Revision.attributes (follows : f.Follows e r.token.span r.written) :
    (Page.ofText e.new).attributes = ((Markup.ofTokens (tokenize e.old)).flatMap
      Markup.attributes).map fun t => (Attribute.ofToken (f.token t)).1 := by
  have own : ∀ piece : Markup, (f.markup piece).attributes = piece.attributes.map f.token := by
    intro piece
    cases piece with
    | tag head parts close => exact List.filter_map ..
    | single t => rfl
  rw [Page.attributes, attributes_elements, tokens follows, Carry.ofTokens_token, List.flatMap_map]
  simp only [own]
  rw [← List.map_flatMap, List.map_map]
  rfl

end Html

/-! ## The rule -/

theorem StyleGuide.doubleQuotes_of_id : ∀ r ∈ rules, r.id = "double-quotes" →
    r.check = reading Rules.doubleQuotes ∧ r.targets = [.htmlElement] ∧ r.languages = [.html] := by
  simp [rules, sharedRules, htmlRules, cssRules]

/-- What is told of an attribute in single quotes. -/
def Rules.singleQuoted (a : Html.Attribute) : List Finding :=
  if a.quote = .single then
    match a.value, a.valueSpan with
    | some value, some span =>
      let found := Finding.filled span [("name", a.rawName)]
      [if value.contains '"' then found
        else found.suggest "Use double quotes" (['"'] ++ value ++ ['"'])]
    | _, _ => []
  else []

theorem Rules.doubleQuotes_eq (s : Subject) : doubleQuotes s =
    (s.htmlElement?.toList.flatMap (·.tag.attributes)).flatMap singleQuoted := by
  cases s with
  | htmlElement e ancestors =>
      rw [doubleQuotes, Subject.htmlElement?, Option.toList_some, List.flatMap_singleton]
      induction e.tag.attributes with
      | nil => rfl
      | cons a attributes ih =>
          rw [List.flatMap_cons, ← ih, singleQuoted]
          by_cases single : a.quote = .single
          · rw [List.filter_cons_of_pos (by simp [single]), List.flatMap_cons]
            exact congrArg (· ++ _) (if_pos single).symm
          · rw [List.filter_cons_of_neg (by simp [single]), if_neg single, List.nil_append]
  | _ => rfl

/-- A rule that reads elements by themselves tells of each element of the page what it finds there. -/
theorem Checker.runRule_elements {r : Rule} {check : Subject → List Finding}
    {find : Html.Element → List Finding} (reads : r.check = StyleGuide.reading check)
    (targets : r.targets = [.htmlElement]) (languages : r.languages = [.html])
    (own : ∀ s, check s = s.htmlElement?.toList.flatMap find) (c : Checker) (file : Path)
    (cs : List Char) : (c.runRule file (.ofText .html cs) r).diagnostics =
      (Html.Page.ofText cs).elements.flatMap fun e =>
        (find e).map (r.diagnostic (c.severityOf r) file) := by
  have answer : ∀ s, r.check (.ofText .html cs) s = .ok (check s) := by
    intro s
    rw [reads]
    rfl
  have found : ∀ s : Subject, r.found (c.severityOf r) file (.ofText .html cs) s =
      s.htmlElement?.toList.flatMap fun e => (find e).map (r.diagnostic (c.severityOf r) file) := by
    intro s
    rw [Rule.found, answer, ← List.map_flatMap, ← own]
    cases s <;> simp [Rule.appliesTo, targets, languages, Subject.target, Target.language?, own,
      Subject.htmlElement?]
  have elements : (Document.ofText .html cs).subjects.filterMap Subject.htmlElement? =
      (Html.Page.ofText cs).elements := Html.elements_nodesSubjects [] _
  rw [runRule, Rule.diagnostics_runOver fun s _ => ⟨_, answer s⟩, List.flatMap_cons, found .source,
    List.flatMap_congr fun s _ => found s, ← elements, List.filterMap_eq_flatMap_toList]
  simp only [List.flatMap_assoc]
  rfl

/-- The rule tells of each attribute in single quotes. -/
theorem Checker.runRule_doubleQuotes {r : Rule} (isRule : r ∈ StyleGuide.rules)
    (named : r.id = "double-quotes") (c : Checker) (file : Path) (cs : List Char) :
    (c.runRule file (.ofText .html cs) r).diagnostics =
      (Html.Page.ofText cs).attributes.flatMap fun a =>
        (Rules.singleQuoted a).map (r.diagnostic (c.severityOf r) file) := by
  obtain ⟨check, targets, languages⟩ := StyleGuide.doubleQuotes_of_id r isRule named
  have own : ∀ s, Rules.doubleQuotes s = s.htmlElement?.toList.flatMap fun e =>
      e.tag.attributes.flatMap Rules.singleQuoted := fun s => by
    rw [Rules.doubleQuotes_eq, List.flatMap_assoc]
  rw [runRule_elements check targets languages own, Html.Page.attributes, List.flatMap_assoc]
  simp only [List.map_flatMap]

theorem Rules.valueSpan_singleQuoted {a : Html.Attribute} {found : Finding}
    (member : found ∈ singleQuoted a) : a.valueSpan = some found.span := by
  rw [singleQuoted] at member
  split at member
  · split at member
    next value span _ spanned =>
      obtain rfl := List.mem_singleton.mp member
      rw [spanned]
      split <;> rfl
    next => cases member
  · cases member

/-- What is told with a fix is told of a value in single quotes that holds no double one. -/
theorem Rules.mem_singleQuoted {a : Html.Attribute} {found : Finding} {fix : Fix}
    (member : found ∈ singleQuoted a) (fixed : found.fix = some fix) :
    a.quote = .single ∧ ∃ value, a.value = some value ∧ a.valueSpan = some found.span ∧
      '"' ∉ value ∧ fix.replacement.toList = '"' :: (value ++ ['"']) := by
  rw [singleQuoted] at member
  split at member
  next single =>
    refine ⟨single, ?_⟩
    split at member
    next value span valued spanned =>
      obtain rfl := List.mem_singleton.mp member
      split at fixed
      next => cases fixed
      next plain =>
        cases fixed
        rw [if_neg plain]
        exact ⟨value, valued, spanned, by simpa using plain, String.toList_ofList⟩
    next => cases member
  next => cases member

/-- **Double quotes for single ones change nothing else.** If the rule on quotes tells of something
with a fix, that is the value of one attribute in single quotes. With the fix put in its place, the page
has the same tokens and the same tree, moved along, but for this attribute, which has the same value
in double quotes. The same is wrong with it, unless the value lacked its closing quote, which it has
now; its stylesheets are the same; and the rule tells of the same attributes but for this one. -/
theorem Document.requoted {r : Rule} (isRule : r ∈ StyleGuide.rules)
    (named : r.id = "double-quotes") (c : Checker) (file : Path) {cs : List Char} {d : Diagnostic}
    {fix : Fix} (told : d ∈ (c.runRule file (.ofText .html cs) r).diagnostics)
    (fixed : d.fix = some fix) :
    let old := Html.Page.ofText cs
    let text := Source.splice ⟨cs⟩ d.span fix.replacement.toList
    let new := Html.Page.ofText text
    ∃ a ∈ old.attributes, ∃ value, a.quote = .single ∧ a.value = some value ∧
      fix.replacement.toList = '"' :: (value ++ ['"']) ∧
      (∀ b ∈ old.attributes, b.valueSpan = some d.span ↔ b = a) ∧
      ∃ (e : Edit) (said : List Char), e.old = cs ∧ e.span = d.span ∧
        e.put = fix.replacement.toList ∧
        let f := Html.Carry.requoting e a.span said
        new.tokens = old.tokens.map f.token ∧ new.nodes = f.nodes old.nodes ∧
          new.issues = f.issues old.issues ∧ new.sheets = old.sheets ∧
          (c.runRule file (.ofText .html text) r).diagnostics =
            (c.runRule file (.ofText .html cs) r).diagnostics.filter (·.span ≠ d.span) := by
  intro old text new
  rw [Checker.runRule_doubleQuotes isRule named] at told
  obtain ⟨a, inPage, own⟩ := List.mem_flatMap.mp told
  obtain ⟨found, isFound, rfl⟩ := List.mem_map.mp own
  obtain ⟨single, value, valued, spanned, plain, replacement⟩ :=
    Rules.mem_singleQuoted isFound fixed
  have inTokens := inPage
  rw [Html.Page.attributes, Html.attributes_elements] at inTokens
  obtain ⟨t, isAttribute, rfl⟩ := List.mem_map.mp inTokens
  obtain ⟨member, attr⟩ := Html.Markup.mem_attributes isAttribute
  obtain ⟨e, rev, rfl, span, put, rfl, still, reads⟩ :=
    Html.exists_requoting member attr single valued plain
  have place : e.span = found.span := Option.some.inj (span.symm.trans spanned)
  have newText : text = e.new := by
    have put' : fix.replacement.toList = e.put := replacement.trans put.symm
    show Source.splice ⟨e.old⟩ found.span fix.replacement.toList = e.new
    rw [← place, put', Source.splice_span]
  have follows := Html.Carry.follows_requoting e rev.token.span rev.written
  obtain ⟨tokens, nodes, issues⟩ := rev.page follows (.inr ⟨attr, reads⟩)
  have kept : ∀ u ∈ Html.tokenize e.old, u ≠ rev.token →
      (Html.Carry.requoting e rev.token.span rev.written).token u = u :=
    fun u inText other => rev.token_still follows still inText other
  refine ⟨_, inPage, value, single, valued, replacement, fun b inOld => ?_, e, rev.written, rfl,
    place, put.trans replacement.symm, ?_⟩
  · rw [Html.Page.attributes, Html.attributes_elements] at inOld
    obtain ⟨u, isAttribute', rfl⟩ := List.mem_map.mp inOld
    refine ⟨fun same => ?_, fun same => same ▸ spanned⟩
    by_contra different
    have other : u ≠ rev.token := fun same => different (by rw [same])
    exact rev.valueSpan_ne (Html.Markup.mem_attributes isAttribute').1 other (place ▸ same)
  have spot : (Html.Attribute.ofToken rev.token).1.span = rev.token.span :=
    Html.span_ofToken rev.token
  simp only [new, newText, spot]
  refine ⟨tokens, nodes, issues, ?_, ?_⟩
  · have texts : ∀ u ∈ Html.styleTextsIn false old.nodes,
        (Html.Carry.requoting e rev.token.span rev.written).text u = u := by
      intro u inPage
      obtain ⟨t, isRaw, rfl⟩ :=
        List.mem_map.mp ((Html.styleTexts_sublist e.old).subset inPage)
      obtain ⟨inText, raw⟩ := List.mem_filter.mp isRaw
      have other : t ≠ rev.token := by
        rintro rfl
        rw [Html.isRawText, attr] at raw
        cases raw
      have same := kept t inText other
      exact congrArg (fun t : Token Html.TokenKind => (⟨t.text, true, t.span⟩ : Html.TextNode)) same
    show (Html.styleTextsIn false (Html.Page.ofText e.new).nodes).map Html.TextNode.sheet =
      (Html.styleTextsIn false old.nodes).map Html.TextNode.sheet
    rw [nodes, Html.styleTextsIn_carry, List.map_congr_left texts, List.map_id']
  · have before : old.attributes = _ := Html.attributes_elements e.old
    rw [Checker.runRule_doubleQuotes isRule named, Checker.runRule_doubleQuotes isRule named,
      before, Html.Revision.attributes follows, List.filter_flatMap, List.flatMap_map,
      List.flatMap_map]
    refine List.flatMap_congr fun u isAttribute' => ?_
    by_cases here : u = rev.token
    · subst here
      have double : (Html.Attribute.ofToken ((Html.Carry.requoting e rev.token.span
          rev.written).token rev.token)).1.quote ≠ .single := by
        rw [reads]
        simp [Html.Carry.attr, Html.Carry.requoting, span]
      rw [Rules.singleQuoted, if_neg double, List.map_nil]
      refine (List.filter_eq_nil_iff.mpr fun x member => ?_).symm
      obtain ⟨other, isFinding, rfl⟩ := List.mem_map.mp member
      have spanned' := Rules.valueSpan_singleQuoted isFinding
      have same : other.span = found.span := Option.some.inj (spanned'.symm.trans spanned)
      simp [Rule.diagnostic, same]
    · have inText := (Html.Markup.mem_attributes isAttribute').1
      rw [kept u inText here]
      refine (List.filter_eq_self.mpr fun x member => ?_).symm
      obtain ⟨other, isFinding, rfl⟩ := List.mem_map.mp member
      have spanned' := Rules.valueSpan_singleQuoted isFinding
      have apart := rev.valueSpan_ne inText here
      rw [spanned', place] at apart
      have different : other.span ≠ found.span := fun same => apart (congrArg some same)
      simp [Rule.diagnostic, different]

/-- A value that is open at the end of the text gets both quotes, and nothing is told of it any more. -/
theorem Document.requoted_open :
    let text := "<a b='c>".toList
    ∃ r ∈ StyleGuide.rules, r.id = "double-quotes" ∧
      ∃ d ∈ (Checker.runRule {} ⟨"a.html"⟩ (.ofText .html text) r).diagnostics,
        ∃ fix, d.fix = some fix ∧ d.span = ⟨⟨5, 1, 6⟩, ⟨8, 1, 9⟩⟩ ∧
          Source.splice ⟨text⟩ d.span fix.replacement.toList = "<a b=\"c>\"".toList ∧
          (Checker.runRule {} ⟨"a.html"⟩ (.ofText .html "<a b=\"c>\"".toList) r).diagnostics =
            [] := by
  intro text
  let r := StyleGuide.htmlRules[3]
  have isRule : r ∈ StyleGuide.rules :=
    List.mem_append_left _ (List.mem_append_right _ (List.getElem_mem _))
  let a : Html.Attribute := ⟨"b", ⟨⟨3, 1, 4⟩, ⟨4, 1, 5⟩⟩, some "c>".toList,
    some ⟨⟨5, 1, 6⟩, ⟨8, 1, 9⟩⟩, .single, ⟨⟨3, 1, 4⟩, ⟨8, 1, 9⟩⟩⟩
  have attributes : (Html.Page.ofText text).attributes = [a] := by decide +kernel
  let d := r.diagnostic (Checker.severityOf {} r) ⟨"a.html"⟩
    ((Finding.filled ⟨⟨5, 1, 6⟩, ⟨8, 1, 9⟩⟩ [("name", "b")]).suggest "Use double quotes"
      "\"c>\"".toList)
  have diagnostics : (Checker.runRule {} ⟨"a.html"⟩ (.ofText .html text) r).diagnostics = [d] := by
    rw [Checker.runRule_doubleQuotes isRule rfl, attributes]
    rfl
  have told : d ∈ (Checker.runRule {} ⟨"a.html"⟩ (.ofText .html text) r).diagnostics := by
    rw [diagnostics]
    exact List.mem_singleton_self d
  obtain ⟨-, -, -, -, -, -, -, -, -, -, -, -, -, -, -, -, left⟩ :=
    Document.requoted isRule rfl {} ⟨"a.html"⟩ told rfl
  have spliced : Source.splice ⟨text⟩ d.span
      (String.ofList "\"c>\"".toList).toList = "<a b=\"c>\"".toList := by decide +kernel
  refine ⟨r, isRule, rfl, d, told, _, rfl, rfl, spliced, ?_⟩
  rw [← spliced, left, diagnostics]
  simp

end PageLint
