/-
# PageLint.Proofs.Html.Attributes — an attribute is what is written

The lexer finds how far an attribute reaches, and its text is then read anew, by other means. Both
agree on how it is written: as a name, or as a name, a `=` and a value, with white space around the
sign (`Written`). What the lexer cuts out is written so, and a `=` is taken in wherever one follows the
name (`written_scan`); what is written so is read as what it says (`ofToken_bare`, `ofToken_assigned`).

The values that are told to lack their closing quote are those of the attributes in the tags of the
page, and no others (`openValues_buildTree`). So every attribute of a page shows in its spans what it
says, and its value lacks the closing quote just if that is told (`Page.attribute_faithful`).
-/
import PageLint.Proofs.Html.Draft
import PageLint.Proofs.Html.Ends
import PageLint.Proofs.Text.Closing

namespace PageLint

set_option autoImplicit false

open Text

namespace Html

/-! ## How an attribute is written -/

/-- A name that an attribute may have: it holds no white space and no sign that ends it. -/
def IsAttributeName (name : List Char) : Prop :=
  name ≠ [] ∧ ∀ c ∈ name, endsAttributeName c = false

/-- **How an attribute is written** whose name stands before `after`: as its name, if no `=` follows,
or else as its name, a `=` and a value that does not begin with white space, with white space around
the sign. -/
inductive Written (name after : List Char) : Option (List Char) → List Char → Prop
  | bare : (trimStart after).head? ≠ some '=' → Written name after none name
  | assigned {gap margin raw : List Char} : (trimStart after).head? = some '=' →
    (∀ c ∈ gap, isBlank c) → (∀ c ∈ margin, isBlank c) → (∀ c ∈ raw.head?, isBlank c = false) →
    Written name after (some raw) (name ++ (gap ++ '=' :: (margin ++ raw)))

variable {c : Char} {rest name after text gap margin raw : List Char} {mode : Mode}
  {t : Token TokenKind} {p : Position}

theorem scanContent_ne_attr (c : Char) (rest : List Char) : (scanContent c rest).kind ≠ .attr := by
  simp only [scanContent]
  repeat' split
  all_goals simp

/-- An attribute is cut off only inside a start tag, and begins with its name. -/
theorem scan_attr (text : mode.HoldsText) (attr : (scan mode c rest).kind = .attr) :
    endsAttributeName c = false ∧ (scan mode c rest).more =
      extentWhile (fun d => !endsAttributeName d) rest +
        assignmentExtent (rest.dropWhile fun d => !endsAttributeName d) := by
  cases mode with
  | head =>
      rw [scan] at attr
      split at attr
      · cases attr
      · exact absurd attr (scanContent_ne_attr c rest)
  | content => exact absurd attr (scanContent_ne_attr c rest)
  | raw name kind =>
      rw [scan] at attr
      split at attr
      · exact absurd attr (scanContent_ne_attr c rest)
      · rcases text with rfl | rfl <;> cases attr
  | tag name =>
      rw [scan] at attr ⊢
      split at attr
      · exact absurd attr (scanContent_ne_attr c rest)
      next other =>
        simp only [if_neg other, scanTag] at attr ⊢
        split at attr
        · cases attr
        next blank =>
        split at attr
        · cases attr
        next finish =>
        split at attr
        · cases attr
        next selfClosing =>
        split at attr
        · cases attr
        next quote =>
        split at attr
        · cases attr
        next sign =>
          simp only [if_neg blank, if_neg finish, if_neg selfClosing, if_neg quote, if_neg sign]
          refine ⟨?_, by rw [← drop_extentWhile]⟩
          simp only [Bool.or_eq_true, beq_iff_eq, not_or] at sign
          refine endsAttributeName_eq_false_iff.mpr ⟨endsTagName_eq_false_iff.mpr ?_, sign.2, ?_⟩
          · exact ⟨Bool.eq_false_of_not_eq_true blank, sign.1, by simpa using finish, other⟩
          · exact Bool.eq_false_of_not_eq_true quote

theorem assignmentExtent_of_bare (bare : (trimStart after).head? ≠ some '=') :
    assignmentExtent after = 0 := by
  rw [assignmentExtent, drop_extentWhile]
  split
  next left =>
    have sign : trimStart after = '=' :: _ := left
    exact absurd (by rw [sign]; rfl) bare
  · rfl

/-- Where a `=` follows, white space is taken in on both sides of it, and the value. -/
theorem take_assignmentExtent {afterSign : List Char} (sign : trimStart after = '=' :: afterSign) :
    after.take (assignmentExtent after) = after.takeWhile isBlank ++
      '=' :: (afterSign.takeWhile isBlank ++
        (trimStart afterSign).take (valueExtent (trimStart afterSign))) := by
  have left : after.dropWhile isBlank = '=' :: afterSign := sign
  have margin : afterSign.dropWhile isBlank = trimStart afterSign := rfl
  have whole : after = after.takeWhile isBlank ++
      '=' :: (afterSign.takeWhile isBlank ++ trimStart afterSign) := by
    rw [← margin, List.takeWhile_append_dropWhile, ← left, List.takeWhile_append_dropWhile]
  have extent : assignmentExtent after = (after.takeWhile isBlank).length +
      ((afterSign.takeWhile isBlank).length + valueExtent (trimStart afterSign) + 1) := by
    simp only [assignmentExtent, drop_extentWhile, left, margin]
    simp only [extentWhile]
    omega
  rw [extent]
  conv_lhs =>
    enter [2]
    rw [whole]
  rw [List.take_length_add_append, List.take_succ_cons, List.take_length_add_append]

/-- **What the lexer takes for an attribute is written as one.** -/
theorem written_scan (text : mode.HoldsText) (attr : (scan mode c rest).kind = .attr) :
    ∃ name after raw, IsAttributeName name ∧ c :: rest = name ++ after ∧
      Written name after raw (c :: rest.take (scan mode c rest).more) := by
  obtain ⟨first, more⟩ := scan_attr text attr
  have whole := List.takeWhile_append_dropWhile (p := fun d => !endsAttributeName d) (l := rest)
  have label : ∀ d ∈ rest.takeWhile fun d => !endsAttributeName d, endsAttributeName d = false :=
    fun d member => by simpa using List.mem_takeWhile_imp member
  rw [extentWhile] at more
  generalize (rest.takeWhile fun d => !endsAttributeName d) = tail at more whole label
  generalize (rest.dropWhile fun d => !endsAttributeName d) = after at more whole
  have taken : c :: rest.take (scan mode c rest).more =
      c :: tail ++ after.take (assignmentExtent after) := by
    rw [more, ← whole, List.take_length_add_append]
    rfl
  rw [taken]
  have isName : IsAttributeName (c :: tail) :=
    ⟨List.cons_ne_nil _ _, List.forall_mem_cons.mpr ⟨first, label⟩⟩
  by_cases follows : (trimStart after).head? = some '='
  · obtain ⟨afterSign, sign⟩ := List.head?_eq_some_iff.mp follows
    rw [take_assignmentExtent sign]
    refine ⟨c :: tail, after, _, isName, by rw [← whole]; rfl, .assigned follows
      (fun d member => List.mem_takeWhile_imp member)
      (fun d member => List.mem_takeWhile_imp member) ?_⟩
    intro d head
    rw [List.head?_take] at head
    split at head
    · cases head
    · exact head_trimStart afterSign d head
  · rw [assignmentExtent_of_bare follows, List.take_zero, List.append_nil]
    exact ⟨c :: tail, after, none, isName, by rw [← whole]; rfl, .bare follows⟩

/-- **An attribute in its text**: what stands before it, its name, and what follows the name. -/
theorem written_token {cs : List Char} (member : t ∈ tokenize cs) (attr : t.kind = .attr) :
    ∃ before name after raw, cs = before ++ (name ++ after) ∧ IsAttributeName name ∧
      Written name after raw t.text ∧ t.span = .covering (Position.start.after before) t.text := by
  obtain ⟨before, later, split⟩ := List.append_of_mem member
  obtain ⟨mode, c, rest, holdsText, whole, kind, text, span, -⟩ :=
    locate_cut_split (s := Mode.head) (I := Mode.HoldsText)
      (fun mode c rest _ => scan_holdsText mode c rest) trivial split
  rw [attr] at kind
  obtain ⟨name, after, raw, isName, here, written⟩ := written_scan holdsText kind.symm
  exact ⟨textOf before, name, after, raw, by rw [whole, here], isName, text ▸ written, span⟩

/-! ## The extent of an attribute that assigns a value -/

variable {q : Char} {n label tail value v : List Char}

theorem assignmentExtent_assigned (gapBlank : ∀ c ∈ gap, isBlank c)
    (marginBlank : ∀ c ∈ margin, isBlank c) (begins : ∀ c ∈ value.head?, isBlank c = false) :
    assignmentExtent (gap ++ '=' :: (margin ++ value)) =
      gap.length + 1 + margin.length + valueExtent value := by
  have sign : ∀ c ∈ ('=' :: (margin ++ value)).head?, isBlank c = false := by
    rintro c ⟨⟩
    rfl
  simp only [assignmentExtent, extentWhile_append_stop gapBlank sign, List.drop_left,
    extentWhile_append_stop marginBlank begins]

/-- A name that stands in a start tag begins an attribute. -/
theorem scan_label (letter : endsAttributeName c = false) (n rest : List Char) :
    scan (.tag n) c rest = ⟨.attr, extentWhile (fun d => !endsAttributeName d) rest +
      assignmentExtent (rest.drop (extentWhile (fun d => !endsAttributeName d) rest)),
        .tag n⟩ := by
  obtain ⟨notTag, noSign, noQuote⟩ := endsAttributeName_eq_false_iff.mp letter
  obtain ⟨solid, noSlash, noClose, noOpen⟩ := endsTagName_eq_false_iff.mp notTag
  simp [scan, scanTag, solid, noSign, noQuote, noSlash, noClose, noOpen]

/-- **An attribute with its value**: it goes as far as the value does. -/
theorem scan_assigned (isName : IsAttributeName (c :: label)) (gapBlank : ∀ c ∈ gap, isBlank c)
    (marginBlank : ∀ c ∈ margin, isBlank c) (begins : ∀ c ∈ value.head?, isBlank c = false) :
    scan (.tag n) c (label ++ (gap ++ '=' :: (margin ++ value))) =
      ⟨.attr, label.length + (gap.length + 1 + margin.length + valueExtent value), .tag n⟩ := by
  have letters := List.forall_mem_cons.mp isName.2
  have inside : ∀ d ∈ label, (!endsAttributeName d) = true := fun d member => by
    rw [letters.2 d member]
    rfl
  have stops : ∀ d ∈ (gap ++ '=' :: (margin ++ value)).head?, (!endsAttributeName d) = false := by
    intro d first
    cases gap with
    | nil =>
        cases first
        rfl
    | cons g gap =>
        cases first
        simp [endsAttributeName, endsTagName, gapBlank d List.mem_cons_self]
  rw [scan_label letters.1, extentWhile_append_stop inside stops, List.drop_left,
    assignmentExtent_assigned gapBlank marginBlank begins]

/-- A quote is no white space. -/
theorem head_quoted (quote : isQuote q) (rest : List Char) :
    ∀ c ∈ (q :: rest).head?, isBlank c = false := by
  rintro c ⟨⟩
  rcases isQuote_iff.mp quote with rfl | rfl <;> rfl

theorem valueExtent_quoted (quote : isQuote q) (plain : q ∉ v) (rest : List Char) :
    valueExtent (q :: (v ++ q :: rest)) = v.length + 2 := by
  rw [valueExtent, if_pos quote, extentThrough_quote plain]
  omega

/-- **The lexer takes a value whole**, and nothing behind it. -/
theorem valueExtent_eq_length (isName : IsAttributeName (c :: label)) (gapBlank : ∀ c ∈ gap, isBlank c)
    (marginBlank : ∀ c ∈ margin, isBlank c) (begins : ∀ c ∈ raw.head?, isBlank c = false)
    (some_ : raw ≠ []) (parted : tail = label ++ (gap ++ '=' :: (margin ++ raw)))
    (more : (scan (.tag n) c (tail ++ rest)).more = tail.length) :
    valueExtent (raw ++ rest) = raw.length := by
  have begins' : ∀ d ∈ (raw ++ rest).head?, isBlank d = false := by
    rw [List.head?_append_of_ne_nil _ some_]
    exact begins
  have whole : tail ++ rest = label ++ (gap ++ '=' :: (margin ++ (raw ++ rest))) := by
    rw [parted]
    simp
  have length := congrArg List.length parted
  rw [whole, scan_assigned isName gapBlank marginBlank begins'] at more
  simp only [List.length_append, List.length_cons] at more length
  omega

/-! ## How it is read -/

/-- The sign before and behind a value that is quoted. -/
def Quote.mark : Quote → List Char
  | .double => ['"']
  | .single => ['\'']
  | _ => []

/-- Begins with a quote that does not end it. -/
def lacksQuote : List Char → Bool
  | [] => false
  | q :: body => isQuote q && !([q].isSuffixOf body)

/-- A value that lacks its closing quote goes on to the end of the text. -/
theorem nil_of_lacksQuote (whole : valueExtent (value ++ rest) = value.length)
    (lacks : lacksQuote value) : rest = [] := by
  cases value with
  | nil => cases lacks
  | cons q body =>
      rw [lacksQuote, Bool.and_eq_true] at lacks
      obtain ⟨quote, open_⟩ := lacks
      rw [List.cons_append, valueExtent, if_pos quote, List.length_cons] at whole
      by_contra some_
      have length : extentThrough [q] (body ++ rest) = body.length := by omega
      have ends := extentThrough_ends (List.cons_ne_nil q []) some_ length
      rw [List.isSuffixOf_iff_suffix.mpr ends] at open_
      cases open_

/-- **A value is read as what it says**: it stands between the marks of its quote, the second of which
is missing just if that is told. -/
theorem readValue_marked (name raw : List Char) (p : Position) : ∃ value quote,
    Attribute.readValue name p raw =
        (value, quote, if lacksQuote raw then [⟨.unterminatedValue name, .covering p raw⟩] else []) ∧
      quote ≠ .absent ∧ (lacksQuote raw → quote.mark ≠ []) ∧
      raw = quote.mark ++ (value ++ if lacksQuote raw then [] else quote.mark) := by
  cases raw with
  | nil => exact ⟨[], .unquoted, rfl, by simp, by simp [lacksQuote], rfl⟩
  | cons q body =>
      by_cases isQuote_ : isQuote q
      · have mark : Quote.mark (if q = '"' then .double else .single) = [q] := by
          rcases isQuote_iff.mp isQuote_ with rfl | rfl <;> rfl
        have present : (if q = '"' then Quote.double else .single) ≠ .absent := by
          split <;> simp
        by_cases closed : [q].isSuffixOf body
        · have finished : lacksQuote (q :: body) = false := by simp [lacksQuote, closed]
          obtain ⟨value, rfl⟩ := List.isSuffixOf_iff_suffix.mp closed
          refine ⟨value, if q = '"' then .double else .single, ?_, present, ?_, ?_⟩
          · rw [finished]
            simp [Attribute.readValue, isQuote_, stripTail, closed]
          · rw [finished]
            exact fun never => absurd never Bool.false_ne_true
          · rw [finished, mark]
            rfl
        · have open_ : lacksQuote (q :: body) := by simp [lacksQuote, isQuote_, closed]
          refine ⟨body, if q = '"' then .double else .single, ?_, present, ?_, ?_⟩
          · rw [open_]
            simp [Attribute.readValue, isQuote_, stripTail, closed]
          · rw [mark]
            exact fun _ => List.cons_ne_nil _ _
          · rw [open_, mark]
            simp
      · have plain : lacksQuote (q :: body) = false := by simp [lacksQuote, isQuote_]
        refine ⟨q :: body, .unquoted, ?_, by simp, ?_, ?_⟩
        · simp [Attribute.readValue, isQuote_, plain]
        · rw [plain]
          exact fun never => absurd never Bool.false_ne_true
        · simp [Quote.mark]

/-- What stands before the value of an attribute, and the value. -/
theorem assigned_parted (name gap margin raw : List Char) :
    name ++ (gap ++ '=' :: (margin ++ raw)) = (name ++ (gap ++ '=' :: margin)) ++ raw := by
  simp

theorem span_ofToken (t : Token TokenKind) : (Attribute.ofToken t).1.span = t.span := by
  simp only [Attribute.ofToken]
  split <;> rfl

/-- A name by itself is an attribute without a value. -/
theorem ofToken_bare (isName : IsAttributeName name) (text : t.text = name) :
    Attribute.ofToken t =
      (⟨name, .covering t.span.start name, none, none, .absent, t.span⟩, []) := by
  have label : (name.takeWhile fun c => !(c == '=' || isBlank c)) = name := by
    have stops : ∀ c ∈ ([] : List Char).head?, c = '=' ∨ isBlank c := by simp
    simpa using takeWhile_attributeName isName.2 stops
  have nothing : trimStart (name.drop name.length) = [] := by
    rw [List.drop_length]
    rfl
  simp only [Attribute.ofToken, text, label, nothing]

/-- A name, a `=` and a value are an attribute with that value, read where it stands. -/
theorem ofToken_assigned (isName : IsAttributeName name) (gapBlank : ∀ c ∈ gap, isBlank c)
    (marginBlank : ∀ c ∈ margin, isBlank c) (begins : ∀ c ∈ raw.head?, isBlank c = false)
    (text : t.text = name ++ (gap ++ '=' :: (margin ++ raw))) :
    Attribute.ofToken t =
      let p := t.span.start.after (name ++ (gap ++ '=' :: margin))
      let read := Attribute.readValue name p raw
      (⟨name, .covering t.span.start name, some read.1, some (.covering p raw), read.2.1, t.span⟩,
        read.2.2) := by
  have label : (t.text.takeWhile fun c => !(c == '=' || isBlank c)) = name := by
    rw [text]
    refine takeWhile_attributeName isName.2 fun c head => ?_
    cases gap with
    | nil => exact .inl (Option.some.inj head).symm
    | cons d gap => exact .inr (gapBlank c (Option.some.inj head ▸ List.mem_cons_self))
  have sign : trimStart (gap ++ '=' :: (margin ++ raw)) = '=' :: (margin ++ raw) := by
    rw [trimStart, trimStartBy, List.dropWhile_append_of_pos gapBlank]
    rfl
  have value : trimStart (margin ++ raw) = raw := by
    rw [trimStart, trimStartBy, List.dropWhile_append_of_pos marginBlank]
    cases raw with
    | nil => rfl
    | cons c raw => rw [List.dropWhile_cons_of_neg (by simpa using begins c rfl)]
  have front : t.text.take (t.text.length - raw.length) = name ++ (gap ++ '=' :: margin) := by
    rw [text, assigned_parted, List.length_append, Nat.add_sub_cancel, List.take_left]
  have rest : t.text.drop name.length = gap ++ '=' :: (margin ++ raw) := by
    rw [text, List.drop_left]
  simp only [Attribute.ofToken, label, rest, sign, value, front]

/-! ## What is told to be open -/

/-- Told of a comment, a CDATA section or a value: that its closing mark is missing. -/
def Fault.isOpen : Fault → Bool
  | .unterminatedComment | .unterminatedCdata | .unterminatedValue _ => true
  | _ => false

/-- The faults of what lacks its closing mark. -/
def openParts (issues : List Issue) : List Issue := issues.filter (·.fault.isOpen)

/-- The faults of values that lack their closing quote. -/
def openValues (issues : List Issue) : List Issue :=
  issues.filter fun issue => issue.fault matches .unterminatedValue _

/-- The attributes of a piece of markup, as tokens. -/
def Markup.attributes : Markup → List (Token TokenKind)
  | .tag _ parts _ => parts.filter (·.kind == .attr)
  | .single _ => []

/-- What a token that is no part of a start tag is told for if its closing mark is missing. -/
def openToken (t : Token TokenKind) : List Issue :=
  match t.kind with
  | .comment =>
    if t.text.length < 7 || !"-->".toList.isSuffixOf t.text then [⟨.unterminatedComment, t.span⟩]
    else []
  | .cdata => if "]]>".toList.isSuffixOf t.text then [] else [⟨.unterminatedCdata, t.span⟩]
  | _ => []

/-- What a piece of markup is told for where a closing mark is missing. -/
def Markup.openParts : Markup → List Issue
  | .tag head parts close =>
    (tag head parts close).attributes.flatMap fun t => (Attribute.ofToken t).2
  | .single t => openToken t

@[simp] theorem openParts_append (issues more : List Issue) :
    openParts (issues ++ more) = openParts issues ++ openParts more :=
  List.filter_append ..

theorem openValues_ofToken (t : Token TokenKind) :
    openValues (Attribute.ofToken t).2 = (Attribute.ofToken t).2 := by
  refine List.filter_eq_self.mpr fun issue member => ?_
  simp only [Attribute.ofToken] at member
  split at member
  · obtain ⟨value, quote, read, -⟩ := readValue_marked
      (t.text.takeWhile fun c => !(c == '=' || isBlank c)) _ _
    rw [read] at member
    split at member
    · rw [List.mem_singleton.mp member]
    · cases member
  · cases member

/-- Values are some of what is told to be open. -/
theorem openValues_openParts (issues : List Issue) : openValues (openParts issues) = openValues issues := by
  rw [openValues, openParts, List.filter_filter]
  refine List.filter_congr fun issue _ => ?_
  cases issue.fault <;> rfl

theorem openParts_ofToken (t : Token TokenKind) :
    openParts (Attribute.ofToken t).2 = (Attribute.ofToken t).2 := by
  refine List.filter_eq_self.mpr fun issue member => ?_
  rw [← openValues_ofToken] at member
  obtain ⟨-, value⟩ := List.mem_filter.mp member
  cases fault : issue.fault <;> simp_all [Fault.isOpen]

theorem readParts_attributes (name : List Char) (parts : List (Token TokenKind)) :
    (readParts name parts).1 =
        (parts.filter (·.kind == .attr)).map (fun t => (Attribute.ofToken t).1) ∧
      openParts (readParts name parts).2 =
        (parts.filter (·.kind == .attr)).flatMap fun t => (Attribute.ofToken t).2 := by
  induction parts with
  | nil => exact ⟨rfl, rfl⟩
  | cons t parts ih =>
      obtain ⟨attributes, issues⟩ := ih
      simp only [readParts]
      split
      next kind =>
        rw [List.filter_cons_of_pos (by simp [kind]), List.map_cons, List.flatMap_cons, ← attributes,
          ← issues, openParts_append, openParts_ofToken]
        exact ⟨rfl, rfl⟩
      next kind =>
        rw [List.filter_cons_of_neg (by simp [kind])]
        exact ⟨attributes, issues⟩
      next other _ =>
        rw [List.filter_cons_of_neg (by simpa using other)]
        exact ⟨attributes, issues⟩

theorem openParts_ofTokens (head : Token TokenKind) (parts : List (Token TokenKind))
    (close : Option (Token TokenKind)) : openParts (StartTag.ofTokens head parts close).2 =
      (Markup.tag head parts close).openParts := by
  rw [Markup.openParts, Markup.attributes,
    ← (readParts_attributes (lowerAscii (head.text.drop 1)) parts).2]
  simp only [StartTag.ofTokens]
  split
  · rw [openParts_append]
    exact List.append_nil _
  · rfl

namespace Builder

variable (b : Builder)

theorem openParts_missingEnds {fault : List Char → Fault}
    (other : ∀ name, (fault name).isOpen = false) (ended : List OpenElement) :
    openParts (missingEnds fault ended) = [] := by
  refine List.filter_eq_nil_iff.mpr fun issue member => ?_
  obtain ⟨e, -, rfl⟩ := List.mem_map.mp member
  simp [other]

theorem openParts_openTag (cap : Option Nat) (tag : StartTag) :
    openParts (b.openTag cap tag).2 = [] := by
  simp only [openTag]
  split
  · rfl
  split
  · split <;> rfl
  · rfl

theorem openParts_close (t : Token TokenKind) : openParts (b.close t).2 = [] := by
  have broken : openParts (if t.text.getLast? = some '>' then []
      else [⟨.unterminatedEndTag (endTagName t.text), t.span⟩]) = [] := by
    split <;> rfl
  simp only [close]
  split
  · rw [openParts_append, broken]
    rfl
  split
  · exact broken
  split
  · rw [openParts_append, broken]
    rfl
  · rw [openParts_append, broken, openParts_missingEnds fun _ => rfl]
    rfl

theorem openParts_takeIn (t : Token TokenKind) : openParts (b.takeIn t).2 = openToken t := by
  unfold takeIn openToken
  cases t.kind
  case comment => dsimp only; split <;> rfl
  case cdata => dsimp only; split <;> rfl
  case tagClose => exact openParts_close b t
  all_goals rfl

/-- A piece of markup tells of its own parts, and of no others. -/
theorem openParts_step (cap : Option Nat) (piece : Markup) :
    openParts (b.step cap piece).2 = piece.openParts := by
  cases piece with
  | tag head parts close =>
      rw [← openParts_ofTokens]
      exact (openParts_append ..).trans
        ((congrArg _ (openParts_openTag b cap _)).trans (List.append_nil _))
  | single t => exact openParts_takeIn b t

theorem openParts_run (cap : Option Nat) (pieces : List Markup) :
    openParts (b.run cap pieces).2 = pieces.flatMap Markup.openParts := by
  induction pieces generalizing b with
  | nil => rfl
  | cons piece pieces ih =>
      rw [List.flatMap_cons, ← ih (b.step cap piece).1, ← openParts_step b cap]
      exact openParts_append ..

end Builder

/-- **What is told to be open**, of each piece of markup in order, and of nothing else. -/
theorem openParts_buildTree (cap : Option Nat) (ts : List (Token TokenKind)) :
    openParts (buildTree cap ts).2 = (Markup.ofTokens ts).flatMap Markup.openParts := by
  rw [← Builder.openParts_run .empty cap]
  refine (openParts_append ..).trans ?_
  rw [Builder.openParts_missingEnds fun _ => rfl]
  exact List.append_nil _

theorem Markup.openValues_openParts (piece : Markup) :
    openValues piece.openParts = piece.attributes.flatMap fun t => (Attribute.ofToken t).2 := by
  cases piece with
  | tag head parts close =>
      rw [openParts, openValues, List.filter_flatMap]
      exact congrArg (List.flatMap · _) (funext openValues_ofToken)
  | single t =>
      rw [openParts, openToken]
      split
      · split <;> rfl
      · split <;> rfl
      · rfl

/-- **The values told to be open are those of the attributes in tags**, in their order. -/
theorem openValues_buildTree (cap : Option Nat) (ts : List (Token TokenKind)) :
    openValues (buildTree cap ts).2 =
      ((Markup.ofTokens ts).flatMap Markup.attributes).flatMap fun t => (Attribute.ofToken t).2 := by
  rw [← openValues_openParts, openParts_buildTree, openValues, List.filter_flatMap, List.flatMap_assoc]
  exact congrArg (List.flatMap · _) (funext Markup.openValues_openParts)

/-- The attributes of a page's elements are read off those of its markup, in their order. -/
theorem attributes_elements (cs : List Char) :
    (Page.ofText cs).elements.flatMap (·.tag.attributes) =
      ((Markup.ofTokens (tokenize cs)).flatMap Markup.attributes).map fun t =>
        (Attribute.ofToken t).1 := by
  have own : ∀ piece : Markup, piece.startTag?.toList.flatMap StartTag.attributes =
      piece.attributes.map fun t => (Attribute.ofToken t).1 := by
    intro piece
    cases piece with
    | tag head parts close =>
        exact (List.append_nil _).trans (readParts_attributes _ parts).1
    | single t => rfl
  have tags := congrArg (List.flatMap StartTag.attributes) (tags_elements cs)
  rw [List.flatMap_map, List.filterMap_eq_flatMap_toList, List.flatMap_assoc] at tags
  simp only [own] at tags
  rw [tags, List.map_flatMap]

theorem Markup.mem_attributes {ts : List (Token TokenKind)}
    (member : t ∈ (ofTokens ts).flatMap attributes) : t ∈ ts ∧ t.kind = .attr := by
  obtain ⟨piece, isPiece, inside⟩ := List.mem_flatMap.mp member
  cases piece with
  | tag head parts close =>
      obtain ⟨part, attr⟩ := List.mem_filter.mp inside
      exact ⟨(tokens_sublist isPiece).subset (by simp [tokens, part]), eq_of_beq attr⟩
  | single u => cases inside

/-- **No two attributes of a page lie at one place.** -/
theorem nodup_attributeSpans (cs : List Char) :
    (((Page.ofText cs).elements.flatMap (·.tag.attributes)).map (·.span)).Nodup := by
  have spans : ((Page.ofText cs).elements.flatMap (·.tag.attributes)).map (·.span) =
      ((Markup.ofTokens (tokenize cs)).flatMap Markup.attributes).map Token.span := by
    rw [attributes_elements, List.map_map]
    exact List.map_congr_left fun t _ => span_ofToken t
  have part : ((Markup.ofTokens (tokenize cs)).flatMap Markup.attributes).Sublist (tokenize cs) := by
    conv_rhs => rw [← Markup.flatMap_tokens_ofTokens (tokenize cs)]
    refine List.Sublist.flatMap_right _ fun piece _ => ?_
    cases piece with
    | tag head parts close =>
        have inside : parts.Sublist (head :: parts ++ close.toList) :=
          (List.sublist_cons_self _ _).trans (List.sublist_append_left _ _)
        exact List.filter_sublist.trans inside
    | single t => exact List.nil_sublist _
  rw [spans]
  exact (nodup_spans cs).sublist (part.map _)

/-- So the place of an attribute tells its element. -/
theorem eq_of_attributeSpan {cs : List Char} {e e' : Element} {a b : Attribute}
    (inPage : e ∈ (Page.ofText cs).elements) (inPage' : e' ∈ (Page.ofText cs).elements)
    (own : a ∈ e.tag.attributes) (own' : b ∈ e'.tag.attributes) (same : a.span = b.span) :
    e = e' ∧ a = b := by
  have nodup := nodup_attributeSpans cs
  have one : a = b := List.inj_on_of_nodup_map nodup (List.mem_flatMap.mpr ⟨e, inPage, own⟩)
    (List.mem_flatMap.mpr ⟨e', inPage', own'⟩) same
  refine ⟨?_, one⟩
  by_contra different
  have apart := (List.nodup_flatMap.mp nodup.of_map).2
  rcases rel_or_rel_of_mem apart inPage inPage' different with disjoint | disjoint
  · exact disjoint own (one ▸ own')
  · exact disjoint (one ▸ own') own

/-! ## Attributes of a page -/

section Pages

variable {cs : List Char} {a : Attribute} {e : Element} {issue : Issue}

/-- The values of a page that are told to be open. -/
theorem openValues_ofText (cs : List Char) : openValues (Page.ofText cs).issues =
    ((Markup.ofTokens (tokenize cs)).flatMap Markup.attributes).flatMap fun t =>
      (Attribute.ofToken t).2 :=
  openValues_buildTree (some depthCap) (tokenize cs)

/-- A value that is told to lack its closing quote begins with a quote that does not end it. -/
theorem lacksQuote_of_told (told : issue ∈ openValues (Page.ofText cs).issues) :
    lacksQuote (Source.slice ⟨cs⟩ issue.span) := by
  rw [openValues_ofText] at told
  obtain ⟨t, isAttribute, own⟩ := List.mem_flatMap.mp told
  obtain ⟨member, attr⟩ := Markup.mem_attributes isAttribute
  obtain ⟨before, name, after, raw, -, isName, written, -⟩ := written_token member attr
  have holds := ((Page.reads_tokens cs).shows t member).holds
  generalize text : t.text = whole at written holds
  cases written with
  | bare =>
      rw [ofToken_bare isName text] at own
      cases own
  | @assigned gap margin raw _ gapBlank marginBlank begins =>
      rw [ofToken_assigned isName gapBlank marginBlank begins text] at own
      rw [assigned_parted] at holds
      obtain ⟨value, quote, read, -⟩ := readValue_marked name raw
        (t.span.start.after (name ++ (gap ++ '=' :: margin)))
      simp only [read] at own
      split at own
      next open_ =>
        rw [List.mem_singleton.mp own, Source.slice_of_holds holds.right]
        exact open_
      next => cases own

/-- **An attribute shows what it says**, in a source with these faults. -/
structure Attribute.Faithful (cs : List Char) (issues : List Issue) (a : Attribute) : Prop where
  /-- Its stretch is that of a token. -/
  token : ∃ t ∈ tokenize cs, t.kind = .attr ∧ t.span = a.span ∧ Source.slice ⟨cs⟩ a.span = t.text
  /-- Its name stands where it is said to, and holds no white space and no sign. -/
  name : Source.slice ⟨cs⟩ a.nameSpan = a.rawName ∧ a.rawName ≠ [] ∧
    ∀ c ∈ a.rawName, isBlank c = false ∧ c ∉ ['=', '"', '\'', '/', '<', '>']
  /-- It has no value just if no `=` follows its name in the source. -/
  absent : (a.value = none ↔ a.quote = .absent) ∧ (a.valueSpan = none ↔ a.quote = .absent) ∧
    ∃ before after, cs = before ++ (a.rawName ++ after) ∧
      a.nameSpan = .covering (Position.start.after before) a.rawName ∧
      (a.quote = .absent ↔ (trimStart after).head? ≠ some '=')
  /-- Its value ends the token and stands between the marks of its quote. The mark behind it is missing
  just if that is told, where the value stands. -/
  written : ∀ value ∈ a.value, ∃ s ∈ a.valueSpan, s.finish = a.span.finish ∧
    Source.slice ⟨cs⟩ s <:+ Source.slice ⟨cs⟩ a.span ∧
    ((∀ name, ⟨.unterminatedValue name, s⟩ ∉ issues) ∧
        Source.slice ⟨cs⟩ s = a.quote.mark ++ (value ++ a.quote.mark) ∨
      ⟨.unterminatedValue a.rawName, s⟩ ∈ issues ∧ a.quote.mark ≠ [] ∧
        Source.slice ⟨cs⟩ s = a.quote.mark ++ value)
  /-- Without the marks its value is what stands there. -/
  inner : a.innerSpan?.map (Source.slice ⟨cs⟩) = a.value

theorem isAttributeName_iff : IsAttributeName name ↔
    name ≠ [] ∧ ∀ c ∈ name, isBlank c = false ∧ c ∉ ['=', '"', '\'', '/', '<', '>'] := by
  have signs : ∀ c, endsAttributeName c = false ↔
      isBlank c = false ∧ c ∉ ['=', '"', '\'', '/', '<', '>'] := by
    intro c
    rw [endsAttributeName_eq_false_iff, endsTagName_eq_false_iff]
    simp [isQuote]
    tauto
  simp only [IsAttributeName, signs]

/-- **Attributes are read as they are written.** Of every attribute of every element of a page the
source shows the token at its stretch, its name and its value, where it has one: just if a `=` follows
the name. A value that is quoted stands between its quotes, and lacks the second one just if that is
told. -/
theorem Page.attribute_faithful (inPage : e ∈ (Page.ofText cs).elements)
    (inTag : a ∈ e.tag.attributes) : a.Faithful cs (Page.ofText cs).issues := by
  have among : a ∈ (Page.ofText cs).elements.flatMap (·.tag.attributes) :=
    List.mem_flatMap.mpr ⟨e, inPage, inTag⟩
  rw [attributes_elements] at among
  obtain ⟨t, isAttribute, rfl⟩ := List.mem_map.mp among
  obtain ⟨member, attr⟩ := Markup.mem_attributes isAttribute
  have told : (Attribute.ofToken t).2 ⊆ (Page.ofText cs).issues := by
    intro issue own
    exact List.mem_of_mem_filter
      (openValues_ofText cs ▸ List.mem_flatMap.mpr ⟨t, isAttribute, own⟩)
  have shown := (Page.reads_tokens cs).shows t member
  have slice := Source.slice_of_shows shown
  obtain ⟨placed, -⟩ := Attribute.ofToken_placed shown
  obtain ⟨before, name, after, raw, whole, isName, written, span⟩ := written_token member attr
  have holds := shown.holds
  generalize text : t.text = letters at written holds span slice
  cases written with
  | bare none_ =>
      have named := Source.slice_of_holds holds
      rw [ofToken_bare isName text]
      refine ⟨⟨t, member, attr, rfl, slice.trans text.symm⟩, ⟨named, isAttributeName_iff.mp isName⟩,
        ⟨by simp, by simp, before, after, whole, ?_, by simpa using none_⟩, by simp, rfl⟩
      rw [span]
      rfl
  | @assigned gap margin raw follows gapBlank marginBlank begins =>
      have inner := placed.inner
      have read := ofToken_assigned isName gapBlank marginBlank begins text
      have named := Source.slice_of_holds holds.left
      have start : t.span.start = Position.start.after before := by rw [span, Span.covering_start]
      have finish : t.span.finish = (t.span.start.after (name ++ (gap ++ '=' :: margin))).after raw := by
        rw [← Position.after_append, ← assigned_parted, span]
        rfl
      rw [assigned_parted] at holds
      have valued := Source.slice_of_holds holds.right
      generalize t.span.start.after (name ++ (gap ++ '=' :: margin)) = p at read finish valued
      obtain ⟨value, quote, found, present, marked, stands⟩ := readValue_marked name raw p
      simp only [found] at read
      rw [read] at inner told ⊢
      refine ⟨⟨t, member, attr, rfl, slice.trans text.symm⟩, ⟨named, isAttributeName_iff.mp isName⟩,
        ⟨by simpa using present, by simpa using present, before, after, whole, by rw [start], ?_⟩,
        ?_, ?_⟩
      · simp [present, follows]
      · rintro v ⟨⟩
        refine ⟨.covering p raw, rfl, finish.symm, ?_, ?_⟩
        · rw [valued, slice, assigned_parted]
          exact List.suffix_append _ _
        · rw [valued]
          by_cases open_ : lacksQuote raw
          · rw [if_pos open_] at told stands
            exact .inr ⟨told List.mem_cons_self, marked open_, by simpa using stands⟩
          · rw [if_neg open_] at stands
            refine .inl ⟨fun other isTold => open_ ?_, stands⟩
            have isOpen := lacksQuote_of_told (List.mem_filter.mpr ⟨isTold, rfl⟩)
            rwa [valued] at isOpen
      · have within := Attribute.innerSpan?_eq (a := ⟨name, .covering t.span.start name, some value,
          some (.covering p raw), quote, t.span⟩) rfl rfl
        rw [within, Option.map_some]
        exact congrArg some (Source.slice_of_shows (inner value rfl _ within))

/-- A value over two lines with white space around its sign, a name alone, a value without quotes, an
empty one, and one whose quote the end of the page leaves open. -/
theorem Page.attribute_faithful_each :
    let text := "<a b = \"é\n\" c d=e/ f=''g='>h".toList
    ∃ e ∈ (Page.ofText text).elements,
      e.tag.attributes.map (fun a => (String.ofList a.rawName, a.quote, a.value.map String.ofList)) =
          [("b", .double, some "é\n"), ("c", .absent, none), ("d", .unquoted, some "e/"),
            ("f", .single, some ""), ("g", .single, some ">h")] ∧
        (∀ a ∈ e.tag.attributes, a.Faithful text (Page.ofText text).issues) ∧
        (openValues (Page.ofText text).issues).map Issue.fault = [.unterminatedValue ['g']] := by
  intro text
  have one : (Page.ofText text).elements.map (fun e => e.tag.attributes.map fun a =>
      (String.ofList a.rawName, a.quote, a.value.map String.ofList)) =
        [[("b", .double, some "é\n"), ("c", .absent, none), ("d", .unquoted, some "e/"),
          ("f", .single, some ""), ("g", .single, some ">h")]] := by decide +kernel
  obtain ⟨e, only, attributes⟩ := List.map_eq_singleton_iff.mp one
  have inPage : e ∈ (Page.ofText text).elements := only ▸ List.mem_singleton_self e
  exact ⟨e, inPage, attributes, fun a inTag => Page.attribute_faithful inPage inTag,
    by decide +kernel⟩

end Pages

end Html

end PageLint
