/-
# PageLint.Proofs.Html.RoundTrip — reading a page undoes writing it

A fine draft is written out and read back: no fault is found, and the tree shows the draft
(`page_undoes_writing`). The induction over the draft carries more than the whole page needs,
as a draft may stand inside open elements and other markup may follow it: from any builder
that has room for it, and whose innermost element it does not end, reading its text adds one
node that shows it and leaves the builder as it was (`Draft.ReadBack`).
-/
import PageLint.Proofs.Html.Draft

namespace PageLint

set_option autoImplicit false

open Text

namespace Html

variable {name : List Char} {attributes : List (List Char × List Char)}

/-! ## Written tags, read -/

/-- Parts of a start tag and the sign that ends it belong to the name before them. -/
theorem Markup.ofTokens_tag {head e : Token TokenKind} {parts : List (Token TokenKind)}
    (opens : head.kind = .tagOpen) (between : ∀ t ∈ parts, isTagPart t) (ends : e.kind = .tagEnd)
    (rest : List (Token TokenKind)) :
    ofTokens (head :: (parts ++ e :: rest)) = .tag head parts (some e) :: ofTokens rest :=
  ofTokens_closed opens between (by simp [isTagEnd, ends])

/-- A value in double quotes is what stands between them. -/
theorem Attribute.readValue_quoted (rawName value : List Char) (p : Position) :
    readValue rawName p ('"' :: (value ++ ['"'])) = (value, .double, []) := by
  have inner : stripTail ['"'] (value ++ ['"']) = some value := by
    have ends : ['"'].isSuffixOf (value ++ ['"']) = true := by simp
    rw [stripTail, if_pos ends]
    simp
  have quote : isQuote '"' = true := rfl
  simp only [readValue, quote, if_true, inner]

/-- A written attribute is read as it was meant. -/
theorem Attribute.ofToken_written {a : List Char × List Char} (isAttribute : IsAttribute a)
    (span : Span) : ∃ found,
      ofToken ⟨.attr, a.1 ++ '=' :: '"' :: (a.2 ++ ['"']), span⟩ = (found, []) ∧
        found.meaning = (a.1, some a.2, .double) := by
  have label : ((a.1 ++ '=' :: '"' :: (a.2 ++ ['"'])).takeWhile
      fun c => !(c == '=' || isBlank c)) = a.1 :=
    takeWhile_attributeName isAttribute.plain fun c head => .inl (Option.some.inj head).symm
  have sign : trimStart ('=' :: '"' :: (a.2 ++ ['"'])) = '=' :: '"' :: (a.2 ++ ['"']) := rfl
  have quoted : trimStart ('"' :: (a.2 ++ ['"'])) = '"' :: (a.2 ++ ['"']) := rfl
  simp only [ofToken, label, List.drop_left, sign, quoted, readValue_quoted]
  refine ⟨_, rfl, ?_⟩
  rw [meaning, name, isAttribute.small]

/-- The attributes of a written start tag are read as they were meant. -/
theorem readParts_written (good : ∀ a ∈ attributes, IsAttribute a) (name : List Char)
    (p : Position) : ∃ found,
      readParts name (locate p (attributes.flatMap attributeLexemes)) = (found, []) ∧
        found.map Attribute.meaning = attributes.map fun a => (a.1, some a.2, .double) := by
  induction attributes generalizing p with
  | nil => exact ⟨[], rfl, rfl⟩
  | cons a attributes ih =>
      rw [List.forall_mem_cons] at good
      rw [List.flatMap_cons, attributeLexemes]
      simp only [List.cons_append, List.nil_append, locate, readParts]
      obtain ⟨others, read, rest⟩ := ih good.2 _
      obtain ⟨own, first, meaning⟩ := Attribute.ofToken_written good.1 _
      rw [read, first]
      exact ⟨own :: others, rfl, congrArg₂ List.cons meaning rest⟩

/-- A start tag says what was written: the name, the attributes, and a `>` at its end. -/
structure StartTag.Means (tag : StartTag) (name : List Char)
    (attributes : List (List Char × List Char)) : Prop where
  name : tag.name = name
  attributes : tag.attributes.map Attribute.meaning =
    attributes.map fun a => (a.1, some a.2, .double)
  open_ : tag.selfClosing = false
  whole : tag.finish.isSome

/-- **A written start tag is read as it was meant.** -/
theorem StartTag.ofTokens_written (isName : IsTagName name)
    (good : ∀ a ∈ attributes, IsAttribute a) (p : Position) (first last : Span) : ∃ tag,
      ofTokens ⟨.tagOpen, '<' :: name, first⟩ (locate p (attributes.flatMap attributeLexemes))
        (some ⟨.tagEnd, ['>'], last⟩) = (tag, []) ∧ tag.Means name attributes := by
  obtain ⟨found, read, meaning⟩ := readParts_written good (lowerAscii name) p
  simp only [ofTokens, List.drop_one, List.tail_cons, read]
  exact ⟨_, rfl, isName.small, meaning, rfl, rfl⟩

/-- A written end tag names its element. -/
theorem endTagName_closing (isName : IsTagName name) :
    Builder.endTagName (writeClosing name) = name := by
  have small := isName.small
  have slashes : Builder.endTagName.dropSlashes (writeClosing name) = name ++ ['>'] := by
    obtain ⟨d, more, rfl, letter⟩ := isName.letter
    rw [writeClosing, Builder.endTagName.dropSlashes]
    exact dropSlashes_of_isAlpha letter
  have trimmed : trimEndBy (· == '>') (name ++ ['>']) = name := by
    apply trimEndBy_append
    · intro c member
      obtain ⟨-, -, close, -⟩ := endsTagName_eq_false_iff.mp (isName.plain c member)
      simpa using close
    · simp
  have run : name.takeWhile (fun c => !(isBlank c || c == '/')) = name := by
    refine List.takeWhile_eq_self_iff.mpr ?_
    intro c member
    obtain ⟨blank, slash, -⟩ := endsTagName_eq_false_iff.mp (isName.plain c member)
    simp [blank, slash]
  rw [Builder.endTagName, slashes, trimmed, run, small]

/-! ## Reading from the middle of a page -/

namespace Builder

variable {cap : Option Nat} {b b' : Builder} {mode mode' : Mode} {part rest : List Char}

/-- What a text does to a builder when it stands at a place and is read in a mode. -/
def read (cap : Option Nat) (b : Builder) (mode : Mode) (p : Position) (cs : List Char) :
    Builder × List Issue :=
  b.run cap (Markup.ofTokens (locate p (cut scan mode cs)))

/-- A token that is no part of a start tag, taken in without a fault. -/
theorem read_single (cap : Option Nat) {kind : TokenKind} {p : Position}
    (cuts : cut scan mode (part ++ rest) = ⟨kind, part⟩ :: cut scan mode' rest)
    (other : kind ≠ .tagOpen) (takes : b.takeIn ⟨kind, part, .covering p part⟩ = (b', [])) :
    b.read cap mode p (part ++ rest) = b'.read cap mode' (p.after part) rest := by
  rw [read, cuts, locate, ofTokens_single other, run]
  simp only [step, takes, List.nil_append]
  rfl

/-- What the lexemes of attributes cover. -/
theorem texts_attributes (attributes : List (List Char × List Char)) :
    (attributes.flatMap attributeLexemes).flatMap Lexeme.text =
      attributes.flatMap writeAttribute := by
  rw [List.flatMap_assoc]
  congr 1
  funext a
  simp [attributeLexemes, writeAttribute]

/-- Attributes and the spaces before them are parts of a start tag. -/
theorem isTagPart_attributes {p : Position} {t : Token TokenKind}
    (member : t ∈ locate p (attributes.flatMap attributeLexemes)) : isTagPart t := by
  obtain ⟨a, -, own⟩ := List.mem_flatMap.mp (mem_of_mem_locate member)
  simp only [attributeLexemes, List.mem_cons, Lexeme.mk.injEq, List.not_mem_nil, or_false] at own
  rcases own with ⟨kind, -⟩ | ⟨kind, -⟩
  · simp [isTagPart, kind]
  · simp [isTagPart, kind]

/-- A written start tag, taken in without a fault. -/
theorem read_opening (isName : IsTagName name) (good : ∀ a ∈ attributes, IsAttribute a)
    (cap : Option Nat) (p : Position) : ∃ tag : StartTag, tag.Means name attributes ∧
      ∀ (b b' : Builder) (rest : List Char), b.openTag cap tag = (b', []) →
        b.read cap .content p (writeOpening name attributes ++ rest) =
          b'.read cap (modeAfterTag name) (p.after (writeOpening name attributes)) rest := by
  obtain ⟨tag, made, means⟩ := StartTag.ofTokens_written isName good (p.after ('<' :: name))
    (.covering p ('<' :: name))
    (.covering ((p.after ('<' :: name)).after (attributes.flatMap writeAttribute)) ['>'])
  refine ⟨tag, means, ?_⟩
  intro b b' rest opened
  have finish : p.after (writeOpening name attributes) =
      ((p.after ('<' :: name)).after (attributes.flatMap writeAttribute)).after ['>'] := by
    rw [← Position.after_append, ← Position.after_append, writeOpening]
    simp
  rw [read, cut_opening isName good, openingLexemes, List.cons_append, List.append_assoc, locate,
    locate_append, List.singleton_append, locate, texts_attributes,
    Markup.ofTokens_tag rfl (fun t => isTagPart_attributes) rfl, run, finish]
  simp only [step, made, opened, List.nil_append]
  rfl

/-! ## What written tags do -/

/-- A start tag ends nothing if it does not end the innermost open element. -/
theorem closeImplied_eq_self {incoming : List Char} (none_ : b.flattened = [])
    (keeps : ∀ tag ∈ b.tags.head?, closedBy tag.name incoming = false) :
    b.closeImplied incoming = b := by
  obtain ⟨stack, top, flattened⟩ := b
  cases none_
  cases stack with
  | nil => rfl
  | cons e outer =>
      have kept : closedBy e.tag.name incoming = false := keeps e.tag rfl
      simp [closeImplied, kept, closeMany]

/-- A builder with a further open element. -/
def push (b : Builder) (tag : StartTag) : Builder := { b with stack := ⟨tag, []⟩ :: b.stack }

/-- A builder is ready for a draft: nothing is flattened, there is room for what the draft
opens, and the draft does not end the innermost open element. -/
structure Ready (cap : Option Nat) (b : Builder) (d : Draft) : Prop where
  flattened : b.flattened = []
  room : ∀ n ∈ cap, b.tags.length + d.depth ≤ n
  keeps : ∀ incoming ∈ d.name?, ∀ tag ∈ b.tags.head?, closedBy tag.name incoming = false

variable {d : Draft} {children : List Draft}

theorem Ready.append (ready : Ready cap b d) (node : Node) : Ready cap (b.append node) d where
  flattened := (flattened_append b node).trans ready.flattened
  room := by
    rw [tags_append]
    exact ready.room
  keeps := by
    rw [tags_append]
    exact ready.keeps

/-- The start tag of a void element adds the element. -/
theorem Ready.openTag_void (ready : Ready cap b (.element name attributes children))
    {tag : StartTag} (means : tag.Means name attributes) (isVoid : name ∈ voidElements) :
    b.openTag cap tag = (b.append (.element tag [] none tag.span), []) := by
  have implied : b.closeImplied tag.name = b := by
    rw [means.name]
    exact closeImplied_eq_self ready.flattened (ready.keeps name rfl)
  have void : tag.isVoid := by
    rw [StartTag.isVoid, means.name]
    simpa using isVoid
  rw [openTag, implied]
  simp [void]

/-- The start tag of any other element opens it. -/
theorem Ready.openTag (ready : Ready cap b (.element name attributes children))
    {tag : StartTag} (means : tag.Means name attributes) (solid : name ∉ voidElements) :
    b.openTag cap tag = (b.push tag, []) := by
  have implied : b.closeImplied tag.name = b := by
    rw [means.name]
    exact closeImplied_eq_self ready.flattened (ready.keeps name rfl)
  have solid' : tag.isVoid = false := by
    rw [StartTag.isVoid, means.name]
    simpa using solid
  have whole : tag.finish.isNone = false := by
    simpa using means.whole
  have room : b.isFull cap = false := by
    cases cap with
    | none => rfl
    | some n =>
        have fits := ready.room n rfl
        rw [Draft.depth_solid solid, length_tags] at fits
        simp only [isFull, Option.any_some, decide_eq_false_iff_not]
        omega
  simp only [Builder.openTag, implied, solid', means.open_, whole, room]
  rfl

/-- An open element is ready for its children. -/
theorem Ready.push (ready : Ready cap b (.element name attributes children)) {tag : StartTag}
    (means : tag.Means name attributes) (solid : name ∉ voidElements)
    (member : d ∈ children) (keeps : ∀ incoming ∈ d.name?, closedBy name incoming = false) :
    Ready cap (b.push tag) d where
  flattened := ready.flattened
  room := by
    intro n bound
    have fits := ready.room n bound
    have within := Draft.depth_le_depthIn member
    rw [Draft.depth_solid solid] at fits
    have one : (b.push tag).tags.length = b.tags.length + 1 := rfl
    omega
  keeps := by
    rintro incoming named _ ⟨⟩
    rw [means.name]
    exact keeps incoming named

/-- Nodes go into the element that is open. -/
theorem foldl_append_push (b : Builder) (tag : StartTag) (nodes : List Node) :
    nodes.foldl append (b.push tag) = { b with stack := ⟨tag, nodes.reverse⟩ :: b.stack } := by
  have more : ∀ older, nodes.foldl append { b with stack := ⟨tag, older⟩ :: b.stack } =
      { b with stack := ⟨tag, nodes.reverse ++ older⟩ :: b.stack } := by
    induction nodes with
    | nil => exact fun older => rfl
    | cons node nodes ih =>
        intro older
        rw [List.foldl_cons, append, ih]
        simp
  rw [push, more, List.append_nil]

/-- A written end tag closes the innermost element, with the children that it has got. -/
theorem close_push (none_ : b.flattened = []) {tag : StartTag} (named : tag.name = name)
    (solid : name ∉ voidElements) (isName : IsTagName name) (nodes : List Node) (span : Span) :
    (nodes.foldl append (b.push tag)).close ⟨.tagClose, writeClosing name, span⟩ =
      (b.append (.element tag nodes (some span) ⟨tag.span.start, span.finish⟩), []) := by
  have whole : (writeClosing name).getLast? = some '>' :=
    List.getLast?_concat (l := '<' :: '/' :: name)
  have solid' : voidElements.contains name = false := by simpa using solid
  obtain ⟨stack, top, flattened⟩ := b
  cases none_
  rw [foldl_append_push]
  simp only [close, endTagName_closing isName, whole, solid']
  simp [named, closeMany, closeTop, OpenElement.close, missingEnds]

end Builder

/-! ## Drafts, read back -/

section ReadBack

variable {d : Draft} {ds children : List Draft} {rest : List Char}

/-- **Reading what is written of a draft adds one node that shows it**, wherever the draft
stands. A text must not be followed by what goes on with it. -/
def Draft.ReadBack (d : Draft) : Prop :=
  ∀ (cap : Option Nat) (b : Builder) (p : Position) (rest : List Char), b.Ready cap d →
    (d.IsText → AtMarkup rest) → ∃ node, d.Shown node ∧
      b.read cap .content p (d.write ++ rest) =
        (b.append node).read cap .content (p.after d.write) rest

/-- The drafts are read back from a mode, up to some text that follows. -/
def ReadBackAll (mode : Mode) (ds : List Draft) (rest : List Char) : Prop :=
  ∀ (cap : Option Nat) (b : Builder) (p : Position), (∀ d ∈ ds, b.Ready cap d) →
    ∃ nodes, List.Forall₂ Draft.Shown ds nodes ∧
      b.read cap mode p (writeAll ds ++ rest) =
        (nodes.foldl Builder.append b).read cap .content (p.after (writeAll ds)) rest

/-- All that is not a text begins with markup. -/
theorem Draft.Fine.startsMarkup (fine : d.Fine) (other : ¬ d.IsText) (rest : List Char) :
    startsMarkup (d.write ++ rest) := by
  have opening : ∀ {name attributes} (more : List Char), IsTagName name →
      Html.startsMarkup (writeOpening name attributes ++ more) := by
    intro name attributes more isName
    obtain ⟨c, rest, rfl, letter⟩ := isName.letter
    simp [writeOpening, Html.startsMarkup, letter]
  have element : ∀ {name attributes children}, IsTagName name →
      Html.startsMarkup ((Draft.element name attributes children).write ++ rest) := by
    intro name attributes children isName
    by_cases isVoid : name ∈ voidElements
    · rw [Draft.write_void isVoid]
      exact opening rest isName
    · rw [Draft.write_solid isVoid, List.append_assoc]
      exact opening _ isName
  cases fine with
  | text _ _ => exact absurd trivial other
  | comment _ => rfl
  | void isName _ _ => exact element isName
  | empty isName _ _ => exact element isName
  | unparsed isName _ _ _ _ => exact element isName
  | element isName _ _ _ _ _ _ => exact element isName

/-- Drafts that are read back each by itself are read back one after the other. -/
theorem readBackAll (fine : ∀ d ∈ ds, d.Fine) (each : ∀ d ∈ ds, d.ReadBack)
    (apart : ds.IsChain Draft.Apart) (ends : AtMarkup rest) : ReadBackAll .content ds rest := by
  induction ds with
  | nil => exact fun cap b p _ => ⟨[], .nil, rfl⟩
  | cons d ds ih =>
      rw [List.forall_mem_cons] at fine each
      intro cap b p ready
      rw [List.forall_mem_cons] at ready
      have follows : d.IsText → AtMarkup (writeAll ds ++ rest) := by
        intro isText
        cases ds with
        | nil => exact ends
        | cons e ds =>
            have other : ¬ e.IsText := by
              intro also
              exact (List.isChain_cons_cons.mp apart).1 ⟨isText, also⟩
            rw [writeAll, List.append_assoc]
            exact .inr ((fine.2 e List.mem_cons_self).startsMarkup other _)
      obtain ⟨node, shown, first⟩ := each.1 cap b p (writeAll ds ++ rest) ready.1 follows
      obtain ⟨nodes, others, later⟩ := ih fine.2 each.2 apart.tail cap (b.append node)
        (p.after d.write) fun e member => (ready.2 e member).append node
      refine ⟨node :: nodes, .cons shown others, ?_⟩
      rw [writeAll, List.append_assoc, first, later, ← Position.after_append]
      rfl

/-- **An element is read back if its content is.** -/
theorem readBack_element (isName : IsTagName name) (good : ∀ a ∈ attributes, IsAttribute a)
    (solid : name ∉ voidElements)
    (keeps : ∀ child ∈ children, ∀ incoming ∈ child.name?, closedBy name incoming = false)
    (content : ∀ rest, ReadBackAll (modeAfterTag name) children (writeClosing name ++ rest)) :
    (Draft.element name attributes children).ReadBack := by
  intro cap b p rest ready _
  obtain ⟨tag, means, opening⟩ := Builder.read_opening isName good cap p
  have opened := opening b (b.push tag) (writeAll children ++ (writeClosing name ++ rest))
    (ready.openTag means solid)
  obtain ⟨nodes, shown, inside⟩ := content rest cap (b.push tag)
    (p.after (writeOpening name attributes))
    fun child member => ready.push means solid member (keeps child member)
  rw [Draft.write_solid solid, Position.after_append, Position.after_append, List.append_assoc,
    List.append_assoc, opened, inside]
  generalize (p.after (writeOpening name attributes)).after (writeAll children) = q
  have closed := Builder.close_push ready.flattened means.name solid isName nodes
    (.covering q (writeClosing name))
  have ended := Builder.read_single cap (cut_closing isName rest) nofun closed
  rw [ended]
  exact ⟨_, .element means.name means.attributes shown (iff_of_true rfl solid), rfl⟩

/-- A token that makes a text, taken in. -/
theorem Builder.takeIn_text (b : Builder) {t : Token TokenKind}
    (text : t.kind = .rawText ∨ t.kind = .text) :
    ∃ raw, b.takeIn t = (b.append (.text ⟨t.text, raw, t.span⟩), []) := by
  rw [takeIn]
  rcases text with kind | kind
  · rw [kind]
    exact ⟨true, rfl⟩
  · rw [kind]
    exact ⟨false, rfl⟩

/-- A written comment is ended, and so taken in without a fault. -/
theorem Builder.takeIn_comment (b : Builder) (body : List Char) (span : Span) :
    b.takeIn ⟨.comment, writeComment body, span⟩ =
      (b.append (.comment ⟨writeComment body, span⟩), []) := by
  have long : ¬ (writeComment body).length < 7 := by
    have four : "<!--".toList.length = 4 := rfl
    have three : "-->".toList.length = 3 := rfl
    rw [writeComment, List.length_append, List.length_append]
    omega
  have ended : "-->".toList.isSuffixOf (writeComment body) = true := by
    rw [List.isSuffixOf_iff_suffix, writeComment, ← List.append_assoc]
    exact List.suffix_append _ _
  simp only [takeIn, long, ended, decide_false, Bool.not_true, Bool.or_self, Bool.false_eq_true,
    if_false]

/-- **Every fine draft is read back.** The induction is on what makes it fine. -/
theorem Draft.Fine.readBack (fine : d.Fine) : d.ReadBack := by
  induction fine with
  | text some_ plain =>
      intro cap b p rest _ stops
      obtain ⟨raw, takes⟩ := b.takeIn_text (t := ⟨.text, _, .covering p _⟩) (.inr rfl)
      exact ⟨_, .text rfl,
        Builder.read_single cap (cut_text some_ plain (stops trivial)) nofun takes⟩
  | @comment body open_ =>
      intro cap b p rest ready _
      have takes := b.takeIn_comment body (.covering p (writeComment body))
      exact ⟨_, .comment rfl, Builder.read_single cap (cut_comment open_ rest) nofun takes⟩
  | @void name attributes isName good isVoid =>
      intro cap b p rest ready _
      obtain ⟨tag, means, opening⟩ := Builder.read_opening isName good cap p
      have shown : (Draft.element name attributes []).Shown (.element tag [] none tag.span) :=
        .element means.name means.attributes .nil (iff_of_false nofun (not_not.mpr isVoid))
      refine ⟨_, shown, ?_⟩
      have parsed : name ∉ unparsedElements := fun unparsed => solid_of_unparsed unparsed isVoid
      rw [Draft.write_void isVoid, opening b _ rest (ready.openTag_void means isVoid),
        modeAfterTag_parsed parsed]
  | empty isName good unparsed =>
      refine readBack_element isName good (solid_of_unparsed unparsed) (by simp) ?_
      intro rest cap b p _
      obtain ⟨kind, -, mode⟩ := modeAfterTag_unparsed unparsed
      refine ⟨[], .nil, ?_⟩
      rw [mode, Builder.read, writeAll, List.nil_append, cut_noRaw isName]
      rfl
  | @unparsed name attributes t isName good unparsed some_ open_ =>
      refine readBack_element isName good (solid_of_unparsed unparsed) ?_ ?_
      · intro child member incoming named
        cases List.mem_singleton.mp member
        cases named
      · intro rest cap b p _
        obtain ⟨kind, text, mode⟩ := modeAfterTag_unparsed unparsed
        obtain ⟨raw, takes⟩ := b.takeIn_text (t := ⟨kind, t, .covering p t⟩) text
        have other : kind ≠ .tagOpen := by
          rintro rfl
          rcases text with same | same <;> cases same
        have shown : Draft.Shown (.text t) (.text ⟨t, raw, .covering p t⟩) := .text rfl
        refine ⟨_, .cons shown .nil, ?_⟩
        rw [mode]
        simp only [writeAll, Draft.write, List.append_nil]
        exact Builder.read_single cap (cut_raw isName some_ open_ kind rest) other takes
  | element isName good solid parsed fine apart keeps ih =>
      refine readBack_element isName good solid keeps ?_
      intro rest
      rw [modeAfterTag_parsed parsed]
      exact readBackAll fine ih apart (.inr rfl)

end ReadBack

/-! ## Whole pages -/

theorem foldl_append_top (nodes top : List Node) :
    nodes.foldl Builder.append ⟨[], top, []⟩ = ⟨[], nodes.reverse ++ top, []⟩ := by
  induction nodes generalizing top with
  | nil => rfl
  | cons node nodes ih => simp [Builder.append, ih]

/-- A page that begins with no byte order mark is read in content from the start. -/
theorem cut_head {cs : List Char} (noMark : cs.head? ≠ some '\uFEFF') :
    cut scan .head cs = cut scan .content cs := by
  cases cs with
  | nil => rw [cut_nil, cut_nil]
  | cons c rest =>
      have other : c ≠ '\uFEFF' := fun same => noMark (congrArg some same)
      rw [cut_cons, cut_cons]
      simp only [scan, other, if_false]

/-- **Reading a page undoes writing it.** Take fine drafts, no two texts side by side, that begin
with no byte order mark and nest no deeper than the cap. What is written of them is read without
a fault, and its nodes show the drafts: the same names, attributes, texts and comments, in the
same tree, each element with an end tag of its own unless it is void. -/
theorem page_undoes_writing {drafts : List Draft} (fine : ∀ d ∈ drafts, d.Fine)
    (apart : drafts.IsChain Draft.Apart) (noMark : (writeAll drafts).head? ≠ some '\uFEFF')
    (shallow : Draft.depthIn drafts ≤ depthCap) :
    (Page.ofText (writeAll drafts)).issues = [] ∧
      List.Forall₂ Draft.Shown drafts (Page.ofText (writeAll drafts)).nodes := by
  have ready : ∀ d ∈ drafts, Builder.empty.Ready (some depthCap) d := by
    intro d member
    refine ⟨rfl, ?_, ?_⟩
    · rintro n ⟨⟩
      have within := Draft.depth_le_depthIn member
      have none_ : Builder.empty.tags.length = 0 := rfl
      omega
    · rintro incoming - tag ⟨⟩
  obtain ⟨nodes, shown, whole⟩ := readBackAll fine (fun d member => (fine d member).readBack) apart
    (.inl rfl) (some depthCap) .empty .start ready
  rw [List.append_nil, Builder.read, ← cut_head noMark] at whole
  have run : Builder.empty.run (some depthCap) (Markup.ofTokens (tokenize (writeAll drafts))) =
      (⟨[], nodes.reverse, []⟩, []) := by
    rw [tokenize, lexemes, whole, Builder.read, cut_nil, locate, Markup.ofTokens, Builder.run,
      Builder.empty, foldl_append_top, List.append_nil]
  have built : buildTree (some depthCap) (tokenize (writeAll drafts)) = (nodes, []) := by
    simp [buildTree, run, Builder.finish, Builder.closeMany, Builder.missingEnds]
  simp only [Page.ofText, built]
  exact ⟨trivial, shown⟩

/-- A paragraph with a break and a comment in it, and a stylesheet beside it. -/
theorem page_undoes_writing_paragraph :
    let drafts : List Draft :=
      [.element "p" [("id", "a b")] [.text "x", .element "br" [] [], .comment "y"],
        .element "style" [] [.text "p < a"]]
    writeAll drafts = "<p id=\"a b\">x<br><!--y--></p><style>p < a</style>".toList ∧
      (Page.ofText (writeAll drafts)).issues = [] ∧
        List.Forall₂ Draft.Shown drafts (Page.ofText (writeAll drafts)).nodes := by
  intro drafts
  have p_ : IsTagName "p".toList := .of_letters nofun (List.all_eq_true.mp rfl) rfl
  have br_ : IsTagName "br".toList := .of_letters nofun (List.all_eq_true.mp rfl) rfl
  have style_ : IsTagName "style".toList := .of_letters nofun (List.all_eq_true.mp rfl) rfl
  have id_ : ∀ a ∈ [("id".toList, "a b".toList)], IsAttribute a := by
    have letters : ∀ c ∈ "id".toList, c.isAlpha := List.all_eq_true.mp rfl
    refine List.forall_mem_singleton.mpr ⟨nofun, ?_, rfl, by decide⟩
    exact fun c member => endsAttributeName_of_isAlpha (letters c member)
  have children : ∀ d ∈ [Draft.text "x", .element "br" [] [], .comment "y"], d.Fine := by
    intro d member
    simp only [List.mem_cons, List.not_mem_nil, or_false] at member
    rcases member with rfl | rfl | rfl
    · exact .text (by decide) (by decide)
    · exact .void br_ (by simp) (by decide)
    · exact .comment (by decide)
  have fine : ∀ d ∈ drafts, d.Fine := by
    intro d member
    simp only [drafts, List.mem_cons, List.not_mem_nil, or_false] at member
    rcases member with rfl | rfl
    · refine .element p_ id_ (by decide) (by decide) children ?_ ?_
      · simp [Draft.Apart, Draft.IsText]
      · have keeps : closedBy "p".toList "br".toList = false := by decide
        simpa [Draft.name?] using keeps
    · exact .unparsed style_ (by simp) (by decide) (by decide) (by decide)
  have apart : drafts.IsChain Draft.Apart := by simp [drafts, Draft.Apart, Draft.IsText]
  exact ⟨by decide, page_undoes_writing fine apart (by decide) (by decide)⟩

end Html

end PageLint
