/-
# PageLint.Proofs.Html.Draft — pages as an author means them, and what the lexer reads of them

A `Draft` is a tree of elements, texts and comments without places. `Draft.write` writes it out
with all start tags, quotes and end tags, and `Draft.Fine` says which drafts can be read back:
each text and each value must leave alone the sign that would end it, no two texts may touch,
and no element may be one that a start tag inside it ends.

Written markup is cut where it was put together, whatever comes after it: a text at the markup
that follows (`cut_text`), a comment and a raw text at their first end (`cut_comment`,
`cut_raw`), a start tag between its name, its attributes and its `>` (`cut_opening`).
-/
import PageLint.Proofs.Html.Framing

namespace PageLint

set_option autoImplicit false

open Text

namespace Html

/-! ## Drafts -/

/-- A page, or a part of it, as an author means it. An attribute is a name with a value. -/
inductive Draft where
  | element (name : List Char) (attributes : List (List Char × List Char)) (children : List Draft)
  | text (text : List Char)
  | comment (body : List Char)

/-- An attribute after a space, its value in double quotes. -/
def writeAttribute (a : List Char × List Char) : List Char :=
  ' ' :: (a.1 ++ '=' :: '"' :: (a.2 ++ ['"']))

/-- A start tag. -/
def writeOpening (name : List Char) (attributes : List (List Char × List Char)) : List Char :=
  '<' :: (name ++ (attributes.flatMap writeAttribute ++ ['>']))

/-- An end tag. -/
def writeClosing (name : List Char) : List Char := '<' :: '/' :: (name ++ ['>'])

/-- A comment. -/
def writeComment (body : List Char) : List Char := "<!--".toList ++ (body ++ "-->".toList)

mutual

/-- A draft, written out. A void element is a start tag alone. -/
def Draft.write : Draft → List Char
  | .element name attributes children =>
    if voidElements.contains name then writeOpening name attributes
    else writeOpening name attributes ++ (writeAll children ++ writeClosing name)
  | .text t => t
  | .comment body => writeComment body

/-- Drafts, written out one after the other. -/
def writeAll : List Draft → List Char
  | [] => []
  | d :: ds => d.write ++ writeAll ds

end

namespace Draft

/-- The name of an element. -/
def name? : Draft → Option (List Char)
  | element name _ _ => some name
  | _ => none

/-- A text. -/
def IsText : Draft → Prop
  | text _ => True
  | _ => False

mutual

/-- How many elements that are not void lie on the longest way down. -/
def depth : Draft → Nat
  | .element name _ children => if voidElements.contains name then 0 else depthIn children + 1
  | _ => 0

/-- How many elements that are not void lie on the longest way down through some drafts. -/
def depthIn : List Draft → Nat
  | [] => 0
  | d :: ds => max d.depth (depthIn ds)

end

section Elements

variable {name : List Char} {attributes : List (List Char × List Char)} {children : List Draft}

theorem write_void (isVoid : name ∈ voidElements) :
    (element name attributes children).write = writeOpening name attributes := by
  rw [write, if_pos (List.contains_iff_mem.mpr isVoid)]

theorem write_solid (solid : name ∉ voidElements) :
    (element name attributes children).write =
      writeOpening name attributes ++ (writeAll children ++ writeClosing name) := by
  rw [write, if_neg (mt List.contains_iff_mem.mp solid)]

theorem depth_solid (solid : name ∉ voidElements) :
    (element name attributes children).depth = depthIn children + 1 := by
  rw [depth, if_neg (mt List.contains_iff_mem.mp solid)]

end Elements

theorem depth_le_depthIn {d : Draft} {ds : List Draft} (member : d ∈ ds) :
    d.depth ≤ depthIn ds := by
  induction ds with
  | nil => cases member
  | cons e ds ih =>
      rw [depthIn]
      rcases List.mem_cons.mp member with rfl | later
      · exact Nat.le_max_left _ _
      · exact (ih later).trans (Nat.le_max_right _ _)

end Draft

/-- A name that a tag can bear: a letter, and then nothing that ends the name, all in small
letters. -/
structure IsTagName (name : List Char) : Prop where
  letter : ∃ c more, name = c :: more ∧ c.isAlpha
  plain : ∀ c ∈ name, endsTagName c = false
  small : lowerAscii name = name

/-- An attribute that can be written with double quotes: a name in small letters that holds
nothing that ends it, and a value without a double quote. -/
structure IsAttribute (a : List Char × List Char) : Prop where
  some_ : a.1 ≠ []
  plain : ∀ c ∈ a.1, endsAttributeName c = false
  small : lowerAscii a.1 = a.1
  value : '"' ∉ a.2

theorem endsTagName_eq_false_iff {c : Char} :
    endsTagName c = false ↔ isBlank c = false ∧ c ≠ '/' ∧ c ≠ '>' ∧ c ≠ '<' := by
  simp [endsTagName, and_assoc]

theorem endsAttributeName_eq_false_iff {c : Char} :
    endsAttributeName c = false ↔ endsTagName c = false ∧ c ≠ '=' ∧ isQuote c = false := by
  simp [endsAttributeName, and_assoc]

/-- What may stand in the name of an attribute is read up to the first `=` or white space. -/
theorem takeWhile_attributeName {name rest : List Char} (plain : ∀ c ∈ name, endsAttributeName c = false)
    (stops : ∀ c ∈ rest.head?, c = '=' ∨ isBlank c) :
    ((name ++ rest).takeWhile fun c => !(c == '=' || isBlank c)) = name := by
  apply takeWhile_append_stop
  · intro c member
    obtain ⟨tag, sign, -⟩ := endsAttributeName_eq_false_iff.mp (plain c member)
    simp [(endsTagName_eq_false_iff.mp tag).1, sign]
  · intro c head
    rcases stops c head with rfl | blank
    · rfl
    · simp [blank]

/-- A letter ends neither the name of an attribute nor that of a tag. -/
theorem endsAttributeName_of_isAlpha {c : Char} (letter : c.isAlpha) :
    endsAttributeName c = false := by
  have tag : endsTagName c = false :=
    endsTagName_eq_false_iff.mpr ⟨not_isBlank_of_isAlpha letter, ne_signs_of_isAlpha letter⟩
  have sign : c ≠ '=' := by
    rintro rfl
    cases letter
  have quote : isQuote c = false := by
    rw [Bool.eq_false_iff, ne_eq, isQuote_iff]
    rintro (rfl | rfl) <;> cases letter
  exact endsAttributeName_eq_false_iff.mpr ⟨tag, sign, quote⟩

/-- A word of small letters is a name of a tag. -/
theorem IsTagName.of_letters {name : List Char} (some_ : name ≠ [])
    (letters : ∀ c ∈ name, c.isAlpha) (small : lowerAscii name = name) : IsTagName name where
  letter := by
    cases name with
    | nil => exact absurd rfl some_
    | cons c name => exact ⟨c, name, rfl, letters c List.mem_cons_self⟩
  plain := by
    intro c member
    exact (endsAttributeName_eq_false_iff.mp (endsAttributeName_of_isAlpha (letters c member))).1
  small := small

/-- Elements whose content is not markup. -/
def unparsedElements : List (List Char) := rawTextElements ++ escapableElements

/-- Two neighbours that are not both texts. -/
def Draft.Apart (d e : Draft) : Prop := ¬ (d.IsText ∧ e.IsText)

/-- **Drafts that can be read back.** -/
inductive Draft.Fine : Draft → Prop
  | text {t : List Char} : t ≠ [] → '<' ∉ t → Fine (.text t)
  | comment {body : List Char} : ¬ "-->".toList <:+: body → Fine (.comment body)
  | void {name : List Char} {attributes : List (List Char × List Char)} :
      IsTagName name → (∀ a ∈ attributes, IsAttribute a) → name ∈ voidElements →
      Fine (.element name attributes [])
  | empty {name : List Char} {attributes : List (List Char × List Char)} :
      IsTagName name → (∀ a ∈ attributes, IsAttribute a) → name ∈ unparsedElements →
      Fine (.element name attributes [])
  | unparsed {name : List Char} {attributes : List (List Char × List Char)} {t : List Char} :
      IsTagName name → (∀ a ∈ attributes, IsAttribute a) → name ∈ unparsedElements →
      t ≠ [] → ¬ '<' :: '/' :: name <:+: lowerAscii t → Fine (.element name attributes [.text t])
  | element {name : List Char} {attributes : List (List Char × List Char)}
      {children : List Draft} :
      IsTagName name → (∀ a ∈ attributes, IsAttribute a) → name ∉ voidElements →
      name ∉ unparsedElements → (∀ child ∈ children, child.Fine) → children.IsChain Draft.Apart →
      (∀ child ∈ children, ∀ incoming ∈ child.name?, closedBy name incoming = false) →
      Fine (.element name attributes children)

/-- What an attribute means: its name, its value, and how that is quoted. -/
def Attribute.meaning (a : Attribute) : List Char × Option (List Char) × Quote :=
  (a.name, a.value, a.quote)

/-- A node says what a draft says: the same name and attributes, with double quotes, the same
content, and an end tag unless the element is void; the same text; or the same comment. -/
inductive Draft.Shown : Draft → Node → Prop
  | text {t : List Char} {u : TextNode} : u.text = t → Shown (.text t) (.text u)
  | comment {body : List Char} {c : Verbatim} :
      c.text = writeComment body → Shown (.comment body) (.comment c)
  | element {name : List Char} {attributes : List (List Char × List Char)}
      {children : List Draft} {tag : StartTag} {nodes : List Node} {endTag : Option Span}
      {span : Span} :
      tag.name = name →
      tag.attributes.map Attribute.meaning = attributes.map (fun a => (a.1, some a.2, .double)) →
      List.Forall₂ Shown children nodes → (endTag.isSome ↔ name ∉ voidElements) →
      Shown (.element name attributes children) (.element tag nodes endTag span)

/-! ## Where written markup is cut -/

variable {mode mode' : Mode} {kind : TokenKind} {c : Char} {tail rest part name : List Char}

/-- A scan that takes what was written. -/
theorem cut_of_scan (scanned : scan mode c (tail ++ rest) = ⟨kind, tail.length, mode'⟩) :
    cut scan mode (c :: tail ++ rest) = ⟨kind, c :: tail⟩ :: cut scan mode' rest := by
  rw [List.cons_append, cut_cons, scanned]
  simp

/-- Nothing is left, or markup follows. -/
def AtMarkup (rest : List Char) : Prop := rest = [] ∨ startsMarkup rest

theorem scanContent_plain (plain : c ≠ '<') (rest : List Char) :
    scanContent c rest = ⟨.text, extentUntil startsMarkup rest, .content⟩ := by
  have comment : "<!--".toList.isPrefixOf (c :: rest) = false := by
    simp [List.isPrefixOf, Ne.symm plain]
  have doctype : startsIgnoringCase "<!doctype" (c :: rest) = false := by
    have first : '<' ≠ c.toLower := fun same => plain (eq_of_toLower_eq same.symm rfl)
    simp [startsIgnoringCase, first]
  have cdata : "<![CDATA[".toList.isPrefixOf (c :: rest) = false := by
    simp [List.isPrefixOf, Ne.symm plain]
  have markup : startsMarkup (c :: rest) = false := by
    simpa using fun markup => plain (eq_lt_of_startsMarkup markup)
  simp only [scanContent, comment, doctype, cdata, markup, Bool.false_eq_true, if_false]

theorem cut_text (some_ : part ≠ []) (plain : '<' ∉ part) (stops : AtMarkup rest) :
    cut scan .content (part ++ rest) = ⟨.text, part⟩ :: cut scan .content rest := by
  cases part with
  | nil => exact absurd rfl some_
  | cons c tail =>
      simp only [List.mem_cons, not_or] at plain
      apply cut_of_scan
      rw [scan, scanContent_plain (Ne.symm plain.1), extentUntil_append _ stops]
      intro back ends _
      cases back with
      | nil => contradiction
      | cons d back =>
          have other : d ≠ '<' := fun same => plain.2 (same ▸ ends.subset List.mem_cons_self)
          simpa using fun markup => other (eq_lt_of_startsMarkup markup)

/-- No closing mark of a comment begins inside a body that holds none. -/
theorem comment_goes {back : List Char} (open_ : ¬ "-->".toList <:+: back) (some_ : back ≠ []) :
    ¬ "-->".toList <+: back ++ ("-->".toList ++ rest) := by
  have sign : "-->".toList = ['-', '-', '>'] := rfl
  rw [sign] at open_ ⊢
  intro leads
  match back with
  | [] => exact some_ rfl
  | [a] => simp at leads
  | [a, b] => simp at leads
  | a :: b :: c :: more =>
      have whole := List.prefix_of_prefix_length_le leads (List.prefix_append _ _) (by simp)
      exact open_ whole.isInfix

theorem cut_comment {body : List Char} (open_ : ¬ "-->".toList <:+: body) (rest : List Char) :
    cut scan .content (writeComment body ++ rest) =
      ⟨.comment, writeComment body⟩ :: cut scan .content rest := by
  have goes : ∀ back, back <:+ body → back ≠ [] →
      ¬ "-->".toList <+: back ++ ("-->".toList ++ rest) := by
    intro back ends some_
    exact comment_goes (fun inside => open_ (inside.trans ends.isInfix)) some_
  have through := extentThrough_append "-->".toList (by decide) goes
  have written : writeComment body = '<' :: '!' :: '-' :: '-' :: (body ++ "-->".toList) := rfl
  rw [written]
  refine cut_of_scan ?_
  have drop : ('!' :: '-' :: '-' :: (body ++ "-->".toList) ++ rest).drop 3 =
      body ++ ("-->".toList ++ rest) := List.append_assoc _ _ _
  have leads : "<!--".toList.isPrefixOf
      ('<' :: ('!' :: '-' :: '-' :: (body ++ "-->".toList) ++ rest)) = true := rfl
  simp only [scan, scanContent, leads, if_true, drop, through, List.length_cons, List.length_append]
  congr 1
  omega

/-- A name of a tag holds no `<`. -/
theorem IsTagName.lt_notMem (isName : IsTagName name) : '<' ∉ '/' :: name := by
  intro member
  rw [List.mem_cons] at member
  rcases member with slash | inside
  · contradiction
  · exact (endsTagName_eq_false_iff.mp (isName.plain '<' inside)).2.2.2 rfl

theorem lowerAscii_append (front back : List Char) :
    lowerAscii (front ++ back) = lowerAscii front ++ lowerAscii back := List.map_append

/-- An end tag in small letters. -/
theorem IsTagName.lowerAscii_closing (isName : IsTagName name) (rest : List Char) :
    lowerAscii (writeClosing name ++ rest) = '<' :: '/' :: name ++ '>' :: lowerAscii rest := by
  have small := isName.small
  rw [lowerAscii] at small
  simp [writeClosing, lowerAscii, small]

theorem IsTagName.lowerAscii_sign (isName : IsTagName name) :
    lowerAscii ('<' :: '/' :: name) = '<' :: '/' :: name :=
  congrArg ('<' :: '/' :: ·) isName.small

/-- What follows the start tag of an element whose content is not markup. -/
theorem modeAfterTag_unparsed (unparsed : name ∈ unparsedElements) :
    ∃ kind, (kind = .rawText ∨ kind = .text) ∧ modeAfterTag name = .raw name kind := by
  rw [modeAfterTag]
  split
  next => exact ⟨.rawText, .inl rfl, rfl⟩
  next other =>
    have escapable : escapableElements.contains name := by
      rw [List.contains_iff_mem] at other ⊢
      exact (List.mem_append.mp unparsed).resolve_left other
    rw [if_pos escapable]
    exact ⟨.text, .inr rfl, rfl⟩

theorem modeAfterTag_parsed (parsed : name ∉ unparsedElements) : modeAfterTag name = .content := by
  rw [unparsedElements, List.mem_append, not_or] at parsed
  simp [modeAfterTag, parsed.1, parsed.2]

/-- No element whose content is not markup is void. -/
theorem solid_of_unparsed (unparsed : name ∈ unparsedElements) : name ∉ voidElements := by
  have apart : ∀ name ∈ unparsedElements, name ∉ voidElements := by decide
  exact apart name unparsed

/-- Raw text ends where the end tag of its element is written. -/
theorem endsRaw_closing (isName : IsTagName name) (rest : List Char) :
    endsRaw name (writeClosing name ++ rest) := by
  rw [endsRaw, Bool.and_eq_true]
  constructor
  · rw [startsIgnoringCase_iff, isName.lowerAscii_sign, isName.lowerAscii_closing]
    exact List.prefix_append _ _
  · have left : (writeClosing name ++ rest).drop (name.length + 2) = '>' :: rest := by
      simp [writeClosing]
    rw [left]
    rfl

/-- Raw text does not end before, if it does not hold the end tag. -/
theorem endsRaw_goes (isName : IsTagName name) {back : List Char}
    (open_ : ¬ '<' :: '/' :: name <:+: lowerAscii back) (some_ : back ≠ []) :
    endsRaw name (back ++ (writeClosing name ++ rest)) = false := by
  have starts :
      ¬ startsIgnoringCase ('<' :: '/' :: name) (back ++ (writeClosing name ++ rest)) := by
    rw [startsIgnoringCase_iff, isName.lowerAscii_sign, lowerAscii_append,
      isName.lowerAscii_closing]
    exact sign_goes isName.lt_notMem open_ (by simpa [lowerAscii] using some_)
  rw [Bool.not_eq_true] at starts
  rw [endsRaw, starts, Bool.false_and]

/-- Raw text is taken up to the end tag of its element. -/
theorem cut_raw (isName : IsTagName name) {t : List Char} (some_ : t ≠ [])
    (open_ : ¬ '<' :: '/' :: name <:+: lowerAscii t) (kind : TokenKind) (rest : List Char) :
    cut scan (.raw name kind) (t ++ (writeClosing name ++ rest)) =
      ⟨kind, t⟩ :: cut scan .content (writeClosing name ++ rest) := by
  have whole : extentUntil (endsRaw name) (t ++ (writeClosing name ++ rest)) = t.length := by
    refine extentUntil_append ?_ (.inr (endsRaw_closing isName rest))
    intro back ends some_
    refine endsRaw_goes isName ?_ some_
    intro inside
    exact open_ (inside.trans (ends.isInfix.map Char.toLower))
  cases t with
  | nil => exact absurd rfl some_
  | cons c tail =>
      apply cut_of_scan
      rw [List.cons_append, List.length_cons] at whole
      simp only [scan, whole]

/-- An element whose content is not markup may have none. -/
theorem cut_noRaw (isName : IsTagName name) (kind : TokenKind) (rest : List Char) :
    cut scan (.raw name kind) (writeClosing name ++ rest) =
      cut scan .content (writeClosing name ++ rest) := by
  have ends := endsRaw_closing isName rest
  rw [writeClosing, List.cons_append] at ends ⊢
  rw [cut_cons, cut_cons]
  simp only [scan, extentUntil, ends, if_true]

/-- A letter after `<` begins a start tag, whose name goes on up to what ends it. -/
theorem scanContent_startTag {d : Char} (letter : d.isAlpha) (rest : List Char) :
    scanContent '<' (d :: rest) =
      ⟨.tagOpen, extentWhile (fun e => !endsTagName e) (d :: rest),
        .tag (lowerAscii ((d :: rest).takeWhile fun e => !endsTagName e))⟩ := by
  have slash : d ≠ '/' := (ne_signs_of_isAlpha letter).1
  have bang : '!' ≠ d := by
    rintro rfl
    cases letter
  have bang' : '!' ≠ d.toLower := fun same => bang (eq_of_toLower_eq same.symm rfl).symm
  simp [scanContent, startsMarkup, List.isPrefixOf, startsIgnoringCase, letter, slash, bang, bang',
    extentWhile]

/-- A name stops no run that goes up to the signs of a tag. -/
theorem IsTagName.extentWhile_closing (isName : IsTagName name) (rest : List Char) :
    extentWhile (fun e => e != '>' && e != '<') (name ++ '>' :: rest) = name.length := by
  apply extentWhile_append_stop
  · intro c member
    obtain ⟨-, -, close, open_⟩ := endsTagName_eq_false_iff.mp (isName.plain c member)
    simp [close, open_]
  · intro c member
    cases member
    rfl

/-- An end tag is taken as a whole. -/
theorem cut_closing (isName : IsTagName name) (rest : List Char) :
    cut scan .content (writeClosing name ++ rest) =
      ⟨.tagClose, writeClosing name⟩ :: cut scan .content rest := by
  have run := isName.extentWhile_closing rest
  obtain ⟨d, more, rfl, letter⟩ := isName.letter
  have sign : ((d :: more ++ '>' :: rest).drop (d :: more).length).head? = some '>' := by
    rw [List.drop_left]
    rfl
  have scanned : scan .content '<' ('/' :: (d :: more ++ ['>']) ++ rest) =
      ⟨.tagClose, ('/' :: (d :: more ++ ['>'])).length, .content⟩ := by
    have parted : '/' :: (d :: more ++ ['>']) ++ rest = '/' :: (d :: more ++ '>' :: rest) := by simp
    rw [parted, scan, List.cons_append, scanContent_endTag letter, ← List.cons_append, run, sign]
    simp
  exact cut_of_scan scanned

/-! ## Where a start tag is cut -/

/-- The lexemes of an attribute: the space before it, and itself. -/
def attributeLexemes (a : List Char × List Char) : List (Lexeme TokenKind) :=
  [⟨.blank, [' ']⟩, ⟨.attr, a.1 ++ '=' :: '"' :: (a.2 ++ ['"'])⟩]

/-- The lexemes of a start tag. -/
def openingLexemes (name : List Char) (attributes : List (List Char × List Char)) :
    List (Lexeme TokenKind) :=
  ⟨.tagOpen, '<' :: name⟩ :: (attributes.flatMap attributeLexemes ++ [⟨.tagEnd, ['>']⟩])

/-- The name of a start tag ends where something comes that ends it. -/
theorem cut_tagOpen (isName : IsTagName name) (stops : ∀ c ∈ rest.head?, endsTagName c) :
    cut scan .content ('<' :: name ++ rest) =
      ⟨.tagOpen, '<' :: name⟩ :: cut scan (.tag name) rest := by
  have inside : ∀ c ∈ name, (!endsTagName c) = true := by
    intro c member
    rw [isName.plain c member, Bool.not_false]
  have stops' : ∀ c ∈ rest.head?, (!endsTagName c) = false := by
    intro c member
    rw [stops c member, Bool.not_true]
  have run := extentWhile_append_stop inside stops'
  have taken := takeWhile_append_stop inside stops'
  have small := isName.small
  obtain ⟨d, more, rfl, letter⟩ := isName.letter
  refine cut_of_scan ?_
  rw [List.cons_append] at run taken ⊢
  rw [scan, scanContent_startTag letter, run, taken, small]

/-- A value in double quotes is taken through its second quote. -/
theorem assignmentExtent_quoted {value : List Char} (plain : '"' ∉ value) (rest : List Char) :
    assignmentExtent ('=' :: '"' :: (value ++ '"' :: rest)) = value.length + 3 := by
  have through := extentThrough_quote plain rest
  have gap : extentWhile isBlank ('=' :: '"' :: (value ++ '"' :: rest)) = 0 := rfl
  have margin : extentWhile isBlank ('"' :: (value ++ '"' :: rest)) = 0 := rfl
  have quote : isQuote '"' := rfl
  simp only [assignmentExtent, gap, margin, List.drop_zero, valueExtent, quote, if_true, through]
  omega

/-- An attribute is cut from the space before it. -/
theorem cut_attribute {a : List Char × List Char} (isAttribute : IsAttribute a)
    (rest : List Char) :
    cut scan (.tag name) (writeAttribute a ++ rest) =
      attributeLexemes a ++ cut scan (.tag name) rest := by
  obtain ⟨label, value⟩ := a
  obtain ⟨some_, plain, -, quoted⟩ := isAttribute
  cases label with
  | nil => exact absurd rfl some_
  | cons c more =>
      have whole : writeAttribute (c :: more, value) ++ rest =
          ' ' :: [] ++ (c :: (more ++ '=' :: '"' :: (value ++ ['"'])) ++ rest) := by
        simp [writeAttribute]
      rw [List.forall_mem_cons] at plain
      obtain ⟨tag, sign, quote⟩ := endsAttributeName_eq_false_iff.mp plain.1
      obtain ⟨blank, slash, close, open_⟩ := endsTagName_eq_false_iff.mp tag
      have run : extentWhile (fun d => !endsAttributeName d)
          (more ++ '=' :: '"' :: (value ++ '"' :: rest)) = more.length := by
        apply extentWhile_append_stop
        · intro d member
          rw [plain.2 d member, Bool.not_false]
        · intro d member
          cases member
          rfl
      have space : scan (.tag name) ' '
          ([] ++ (c :: (more ++ '=' :: '"' :: (value ++ ['"'])) ++ rest)) =
            ⟨.blank, 0, .tag name⟩ := by
        have begins : isBlank ' ' = true := rfl
        simp [scan, scanTag, begins, extentWhile, blank]
      have taken : scan (.tag name) c (more ++ '=' :: '"' :: (value ++ ['"']) ++ rest) =
          ⟨.attr, (more ++ '=' :: '"' :: (value ++ ['"'])).length, .tag name⟩ := by
        have assigned := assignmentExtent_quoted quoted rest
        have parted : more ++ '=' :: '"' :: (value ++ ['"']) ++ rest =
            more ++ '=' :: '"' :: (value ++ '"' :: rest) := by simp
        rw [parted]
        simp [scan, scanTag, blank, slash, close, open_, sign, quote, run, assigned]
      rw [whole, cut_of_scan space, cut_of_scan taken]
      rfl

theorem cut_attributes {attributes : List (List Char × List Char)}
    (good : ∀ a ∈ attributes, IsAttribute a) (rest : List Char) :
    cut scan (.tag name) (attributes.flatMap writeAttribute ++ rest) =
      attributes.flatMap attributeLexemes ++ cut scan (.tag name) rest := by
  induction attributes with
  | nil => rfl
  | cons a attributes ih =>
      rw [List.forall_mem_cons] at good
      rw [List.flatMap_cons, List.flatMap_cons, List.append_assoc, List.append_assoc,
        cut_attribute good.1, ih good.2]

theorem cut_tagEnd (name rest : List Char) :
    cut scan (.tag name) ('>' :: rest) =
      ⟨.tagEnd, ['>']⟩ :: cut scan (modeAfterTag name) rest := by
  have scanned : scan (.tag name) '>' ([] ++ rest) =
      ⟨.tagEnd, ([] : List Char).length, modeAfterTag name⟩ := rfl
  exact cut_of_scan scanned

/-- **A start tag is cut** into its name, its attributes and its `>`. -/
theorem cut_opening {attributes : List (List Char × List Char)} (isName : IsTagName name)
    (good : ∀ a ∈ attributes, IsAttribute a) (rest : List Char) :
    cut scan .content (writeOpening name attributes ++ rest) =
      openingLexemes name attributes ++ cut scan (modeAfterTag name) rest := by
  have whole : writeOpening name attributes ++ rest =
      '<' :: name ++ (attributes.flatMap writeAttribute ++ '>' :: rest) := by
    simp [writeOpening]
  have stops : ∀ c ∈ (attributes.flatMap writeAttribute ++ '>' :: rest).head?, endsTagName c := by
    cases attributes with
    | nil =>
        intro c member
        cases member
        rfl
    | cons a attributes =>
        intro c member
        cases member
        rfl
  rw [whole, cut_tagOpen isName stops, cut_attributes good, cut_tagEnd]
  simp [openingLexemes]

end Html

end PageLint
