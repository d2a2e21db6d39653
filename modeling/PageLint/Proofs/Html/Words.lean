/-
# PageLint.Proofs.Html.Words — names in the markup of a page lie on one line

White space ends the name of an element and that of an attribute, in a start tag as in an end tag.
So the names in the tags of a page lie on one line each (`Page.worded_subjects`), and so do all
names that are told with what is wrong with it (`Page.named_issues`): those of tags, and those of
elements that are open, which their start tags have. What is told goes over several lines only
where it quotes markup of no use, from an odd sign to a whole bogus comment
(`Page.quotes_of_newline`).
-/
import PageLint.Proofs.Css.Words
import PageLint.Proofs.Html.Walk

namespace PageLint.Html

set_option autoImplicit false

open Text

variable {c : Char} {rest cs : List Char} {t : Token TokenKind}

/-! ## Names of start tags -/

theorem newline_notMem_scanContent (opens : (scanContent c rest).kind = .tagOpen) :
    '\n' ∉ c :: rest.take (scanContent c rest).more := by
  obtain rfl := eq_lt_of_startsMarkup (scanContent_tagOpen opens)
  rw [List.mem_cons, not_or]
  refine ⟨by decide, ?_⟩
  revert opens
  simp only [scanContent]
  split
  · rintro ⟨⟩
  split
  · rintro ⟨⟩
  split
  · rintro ⟨⟩
  split
  · split
    · split <;> rintro ⟨⟩
    · split
      · intro _
        have name := notMem_takeWhile (p := fun e => !endsTagName e) (c := '\n') (by decide)
        simp only [← take_extentWhile] at name
        exact name _
      · rintro ⟨⟩
    · rintro ⟨⟩
  · rintro ⟨⟩

theorem newline_notMem_scan {mode : Mode} (text : mode.HoldsText)
    (opens : (scan mode c rest).kind = .tagOpen) :
    '\n' ∉ c :: rest.take (scan mode c rest).more := by
  revert opens
  cases mode with
  | head =>
      rw [scan]
      split
      · rintro ⟨⟩
      · exact newline_notMem_scanContent
  | content => exact newline_notMem_scanContent
  | tag name =>
      rw [scan]
      split
      · exact newline_notMem_scanContent
      · exact fun opens => absurd opens (scanTag_spec name c rest).1
  | raw name kind =>
      rw [scan]
      split
      · exact newline_notMem_scanContent
      · rcases text with rfl | rfl <;> rintro ⟨⟩

theorem newline_notMem_tagOpen (member : t ∈ tokenize cs) (opens : t.kind = .tagOpen) :
    '\n' ∉ t.text := by
  have pieces : ∀ piece ∈ lexemes cs, piece.kind = .tagOpen → '\n' ∉ piece.text :=
    forall_cut (I := Mode.HoldsText) (fun mode c rest _ => scan_holdsText mode c rest)
      (fun _ _ _ text opens => newline_notMem_scan text opens) .head cs trivial
  exact pieces _ (mem_of_mem_locate member) opens

theorem mem_name_newline {tag : StartTag} : '\n' ∈ tag.name ↔ '\n' ∈ tag.rawName :=
  mem_lowerAscii_newline

/-- White space and `=` end the name of an attribute. -/
theorem newline_notMem_rawName (cs : List Char) :
    '\n' ∉ cs.takeWhile fun c => !(c == '=' || isBlank c) := notMem_takeWhile (by decide) cs

theorem newline_notMem_attributeName (t : Token TokenKind) :
    '\n' ∉ (Attribute.ofToken t).1.rawName := by
  rw [Attribute.ofToken]
  dsimp only
  split <;> exact newline_notMem_rawName t.text

theorem newline_notMem_readParts (name : List Char) (parts : List (Token TokenKind)) :
    ∀ a ∈ (readParts name parts).1, '\n' ∉ a.rawName := by
  induction parts with
  | nil => simp [readParts]
  | cons t parts ih =>
      simp only [readParts]
      split
      · exact List.forall_mem_cons.mpr ⟨newline_notMem_attributeName t, ih⟩
      · exact ih
      · exact ih

/-- A start tag of a page is worded. -/
theorem worded_ofTokens {head : Token TokenKind} {parts : List (Token TokenKind)}
    {close : Option (Token TokenKind)}
    (piece : .tag head parts close ∈ Markup.ofTokens (tokenize cs)) :
    (StartTag.ofTokens head parts close).1.Worded := by
  obtain ⟨kind, member⟩ := Markup.kind_of_mem_ofTokens piece
  have opening := newline_notMem_tagOpen member kind
  exact ⟨fun inside => opening (List.mem_of_mem_drop inside), newline_notMem_readParts _ parts⟩

/-- **The names in the tags of a page lie on one line each**, and so do the words in its
stylesheets. -/
theorem Page.worded_subjects (cs : List Char) :
    ∀ s ∈ nodesSubjects [] (Page.ofText cs).nodes, s.Worded := by
  intro s member
  obtain ⟨nodes, -, visits, -⟩ := Page.walked_in_order cs
  rw [visits] at member
  obtain ⟨stop, isStop, visited⟩ := List.mem_flatMap.mp member
  rcases List.mem_cons.mp visited with rfl | inSheet
  · have inTree : stop.node ∈ preorderIn (Page.ofText cs).nodes := by
      rw [← nodes]
      exact List.mem_map_of_mem isStop
    have shown : stop.node.entry ∈ (Markup.ofTokens (tokenize cs)).flatMap Markup.entries := by
      rw [← entries_buildTree (some depthCap)]
      exact List.mem_map_of_mem inTree
    obtain ⟨piece, isPiece, entry⟩ := List.mem_flatMap.mp shown
    obtain ⟨node, ancestors⟩ := stop
    cases node with
    | element tag children endTag span =>
        cases piece with
        | tag head parts close =>
            obtain ⟨rfl, -⟩ := Entry.element.inj (List.mem_singleton.mp entry)
            exact worded_ofTokens isPiece
        | single t =>
            rw [Markup.entries] at entry
            split at entry <;> simp [Node.entry] at entry
    | _ => trivial
  · obtain ⟨t, -, inside⟩ := List.mem_flatMap.mp inSheet
    exact Css.Sheet.worded_subjects t.text t.span.start s inside

/-! ## Names that are told -/

/-- The name that is told with a fault, of an element or of an attribute. -/
def Fault.name? : Fault → Option (List Char)
  | strayInTag _ name | unterminatedStartTag name | unterminatedEndTag name
  | unterminatedValue name | voidEndTag name | unexpectedEndTag name | notClosed name
  | unclosed name => some name
  | _ => none

/-- A fault that quotes what it is told of. -/
def Fault.Quotes : Fault → Prop
  | strayMarkup _ | strayInTag _ _ => True
  | _ => False

/-- If a name is told, it lies on one line. -/
def Issue.Named (issue : Issue) : Prop := ∀ name ∈ issue.fault.name?, '\n' ∉ name

theorem newline_notMem_endTagName (text : List Char) : '\n' ∉ Builder.endTagName text := by
  rw [Builder.endTagName, mem_lowerAscii_newline]
  exact notMem_takeWhile (by decide) _

theorem named_of_eq {issue : Issue} {name : List Char} (told : issue.fault.name? = some name)
    (one : '\n' ∉ name) : issue.Named := by
  intro other same
  rw [told, Option.mem_some] at same
  rwa [← same]

theorem named_of_none {issue : Issue} (none_ : issue.fault.name? = none) : issue.Named := by
  intro name told
  rw [none_] at told
  cases told

/-- A value that is not closed is told with the name of its attribute. -/
theorem fault_readValue {rawName raw : List Char} {p : Position} :
    ∀ issue ∈ (Attribute.readValue rawName p raw).2.2, issue.fault = .unterminatedValue rawName := by
  cases raw with
  | nil => simp [Attribute.readValue]
  | cons q body =>
      rw [Attribute.readValue]
      split
      · dsimp only
        split
        · simp
        · simp
      · simp

theorem named_ofToken (t : Token TokenKind) : ∀ issue ∈ (Attribute.ofToken t).2, issue.Named := by
  intro issue member
  simp only [Attribute.ofToken] at member
  split at member
  · exact named_of_eq (congrArg Fault.name? (fault_readValue issue member))
      (newline_notMem_rawName t.text)
  · cases member

theorem named_readParts {name : List Char} (one : '\n' ∉ name) (parts : List (Token TokenKind)) :
    ∀ issue ∈ (readParts name parts).2, issue.Named := by
  induction parts with
  | nil => simp [readParts]
  | cons t parts ih =>
      simp only [readParts]
      split
      · exact List.forall_mem_append.mpr ⟨named_ofToken t, ih⟩
      · exact List.forall_mem_cons.mpr ⟨named_of_eq rfl one, ih⟩
      · exact ih

/-- A piece of markup whose names lie on one line: that of its start tag, and those told with it. -/
def Markup.Worded : Markup → Prop
  | .tag head parts close => (StartTag.ofTokens head parts close).1.Worded
  | .single _ => True

theorem named_ofTokens {head : Token TokenKind} {parts : List (Token TokenKind)}
    {close : Option (Token TokenKind)} (worded : (StartTag.ofTokens head parts close).1.Worded) :
    ∀ issue ∈ (StartTag.ofTokens head parts close).2, issue.Named := by
  have name : '\n' ∉ lowerAscii (head.text.drop 1) := by
    rw [mem_lowerAscii_newline]
    exact worded.name
  have parts := named_readParts name parts
  simp only [StartTag.ofTokens]
  split
  · exact List.forall_mem_append.mpr ⟨parts, List.forall_mem_singleton.mpr (named_of_eq rfl name)⟩
  · exact parts

namespace Builder

variable {b : Builder}

theorem named_missingEnds {fault : List Char → Fault}
    (told : ∀ name, (fault name).name? = some name) {ended : List OpenElement} (held : ∀ e ∈ ended, e.tag.Worded) :
    ∀ issue ∈ missingEnds fault ended, issue.Named := by
  intro issue member
  obtain ⟨e, found, rfl⟩ := List.mem_map.mp member
  refine named_of_eq (told e.tag.name) ?_
  rw [mem_name_newline]
  exact (held e (List.mem_of_mem_filter found)).name

theorem named_openTag (cap : Option Nat) (tag : StartTag) :
    ∀ issue ∈ (b.openTag cap tag).2, issue.Named := by
  simp only [openTag]
  split
  · simp
  split
  · split
    · exact List.forall_mem_singleton.mpr (named_of_none rfl)
    · simp
  · simp

theorem named_close (held : ∀ tag ∈ b.tags, tag.Worded) (t : Token TokenKind) :
    ∀ issue ∈ (b.close t).2, issue.Named := by
  have name := newline_notMem_endTagName t.text
  have broken : ∀ issue ∈ (if t.text.getLast? = some '>' then []
      else [(⟨.unterminatedEndTag (endTagName t.text), t.span⟩ : Issue)]), issue.Named := by
    split
    · simp
    · exact List.forall_mem_singleton.mpr (named_of_eq rfl name)
  simp only [close]
  split
  · exact List.forall_mem_append.mpr
      ⟨broken, List.forall_mem_singleton.mpr (named_of_eq rfl name)⟩
  split
  · exact broken
  split
  · exact List.forall_mem_append.mpr
      ⟨broken, List.forall_mem_singleton.mpr (named_of_eq rfl name)⟩
  · refine List.forall_mem_append.mpr ⟨broken, named_missingEnds (fun _ => rfl) ?_⟩
    intro e member
    exact held e.tag (List.mem_map_of_mem ((List.takeWhile_sublist _).subset member))

theorem named_takeIn (held : ∀ tag ∈ b.tags, tag.Worded) (t : Token TokenKind) :
    ∀ issue ∈ (b.takeIn t).2, issue.Named := by
  rw [takeIn]
  split
  case h_3 =>
    split
    · exact List.forall_mem_singleton.mpr (named_of_none rfl)
    · simp
  case h_4 =>
    split
    · simp
    · exact List.forall_mem_singleton.mpr (named_of_none rfl)
  case h_8 => exact named_close held t
  all_goals first | exact List.forall_mem_singleton.mpr (named_of_none rfl) | simp

/-- Open elements keep worded tags, and what a piece tells is named. -/
theorem named_step (cap : Option Nat) (held : ∀ tag ∈ b.tags, tag.Worded) {piece : Markup}
    (worded : piece.Worded) : (∀ tag ∈ (b.step cap piece).1.tags, tag.Worded) ∧
      ∀ issue ∈ (b.step cap piece).2, issue.Named := by
  cases piece with
  | tag head parts close =>
      constructor
      · intro tag member
        rcases List.mem_cons.mp ((tags_openTag b cap _).subset member) with rfl | outer
        · exact worded
        · exact held tag outer
      · exact List.forall_mem_append.mpr ⟨named_ofTokens worded, named_openTag cap _⟩
  | single t =>
      exact ⟨fun tag member => held tag ((tags_takeIn b t).subset member), named_takeIn held t⟩

theorem named_run (cap : Option Nat) {pieces : List Markup} (held : ∀ tag ∈ b.tags, tag.Worded)
    (each : ∀ piece ∈ pieces, piece.Worded) : (∀ tag ∈ (b.run cap pieces).1.tags, tag.Worded) ∧
      ∀ issue ∈ (b.run cap pieces).2, issue.Named := by
  induction pieces generalizing b with
  | nil => exact ⟨held, by simp [run]⟩
  | cons piece pieces ih =>
      rw [List.forall_mem_cons] at each
      obtain ⟨step, issues⟩ := named_step cap held each.1
      obtain ⟨done, more⟩ := ih step each.2
      exact ⟨done, List.forall_mem_append.mpr ⟨issues, more⟩⟩

end Builder

/-- **All names that are told of a page lie on one line.** -/
theorem Page.named_issues (cs : List Char) : ∀ issue ∈ (Page.ofText cs).issues, issue.Named := by
  have none_ : ∀ tag ∈ Builder.empty.tags, tag.Worded := by simp [Builder.tags, Builder.empty]
  have each : ∀ piece ∈ Markup.ofTokens (tokenize cs), piece.Worded := by
    intro piece member
    cases piece with
    | tag head parts close => exact worded_ofTokens member
    | single t => trivial
  obtain ⟨held, issues⟩ := Builder.named_run (some depthCap) none_ each
  refine List.forall_mem_append.mpr ⟨issues, Builder.named_missingEnds (fun _ => rfl) ?_⟩
  intro e member
  exact held e.tag (List.mem_map_of_mem member)

/-- **What is told of the markup goes over several lines only where it quotes some of it.** -/
theorem Page.quotes_of_newline {issue : Issue} (member : issue ∈ (Page.ofText cs).issues)
    (broken : '\n' ∈ issue.fault.message.toList) : issue.fault.Quotes := by
  have named := named_issues cs issue member
  obtain ⟨fault, span⟩ := issue
  cases fault with
  | strayMarkup text => trivial
  | strayInTag text name => trivial
  | tooDeep cap =>
      have told : '\n' ∈ ("elements nested more than " ++ toString cap ++
        " levels deep are flattened").toList := broken
      simp [newline_notMem_toDigits cap] at told
  | unterminatedComment => exact absurd broken (by dsimp only; decide)
  | unterminatedCdata => exact absurd broken (by dsimp only; decide)
  | _ name => exact newline_notMem_around (by decide) (named name rfl) (by decide) broken

end PageLint.Html
