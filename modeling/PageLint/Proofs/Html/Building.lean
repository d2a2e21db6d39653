/-
# PageLint.Proofs.Html.Building — what the tree keeps in place

The stretches of a page are those of its tokens, of the parts of an attribute's text, and
those that run from one token of a start tag to a later one. The parts of an attribute are
cut off its text from the front, so each stands where the parts before it end
(`Attribute.ofToken_placed`); the name in a start tag stands after its `<`, which begins
every token that opens a tag (`opens_tagOpen`).

`Builder.Placed` is what one piece of markup keeps (`step_placed`), and so a whole page
(`placed_buildTree`).
-/
import PageLint.Proofs.Css.Building
import PageLint.Proofs.Html.Open
import PageLint.Proofs.Text.Extent

namespace PageLint.Html

set_option autoImplicit false

open Text

variable {g : Passage}

/-! ## Tokens that open a tag -/

/-- Every piece of a cut has what every scan gives its piece. -/
theorem forall_cut {σ κ : Type} {scan : σ → Char → List Char → Scan σ κ} {I : σ → Prop}
    {Q : Lexeme κ → Prop} (keeps : ∀ s c rest, I s → I (scan s c rest).state)
    (gives : ∀ s c rest, I s → Q ⟨(scan s c rest).kind, c :: rest.take (scan s c rest).more⟩)
    (s : σ) (cs : List Char) (begins : I s) : ∀ piece ∈ cut scan s cs, Q piece := by
  fun_induction cut scan s cs with
  | case1 => simp
  | case2 s c rest here ih =>
      exact List.forall_mem_cons.mpr ⟨gives s c rest begins, ih (keeps s c rest begins)⟩

/-- What is read as raw is text. -/
def Mode.HoldsText : Mode → Prop
  | .raw _ kind => kind = .rawText ∨ kind = .text
  | _ => True

theorem scanContent_tagOpen {c : Char} {rest : List Char}
    (opens : (scanContent c rest).kind = .tagOpen) : startsMarkup (c :: rest) := by
  by_contra plain
  simp only [scanContent, plain] at opens
  split at opens
  · cases opens
  split at opens
  · cases opens
  split at opens <;> cases opens

theorem scanContent_holdsText (c : Char) (rest : List Char) :
    (scanContent c rest).state.HoldsText := by
  simp only [scanContent]
  repeat' split
  all_goals trivial

theorem modeAfterTag_holdsText (name : List Char) : (modeAfterTag name).HoldsText := by
  rw [modeAfterTag]
  split
  · exact .inl rfl
  split
  · exact .inr rfl
  · trivial

theorem scanTag_spec (name : List Char) (c : Char) (rest : List Char) :
    (scanTag name c rest).kind ≠ .tagOpen ∧ (scanTag name c rest).state.HoldsText := by
  simp only [scanTag]
  split
  · exact ⟨nofun, trivial⟩
  split
  · exact ⟨nofun, modeAfterTag_holdsText name⟩
  repeat' split
  all_goals exact ⟨nofun, trivial⟩

theorem scan_holdsText (mode : Mode) (c : Char) (rest : List Char) :
    (scan mode c rest).state.HoldsText := by
  cases mode with
  | head =>
      rw [scan]
      split
      · trivial
      · exact scanContent_holdsText c rest
  | content => exact scanContent_holdsText c rest
  | tag name =>
      rw [scan]
      split
      · exact scanContent_holdsText c rest
      · exact (scanTag_spec name c rest).2
  | raw name kind =>
      rw [scan]
      split
      · exact scanContent_holdsText c rest
      · trivial

theorem eq_lt_of_startsMarkup {c : Char} {rest : List Char} (markup : startsMarkup (c :: rest)) :
    c = '<' := by
  rw [startsMarkup.eq_def] at markup
  split at markup
  next same => exact (List.cons.inj same).1
  next => simp at markup

theorem scan_tagOpen {mode : Mode} {c : Char} {rest : List Char} (text : mode.HoldsText)
    (opens : (scan mode c rest).kind = .tagOpen) : c = '<' := by
  cases mode with
  | head =>
      rw [scan] at opens
      split at opens
      · cases opens
      · exact eq_lt_of_startsMarkup (scanContent_tagOpen opens)
  | content => exact eq_lt_of_startsMarkup (scanContent_tagOpen opens)
  | tag name =>
      rw [scan] at opens
      split at opens
      · assumption
      · exact absurd opens (scanTag_spec name c rest).1
  | raw name kind =>
      rw [scan] at opens
      split at opens
      · exact eq_lt_of_startsMarkup (scanContent_tagOpen opens)
      · rcases text with rfl | rfl <;> cases opens

/-- A token that opens a tag begins with its `<`. -/
def Opens (t : Token TokenKind) : Prop := t.kind = .tagOpen → ∃ name, t.text = '<' :: name

theorem opens_tagOpen (cs : List Char) : ∀ t ∈ tokenize cs, Opens t := by
  have pieces : ∀ piece ∈ lexemes cs, piece.kind = .tagOpen → ∃ name, piece.text = '<' :: name := by
    refine forall_cut (I := Mode.HoldsText) (fun mode c rest _ => scan_holdsText mode c rest) ?_
      .head cs trivial
    intro mode c rest text opens
    exact ⟨_, by rw [scan_tagOpen text opens]⟩
  intro t member
  exact pieces _ (mem_of_mem_locate member)

/-! ## Attributes -/

/-- Where a value begins that is quoted in this way and written at `p`. -/
def Quote.inside (quote : Quote) (p : Position) : Position :=
  match quote with
  | .double => p.next '"'
  | .single => p.next '\''
  | _ => p

theorem Attribute.innerSpan?_eq {a : Attribute} {s : Span} {v : List Char}
    (span : a.valueSpan = some s) (value : a.value = some v) :
    a.innerSpan? = some (.covering (a.quote.inside s.start) v) := by
  simp only [Attribute.innerSpan?, span, value]
  cases a.quote <;> rfl

/-- A value stands past the quote of its text. -/
theorem readValue_spec (rawName : List Char) {raw : List Char} {p : Position} (holds : g.Holds p raw) :
    g.Holds ((Attribute.readValue rawName p raw).2.1.inside p)
        (Attribute.readValue rawName p raw).1 ∧
      ∀ issue ∈ (Attribute.readValue rawName p raw).2.2, g.Covers issue.span := by
  cases raw with
  | nil => exact ⟨holds, by simp [Attribute.readValue]⟩
  | cons q body =>
      rw [Attribute.readValue]
      split
      next quote =>
        have place : Quote.inside (if q = '"' then .double else .single) p = p.next q := by
          rcases isQuote_iff.mp quote with rfl | rfl <;> rfl
        have after := holds.tail
        dsimp only
        split
        next inner strip =>
          rw [place]
          exact ⟨after.leading (stripTail_leads strip), by simp⟩
        next =>
          rw [place]
          exact ⟨after, List.forall_mem_singleton.mpr holds.covers⟩
      next => exact ⟨holds, by simp⟩

theorem Attribute.ofToken_placed {t : Token TokenKind} (shown : g.Shows t.span t.text) :
    (Attribute.ofToken t).1.Placed g ∧ ∀ issue ∈ (Attribute.ofToken t).2, g.Covers issue.span := by
  have name : g.Holds t.span.start (t.text.takeWhile fun c => !(c == '=' || isBlank c)) :=
    shown.1.leading <| List.takeWhile_prefix _
  simp only [Attribute.ofToken]
  split
  next afterSign left =>
    have ending : trimStart afterSign <:+ t.text := by
      refine (trimStart_suffix afterSign).trans ?_
      refine (List.suffix_cons '=' afterSign).trans ?_
      rw [← left]
      exact (trimStart_suffix _).trans (List.drop_suffix _ _)
    have holds := shown.1.ending ending
    obtain ⟨inner, issues⟩ :=
      readValue_spec (t.text.takeWhile fun c => !(c == '=' || isBlank c)) holds
    refine ⟨⟨name.covers, ?_, ?_, shown.covers⟩, issues⟩
    · rintro s ⟨⟩
      exact holds.covers
    · rintro v ⟨⟩ s found
      rw [Attribute.innerSpan?_eq rfl rfl] at found
      rw [← Option.some.inj found]
      exact inner.shows
  next => exact ⟨⟨name.covers, by simp, by simp, shown.covers⟩, by simp⟩

/-! ## Start tags -/

theorem readParts_placed {name : List Char} {ts : List (Token TokenKind)} (reads : g.Reads ts) :
    (∀ a ∈ (readParts name ts).1, a.Placed g) ∧
      ∀ issue ∈ (readParts name ts).2, g.Covers issue.span := by
  induction ts with
  | nil => exact ⟨by simp [readParts], by simp [readParts]⟩
  | cons t ts ih =>
      have shown := reads.shows t List.mem_cons_self
      obtain ⟨attributes, issues⟩ := ih (reads.sublist (List.sublist_cons_self _ _))
      simp only [readParts]
      split
      next =>
        obtain ⟨own, ownIssues⟩ := Attribute.ofToken_placed shown
        refine ⟨List.forall_mem_cons.mpr ⟨own, attributes⟩, ?_⟩
        intro issue member
        rcases List.mem_append.mp member with member | member
        · exact ownIssues issue member
        · exact issues issue member
      next => exact ⟨attributes, List.forall_mem_cons.mpr ⟨shown.covers, issues⟩⟩
      next => exact ⟨attributes, issues⟩

theorem StartTag.ofTokens_placed {head : Token TokenKind} {parts : List (Token TokenKind)}
    {close : Option (Token TokenKind)} (reads : g.Reads (head :: parts ++ close.toList))
    (opens : ∃ name, head.text = '<' :: name) :
    (StartTag.ofTokens head parts close).1.Placed g ∧
      ∀ issue ∈ (StartTag.ofTokens head parts close).2, g.Covers issue.span := by
  obtain ⟨rawName, text⟩ := opens
  have shown := reads.shows head List.mem_cons_self
  rw [text] at shown
  have span : g.Covers ⟨head.span.start,
      ((head :: parts ++ close.toList).getLast (by simp)).span.finish⟩ :=
    reads.covers_between (List.getLast_mem _)
  obtain ⟨attributes, issues⟩ := readParts_placed
    (reads.sublist ((List.sublist_append_left _ _).trans (List.sublist_cons_self _ _)))
  refine ⟨⟨?_, attributes, ?_, span⟩, ?_⟩
  · exact ⟨rawName, shown.1.tail, shown.2⟩
  · intro s found
    obtain ⟨e, ending, rfl⟩ := Option.map_eq_some_iff.mp found
    exact reads.covers (List.mem_append_right _ (by simp [ending]))
  · intro issue member
    simp only [StartTag.ofTokens] at member
    split at member
    · rcases List.mem_append.mp member with member | member
      · exact issues issue member
      · rw [List.mem_singleton.mp member]
        exact span
    · exact issues issue member

/-! ## Nodes -/

theorem mem_nodesSubjects {ancestors : List Element} {nodes : List Node} {s : Subject} :
    s ∈ nodesSubjects ancestors nodes ↔ ∃ node ∈ nodes, s ∈ node.subjects ancestors := by
  induction nodes with
  | nil => simp [nodesSubjects]
  | cons node nodes ih => simp [nodesSubjects, ih]

theorem placed_text {t : TextNode} (shown : g.Shows t.span t.text) : (Node.text t).Placed g := by
  intro ancestors s member
  rw [Node.subjects] at member
  rcases List.mem_cons.mp member with rfl | inside
  · exact shown
  · split at inside
    · exact Css.Sheet.placed_ofText shown.1 s inside
    · simp at inside

theorem placed_comment {c : Verbatim} (shown : g.Shows c.span c.text) :
    (Node.comment c).Placed g := by
  intro ancestors s member
  rw [Node.subjects, List.mem_singleton] at member
  rw [member]
  exact shown

theorem placed_doctype {d : Verbatim} (shown : g.Shows d.span d.text) :
    (Node.doctype d).Placed g := by
  intro ancestors s member
  rw [Node.subjects, List.mem_singleton] at member
  rw [member]
  exact shown

theorem Node.Placed.tag {tag : StartTag} {children : List Node} {endTag : Option Span} {span : Span}
    (placed : (Node.element tag children endTag span).Placed g) : tag.Placed g := by
  have own := placed [] (.htmlElement ⟨tag, children, endTag, span⟩ []) (by simp [Node.subjects])
  exact Element.Placed.tag own

theorem placed_element {tag : StartTag} {children : List Node} {endTag : Option Span} {span : Span}
    (own : tag.Placed g) (ending : ∀ s ∈ endTag, g.Covers s)
    (inside : ∀ child ∈ children, child.Placed g) :
    (Node.element tag children endTag span).Placed g := by
  intro ancestors s member
  rw [Node.subjects] at member
  rcases List.mem_cons.mp member with rfl | member
  · refine ⟨own, ending, ?_⟩
    intro child found
    obtain ⟨node, isChild, same⟩ := List.mem_filterMap.mp found
    cases node with
    | element childTag grandchildren childEnd childSpan =>
        rw [← Option.some.inj same]
        exact Node.Placed.tag (inside _ isChild)
    | text t => simp [Node.element?] at same
    | comment c => simp [Node.element?] at same
    | doctype d => simp [Node.element?] at same
  · obtain ⟨child, isChild, member⟩ := mem_nodesSubjects.mp member
    exact inside child isChild _ s member

/-! ## Open elements -/

/-- An open element and the children that it has so far are in their places. -/
structure OpenElement.Placed (g : Passage) (e : OpenElement) : Prop where
  tag : e.tag.Placed g
  children : ∀ node ∈ e.children, node.Placed g

theorem OpenElement.Placed.close {e : OpenElement} (placed : e.Placed g) {endTag : Option Span}
    (ending : ∀ s ∈ endTag, g.Covers s) : (e.close endTag).Placed g :=
  placed_element placed.tag ending fun node member =>
    placed.children node (List.mem_reverse.mp member)

namespace Builder

variable {b : Builder} {node : Node} {t : Token TokenKind}

/-- **What every piece of markup keeps**: all that is built so far is in its place. -/
structure Placed (g : Passage) (b : Builder) : Prop where
  stack : ∀ e ∈ b.stack, e.Placed g
  top : ∀ node ∈ b.top, node.Placed g

theorem placed_empty : Builder.empty.Placed g := ⟨by simp [empty], by simp [empty]⟩

theorem Placed.flatten (placed : b.Placed g) (names : List (List Char)) :
    Placed g { b with flattened := names } := ⟨placed.stack, placed.top⟩

theorem Placed.append (placed : b.Placed g) (own : node.Placed g) : (b.append node).Placed g := by
  obtain ⟨stack, top⟩ := placed
  rw [Builder.append]
  split
  next => exact ⟨stack, List.forall_mem_cons.mpr ⟨own, top⟩⟩
  next e outer held =>
    rw [held, List.forall_mem_cons] at stack
    obtain ⟨⟨tag, children⟩, outer⟩ := stack
    exact ⟨List.forall_mem_cons.mpr ⟨⟨tag, List.forall_mem_cons.mpr ⟨own, children⟩⟩, outer⟩, top⟩

theorem Placed.closeTop (placed : b.Placed g) {endTag : Option Span}
    (ending : ∀ s ∈ endTag, g.Covers s) : (b.closeTop endTag).Placed g := by
  rw [Builder.closeTop]
  split
  next => exact placed
  next e outer held =>
    obtain ⟨stack, top⟩ := placed
    rw [held, List.forall_mem_cons] at stack
    exact Placed.append ⟨stack.2, top⟩ (stack.1.close ending)

theorem Placed.closeMany (placed : b.Placed g) (n : Nat) : (closeMany n b).Placed g :=
  closeMany_keeps (fun _ placed => placed.closeTop (by simp)) placed n

theorem Placed.closeImplied (placed : b.Placed g) (incoming : List Char) :
    (b.closeImplied incoming).Placed g :=
  closeImplied_keeps (fun _ placed => placed.closeTop (by simp))
    (fun _ names placed => placed.flatten names) placed incoming

theorem Placed.openTag (placed : b.Placed g) {tag : StartTag} (own : tag.Placed g)
    (cap : Option Nat) : (b.openTag cap tag).1.Placed g := by
  have implied := placed.closeImplied tag.name
  have whole : (Node.element tag [] none tag.span).Placed g := placed_element own (by simp) (by simp)
  simp only [Builder.openTag]
  split
  · exact implied.append whole
  split
  · exact (implied.append whole).flatten _
  · exact ⟨List.forall_mem_cons.mpr ⟨⟨own, by simp⟩, implied.stack⟩, implied.top⟩

theorem Placed.close (placed : b.Placed g) (covered : g.Covers t.span) : (b.close t).1.Placed g := by
  simp only [Builder.close]
  split
  · exact placed
  split
  · exact placed.flatten _
  split
  · exact placed
  · refine ((placed.flatten []).closeMany _).closeTop ?_
    rintro s ⟨⟩
    exact covered

theorem Placed.takeIn (placed : b.Placed g) (shown : g.Shows t.span t.text) :
    (b.takeIn t).1.Placed g := by
  rw [Builder.takeIn]
  split
  · exact placed
  · exact placed.append (placed_doctype shown)
  · exact placed.append (placed_comment shown)
  · exact placed.append (placed_text shown)
  · exact placed.append (placed_text shown)
  · exact placed.append (placed_text shown)
  · exact placed.append (placed_text shown)
  · exact placed.close shown.covers
  all_goals exact placed

end Builder

/-! ## Pages -/

/-- A piece of markup that stands in the passage: its tokens are read there, and a start tag
begins with `<`. -/
structure Markup.Placed (g : Passage) (piece : Markup) : Prop where
  reads : g.Reads piece.tokens
  opens : ∀ head parts close, piece = .tag head parts close → ∃ name, head.text = '<' :: name

/-- The tokens of a piece stand among the others as they came. -/
theorem Markup.tokens_sublist {ts : List (Token TokenKind)} {piece : Markup}
    (member : piece ∈ Markup.ofTokens ts) : piece.tokens.Sublist ts := by
  have part : piece.tokens.Sublist ((Markup.ofTokens ts).flatMap Markup.tokens) :=
    List.sublist_flatten_of_mem (List.mem_map_of_mem member)
  rwa [Markup.flatMap_tokens_ofTokens] at part

theorem Markup.kind_of_mem_ofTokens {ts : List (Token TokenKind)} {head : Token TokenKind}
    {parts : List (Token TokenKind)} {close : Option (Token TokenKind)}
    (member : .tag head parts close ∈ Markup.ofTokens ts) : head.kind = .tagOpen ∧ head ∈ ts := by
  fun_induction Markup.ofTokens ts with
  | case1 => simp at member
  | case2 t ts opens inner ended =>
      obtain ⟨rfl, -, -⟩ := Markup.tag.inj (List.mem_singleton.mp member)
      exact ⟨opens, List.mem_cons_self⟩
  | case3 t ts opens inner e rest left closes ih =>
      rcases List.mem_cons.mp member with same | later
      · obtain ⟨rfl, -, -⟩ := Markup.tag.inj same
        exact ⟨opens, List.mem_cons_self⟩
      · obtain ⟨kind, found⟩ := ih later
        have tail : head ∈ ts.dropWhile isTagPart := by
          rw [left]
          exact List.mem_cons_of_mem _ found
        exact ⟨kind, List.mem_cons_of_mem _ ((List.dropWhile_sublist _).subset tail)⟩
  | case4 t ts opens inner e rest left other ih =>
      rcases List.mem_cons.mp member with same | later
      · obtain ⟨rfl, -, -⟩ := Markup.tag.inj same
        exact ⟨opens, List.mem_cons_self⟩
      · obtain ⟨kind, found⟩ := ih later
        rw [← left] at found
        exact ⟨kind, List.mem_cons_of_mem _ ((List.dropWhile_sublist _).subset found)⟩
  | case5 t ts other ih =>
      rcases List.mem_cons.mp member with same | later
      · cases same
      · obtain ⟨kind, found⟩ := ih later
        exact ⟨kind, List.mem_cons_of_mem _ found⟩

theorem Markup.placed_ofTokens {ts : List (Token TokenKind)} (reads : g.Reads ts)
    (opens : ∀ t ∈ ts, Opens t) : ∀ piece ∈ Markup.ofTokens ts, piece.Placed g := by
  intro piece member
  constructor
  · exact reads.sublist (Markup.tokens_sublist member)
  · rintro head parts close rfl
    obtain ⟨kind, found⟩ := Markup.kind_of_mem_ofTokens member
    exact opens head found kind

theorem Markup.Placed.sites {piece : Markup} (placed : piece.Placed g) : piece.Sites g.Covers := by
  cases piece with
  | tag head parts close =>
      obtain ⟨tag, issues⟩ :=
        StartTag.ofTokens_placed placed.reads (placed.opens head parts close rfl)
      exact ⟨tag.span, issues⟩
  | single t => exact fun _ => placed.reads.covers List.mem_cons_self

namespace Builder

variable {b : Builder} {piece : Markup}

theorem step_placed (placed : b.Placed g) (own : piece.Placed g) (cap : Option Nat) :
    (b.step cap piece).1.Placed g := by
  cases piece with
  | tag head parts close =>
      exact placed.openTag (StartTag.ofTokens_placed own.reads (own.opens head parts close rfl)).1 cap
  | single t => exact placed.takeIn (own.reads.shows t List.mem_cons_self)

theorem run_placed (cap : Option Nat) {pieces : List Markup} (placed : b.Placed g)
    (each : ∀ piece ∈ pieces, piece.Placed g) : (b.run cap pieces).1.Placed g := by
  induction pieces generalizing b with
  | nil => exact placed
  | cons piece pieces ih =>
      rw [List.forall_mem_cons] at each
      exact ih (step_placed placed each.1 cap) each.2

end Builder

theorem buildTree_placed (cap : Option Nat) {ts : List (Token TokenKind)} (reads : g.Reads ts)
    (opens : ∀ t ∈ ts, Opens t) :
    (∀ node ∈ (buildTree cap ts).1, node.Placed g) ∧
      ∀ issue ∈ (buildTree cap ts).2, g.Covers issue.span := by
  have pieces := Markup.placed_ofTokens reads opens
  have built := Builder.run_placed cap Builder.placed_empty pieces
  constructor
  · intro node member
    exact (built.closeMany _).top node (List.mem_reverse.mp member)
  · exact forall_issues_buildTree cap fun piece member => (pieces piece member).sites

mutual

/-- A text that holds a stylesheet is among the subjects. -/
theorem Node.mem_subjects_of_styleTexts {t : TextNode} (ancestors : List Element)
    (inStyle : Bool) :
    (node : Node) → t ∈ node.styleTexts inStyle → .htmlText t ∈ node.subjects ancestors
  | .element tag children endTag span, member => by
      rw [Node.styleTexts] at member
      rw [Node.subjects]
      exact List.mem_cons_of_mem _ (mem_subjects_of_styleTextsIn _ _ children member)
  | .text u, member => by
      have same : t = u := by
        rw [Node.styleTexts] at member
        split at member
        · exact List.mem_singleton.mp member
        · simp at member
      rw [Node.subjects, same]
      exact List.mem_cons_self
  | .comment c, member => by simp [Node.styleTexts] at member
  | .doctype d, member => by simp [Node.styleTexts] at member

theorem mem_subjects_of_styleTextsIn {t : TextNode} (ancestors : List Element) (inStyle : Bool) :
    (nodes : List Node) → t ∈ styleTextsIn inStyle nodes →
      .htmlText t ∈ nodesSubjects ancestors nodes
  | [], member => by simp [styleTextsIn] at member
  | node :: nodes, member => by
      rw [styleTextsIn] at member
      rw [nodesSubjects]
      rcases List.mem_append.mp member with member | member
      · exact List.mem_append_left _
          (Node.mem_subjects_of_styleTexts ancestors inStyle node member)
      · exact List.mem_append_right _ (mem_subjects_of_styleTextsIn ancestors inStyle nodes member)

end

namespace Page

variable {cs : List Char}

theorem reads_tokens (cs : List Char) : (Passage.whole cs).Reads (tokenize cs) :=
  Passage.reads_cut scan .head (Passage.whole cs)

theorem placed_ofText (cs : List Char) :
    (∀ node ∈ (Page.ofText cs).nodes, node.Placed (Passage.whole cs)) ∧
      ∀ issue ∈ (Page.ofText cs).issues, (Passage.whole cs).Covers issue.span :=
  buildTree_placed (some depthCap) (reads_tokens cs) (opens_tagOpen cs)

theorem placed_subjects (cs : List Char) :
    ∀ s ∈ nodesSubjects [] (Page.ofText cs).nodes, s.Placed (Passage.whole cs) := by
  intro s member
  obtain ⟨node, found, inside⟩ := mem_nodesSubjects.mp member
  exact (placed_ofText cs).1 node found [] s inside

/-- The texts that hold stylesheets stand in the page. -/
theorem shows_styleTexts (cs : List Char) :
    ∀ t ∈ styleTextsIn false (Page.ofText cs).nodes, (Passage.whole cs).Shows t.span t.text :=
  fun _ member => placed_subjects cs _ (mem_subjects_of_styleTextsIn [] false _ member)

end Page

end PageLint.Html
