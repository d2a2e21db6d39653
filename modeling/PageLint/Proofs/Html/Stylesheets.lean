/-
# PageLint.Proofs.Html.Stylesheets — the stylesheets of a page

The texts that hold stylesheets are raw texts of the page, in order (`styleTexts_sublist`).

`Builder.styled` lists those that the builder holds so far. Closing an element moves its
texts and changes none of them, and a text is added only by a piece that is put straight into
an open stylesheet. What keeps other pieces out is `Builder.Calm`: only the innermost open
element can be a stylesheet, and then no elements are flattened, so that the end tag that the
lexer has in store for it (`Awaits`) is the next piece after its text and does close it.
-/
import PageLint.Proofs.Html.Framing

namespace PageLint.Html

set_option autoImplicit false

open Text

/-! ## Texts of stylesheets, in order -/

theorem styleTextsIn_append (inStyle : Bool) (nodes more : List Node) :
    styleTextsIn inStyle (nodes ++ more) =
      styleTextsIn inStyle nodes ++ styleTextsIn inStyle more := by
  induction nodes with
  | nil => rfl
  | cons node nodes ih => rw [List.cons_append, styleTextsIn, styleTextsIn, ih, List.append_assoc]

theorem styleTextsIn_concat (inStyle : Bool) (nodes : List Node) (node : Node) :
    styleTextsIn inStyle (nodes ++ [node]) =
      styleTextsIn inStyle nodes ++ node.styleTexts inStyle := by
  rw [styleTextsIn_append, styleTextsIn, styleTextsIn, List.append_nil]

/-- The raw text that a piece of markup is, as a node. -/
def Markup.rawTexts : Markup → List TextNode
  | .single t => if isRawText t then [⟨t.text, true, t.span⟩] else []
  | .tag .. => []

namespace Builder

variable {b : Builder} {node : Node} {t : Token TokenKind} {cap : Option Nat}
  {pieces : List Markup} {piece : Markup}

/-- The texts of stylesheets that the builder holds so far, in document order. -/
def styled (b : Builder) : List TextNode :=
  styleTextsIn false b.top.reverse ++
    b.stack.reverse.flatMap fun e => styleTextsIn e.tag.isStylesheet e.children.reverse

/-- Whether the innermost open element is a stylesheet. -/
def inStyle (b : Builder) : Bool := b.tags.head?.any StartTag.isStylesheet

theorem styled_append (b : Builder) (node : Node) :
    (b.append node).styled = b.styled ++ node.styleTexts b.inStyle := by
  obtain ⟨stack, top, flattened⟩ := b
  cases stack with
  | nil =>
      simp only [append, styled, inStyle, tags, List.reverse_cons, styleTextsIn_concat]
      simp
  | cons e outer =>
      simp only [append, styled, inStyle, tags, List.reverse_cons, List.flatMap_append,
        List.flatMap_singleton, styleTextsIn_concat]
      simp

/-- Closing an element loses none of its texts. -/
@[simp] theorem styled_closeTop (b : Builder) (endTag : Option Span) :
    (b.closeTop endTag).styled = b.styled := by
  obtain ⟨stack, top, flattened⟩ := b
  cases stack with
  | nil => rfl
  | cons e outer =>
      rw [closeTop, styled_append]
      simp [styled, OpenElement.close, Node.styleTexts]

@[simp] theorem styled_closeMany (n : Nat) (b : Builder) : (closeMany n b).styled = b.styled :=
  closeMany_keeps (P := fun b' => b'.styled = b.styled)
    (fun b' same => (styled_closeTop b' none).trans same) rfl n

theorem styled_closeImplied (b : Builder) (incoming : List Char) :
    (b.closeImplied incoming).styled = b.styled :=
  closeImplied_keeps (P := fun b' => b'.styled = b.styled)
    (fun b' same => (styled_closeTop b' none).trans same) (fun _ _ same => same) rfl incoming

/-- An element without content adds none. -/
theorem styled_openTag (b : Builder) (cap : Option Nat) (tag : StartTag) :
    (b.openTag cap tag).1.styled = b.styled := by
  have whole : ∀ b' : Builder, (b'.append (.element tag [] none tag.span)).styled = b'.styled := by
    intro b'
    rw [styled_append, Node.styleTexts, styleTextsIn, List.append_nil]
  have implied := styled_closeImplied b tag.name
  simp only [openTag]
  split
  · rw [whole, implied]
  split
  · exact (whole _).trans implied
  · rw [← implied]
    simp [styled, styleTextsIn]

theorem styled_close (b : Builder) (t : Token TokenKind) : (b.close t).1.styled = b.styled := by
  simp only [close]
  split
  · rfl
  split
  · rfl
  split
  · rfl
  · rw [styled_closeTop, styled_closeMany]
    rfl

/-! ## Nothing but its text in a stylesheet -/

/-- Only the innermost open element can be a stylesheet, elements are flattened only where no
more may be open, and an open stylesheet has its end in store. -/
structure Calm (cap : Option Nat) (b : Builder) (pieces : List Markup) : Prop where
  outer : ∀ tag ∈ b.tags.drop 1, tag.isStylesheet = false
  full : b.flattened ≠ [] → b.isFull cap
  inner : b.inStyle → b.flattened = [] ∧ Awaits pieces

theorem calm_empty (cap : Option Nat) (pieces : List Markup) : Calm cap .empty pieces where
  outer := by simp [tags, empty]
  full none_ := absurd rfl none_
  inner inside := by simp [inStyle, tags, empty] at inside

theorem isFull_of_tags {b b' : Builder} (same : b'.tags = b.tags) : b'.isFull cap = b.isFull cap := by
  rw [isFull, isFull, ← length_tags b', ← length_tags b, same]

/-- Where no open element is a stylesheet, nothing is asked of what comes next. -/
theorem calm_of_plain (plain : ∀ tag ∈ b.tags, tag.isStylesheet = false)
    (full : b.flattened ≠ [] → b.isFull cap) : Calm cap b pieces where
  outer tag member := plain tag (List.mem_of_mem_drop member)
  full := full
  inner inside := by
    obtain ⟨tag, head, style⟩ := (Option.any_eq_true _ _).mp inside
    rw [plain tag (List.mem_of_mem_head? head)] at style
    cases style

theorem Calm.plain (calm : Calm cap b pieces) (outside : b.inStyle = false) :
    ∀ tag ∈ b.tags, tag.isStylesheet = false := by
  intro tag member
  have outer := calm.outer
  rw [inStyle] at outside
  cases held : b.tags with
  | nil => rw [held] at member; cases member
  | cons first others =>
      rw [held] at member outer outside
      rcases List.mem_cons.mp member with rfl | later
      · simpa using outside
      · exact outer tag later

/-- Appending a node keeps what is open. -/
theorem Calm.append (calm : Calm cap b (piece :: pieces)) (node : Node)
    (awaits : b.inStyle → Awaits pieces) : Calm cap (b.append node) pieces where
  outer := by
    rw [tags_append]
    exact calm.outer
  full := by
    rw [flattened_append, isFull_of_tags (tags_append b node)]
    exact calm.full
  inner := by
    rw [inStyle, tags_append, flattened_append]
    exact fun inside => ⟨(calm.inner inside).1, awaits inside⟩

/-- Closing what a start tag implies keeps what is open plain, and flattens nothing more. -/
theorem Calm.closeImplied (calm : Calm cap b pieces) (outside : b.inStyle = false)
    (name : List Char) : (∀ tag ∈ (b.closeImplied name).tags, tag.isStylesheet = false) ∧
      ((b.closeImplied name).flattened ≠ [] → (b.closeImplied name).isFull cap) := by
  have plain := calm.plain outside
  rcases tags_closeImplied b name with ⟨n, dropped, none_⟩ | ⟨same, some_⟩
  · rw [dropped]
    exact ⟨fun tag member => plain tag (List.mem_of_mem_drop member), fun more => absurd none_ more⟩
  · rw [same, isFull_of_tags same]
    exact ⟨plain, fun _ => calm.full some_⟩

/-- Outside stylesheets, a start tag opens one only if its end is in store. -/
theorem Calm.openTag (calm : Calm cap b (piece :: pieces)) (outside : b.inStyle = false)
    {tag : StartTag} (awaits : tag.isStylesheet → tag.selfClosing = false → tag.finish.isSome →
      Awaits pieces) : Calm cap (b.openTag cap tag).1 pieces := by
  obtain ⟨closed, full⟩ := calm.closeImplied outside tag.name
  simp only [Builder.openTag]
  generalize b.closeImplied tag.name = b' at closed full
  split
  · apply calm_of_plain
    · rwa [tags_append]
    · rwa [flattened_append, isFull_of_tags (tags_append b' _)]
  next opens =>
    split
    next isFull =>
      apply calm_of_plain
      · have same : Builder.tags { b'.append (.element tag [] none tag.span) with
            flattened := tag.name :: b'.flattened } = b'.tags := tags_append _ _
        rwa [same]
      · intro _
        have same : Builder.isFull { b'.append (.element tag [] none tag.span) with
            flattened := tag.name :: b'.flattened } cap = b'.isFull cap :=
          isFull_of_tags (tags_append _ _)
        rw [same]
        exact isFull
    next room =>
      have none_ : b'.flattened = [] := by
        by_contra some_
        exact room (full some_)
      simp only [Bool.or_eq_true, not_or, Bool.not_eq_true, Option.isNone_eq_false_iff] at opens
      exact
        { outer := closed
          full := fun some_ => absurd none_ some_
          inner := fun style => ⟨none_, awaits style opens.1.2 opens.2⟩ }

/-- The end tag of a stylesheet that is open closes it. -/
theorem close_style {stack : List OpenElement} {e : OpenElement} {top : List Node}
    (style : e.tag.isStylesheet) (name : endTagName t.text = styleName) :
    (Builder.close ⟨e :: stack, top, []⟩ t).1 = closeTop ⟨e :: stack, top, []⟩ (some t.span) := by
  have same : (e.tag.name != styleName) = false := by
    rw [StartTag.isStylesheet, Bool.and_eq_true, beq_iff_eq] at style
    rw [bne_eq_false_iff_eq]
    exact style.1
  have notVoid : voidElements.contains styleName = false := by decide +kernel
  simp only [Builder.close, name, notVoid, List.contains_nil, Bool.false_eq_true, if_false,
    List.takeWhile_cons, same, List.length_nil, List.length_cons]
  rfl

theorem Calm.close_inside (calm : Calm cap b (.single t :: pieces)) (kind : t.kind = .tagClose)
    (inside : b.inStyle) : Calm cap (b.close t).1 pieces := by
  obtain ⟨none_, awaits⟩ := calm.inner inside
  have name : endTagName t.text = styleName := by
    rcases awaits with ⟨raw, -⟩ | ends
    · rw [kind] at raw
      cases raw
    · exact ends.2
  obtain ⟨tag, head, style⟩ := (Option.any_eq_true _ _).mp inside
  obtain ⟨stack, top, flattened⟩ := b
  cases stack with
  | nil => cases head
  | cons e outer =>
      change flattened = [] at none_
      have first : e.tag = tag := Option.some.inj head
      rw [← first] at style
      subst none_
      rw [close_style style name]
      apply calm_of_plain
      · rw [tags_closeTop]
        exact calm.outer
      · rw [flattened_closeTop]
        exact fun more => absurd rfl more

theorem Calm.close_outside (calm : Calm cap b (.single t :: pieces)) (outside : b.inStyle = false) :
    Calm cap (b.close t).1 pieces := by
  have plain := calm.plain outside
  apply calm_of_plain
  · obtain ⟨n, dropped⟩ := tags_close b t
    rw [dropped]
    exact fun tag member => plain tag (List.mem_of_mem_drop member)
  · simp only [Builder.close]
    split
    · exact calm.full
    split
    next known =>
      intro _
      have some_ : b.flattened ≠ [] := by
        intro none_
        rw [none_] at known
        cases known
      exact calm.full some_
    split
    · exact calm.full
    · rw [flattened_closeTop, flattened_closeMany]
      exact fun more => absurd rfl more

/-- An end tag ends a stylesheet that is open, and outside stylesheets it does no harm. -/
theorem Calm.close (calm : Calm cap b (.single t :: pieces)) (kind : t.kind = .tagClose) :
    Calm cap (b.close t).1 pieces := by
  cases inside : b.inStyle with
  | true => exact calm.close_inside kind inside
  | false => exact calm.close_outside inside

/-- A piece other than a raw text or an end tag comes outside stylesheets. -/
theorem Calm.outside (calm : Calm cap b (.single t :: pieces)) (raw : t.kind ≠ .rawText)
    (close : t.kind ≠ .tagClose) : b.inStyle = false := by
  cases inside : b.inStyle with
  | false => rfl
  | true =>
      rcases (calm.inner inside).2 with ⟨isRaw, -⟩ | ⟨isClose, -⟩
      · exact absurd isRaw raw
      · exact absurd isClose close

/-- What the builder holds of stylesheets once it has taken in a piece: their texts so far, and
the piece itself at most. -/
structure Took (cap : Option Nat) (b b' : Builder) (piece : Markup) (pieces : List Markup) : Prop where
  calm : Calm cap b' pieces
  styled : ∃ own, b'.styled = b.styled ++ own ∧ own.Sublist piece.rawTexts

theorem took_of_styled {b' : Builder} (calm : Calm cap b' pieces) (same : b'.styled = b.styled) :
    Took cap b b' piece pieces :=
  ⟨calm, [], by rw [same, List.append_nil], List.nil_sublist _⟩

/-- A node that comes outside stylesheets is none of their texts. -/
theorem Calm.took_append (calm : Calm cap b (piece :: pieces)) (outside : b.inStyle = false)
    (plain : node.styleTexts false = []) : Took cap b (b.append node) piece pieces := by
  refine took_of_styled (calm.append node fun inside => ?_) ?_
  · rw [outside] at inside
    cases inside
  · rw [styled_append, outside, plain, List.append_nil]

theorem Calm.takeIn (calm : Calm cap b (.single t :: pieces)) :
    Took cap b (b.takeIn t).1 (.single t) pieces := by
  have kept : t.kind ≠ .rawText → t.kind ≠ .tagClose → Took cap b b (.single t) pieces := by
    intro raw close
    exact took_of_styled (calm_of_plain (calm.plain (calm.outside raw close)) calm.full) rfl
  have appended : t.kind ≠ .rawText → t.kind ≠ .tagClose → ∀ node : Node,
      node.styleTexts false = [] → Took cap b (b.append node) (.single t) pieces := by
    intro raw close node plain
    exact calm.took_append (calm.outside raw close) plain
  rw [Builder.takeIn]
  split
  case h_5 raw =>
    refine ⟨calm.append _ fun inside => ?_, _, styled_append b _, ?_⟩
    · rcases (calm.inner inside).2 with ⟨-, closes⟩ | ⟨close, -⟩
      · exact closes.awaits
      · rw [raw] at close
        cases close
    · rw [Node.styleTexts, Markup.rawTexts, isRawText, raw]
      split
      · exact List.Sublist.refl _
      · exact List.nil_sublist _
  case h_8 kind => exact took_of_styled (calm.close kind) (styled_close b t)
  all_goals
    next kind =>
      first
        | exact kept (by rw [kind]; decide) (by rw [kind]; decide)
        | exact appended (by rw [kind]; decide) (by rw [kind]; decide) _ rfl

theorem Calm.step (calm : Calm cap b (piece :: pieces)) (framed : piece.OpensStyle → Awaits pieces) :
    Took cap b (b.step cap piece).1 piece pieces := by
  cases piece with
  | tag head parts close =>
      have outside : b.inStyle = false := by
        cases inside : b.inStyle with
        | false => rfl
        | true => exact (calm.inner inside).2.elim
      refine took_of_styled (calm.openTag outside ?_) (styled_openTag b cap _)
      intro style lasting ended
      rw [StartTag.isStylesheet, Bool.and_eq_true, beq_iff_eq] at style
      cases close with
      | none => cases ended
      | some e =>
          refine framed ⟨style.1, ?_⟩
          intro selfClosing
          have closed : (e.kind == .selfClosingTagEnd) = false := lasting
          rw [selfClosing] at closed
          cases closed
  | single t => exact calm.takeIn

/-- **What a run adds to the stylesheets**: raw texts, in order. -/
theorem Calm.run (calm : Calm cap b pieces) (framed : Framed pieces) : ∃ own,
    (b.run cap pieces).1.styled = b.styled ++ own ∧
      own.Sublist (pieces.flatMap Markup.rawTexts) := by
  induction pieces generalizing b with
  | nil => exact ⟨[], (List.append_nil _).symm, List.Sublist.refl _⟩
  | cons piece pieces ih =>
      obtain ⟨frame, others⟩ := framed
      obtain ⟨next, own, grown, isRaw⟩ := calm.step frame
      obtain ⟨more, done, areRaw⟩ := ih next others
      refine ⟨own ++ more, ?_, isRaw.append areRaw⟩
      rw [← List.append_assoc, ← grown]
      exact done

end Builder

/-! ## Pages -/

/-- The raw texts of a page, as nodes. -/
def rawTextNodes (ts : List (Token TokenKind)) : List TextNode :=
  (ts.filter isRawText).map fun t => ⟨t.text, true, t.span⟩

theorem rawTexts_sublist (ts : List (Token TokenKind)) :
    ((Markup.ofTokens ts).flatMap Markup.rawTexts).Sublist (rawTextNodes ts) := by
  have each : ∀ piece : Markup, piece.rawTexts.Sublist (rawTextNodes piece.tokens) := by
    intro piece
    cases piece with
    | tag head parts close => exact List.nil_sublist _
    | single t =>
        rw [Markup.rawTexts, Markup.tokens, rawTextNodes, List.filter_singleton]
        cases isRawText t <;> exact List.Sublist.refl _
  have whole : rawTextNodes ts =
      (Markup.ofTokens ts).flatMap fun piece => rawTextNodes piece.tokens := by
    conv_lhs => rw [← Markup.flatMap_tokens_ofTokens ts]
    simp only [rawTextNodes, List.filter_flatMap, List.map_flatMap]
  rw [whole]
  induction Markup.ofTokens ts with
  | nil => exact .slnil
  | cons piece pieces ih => exact (each piece).append ih

/-- **Stylesheets are raw texts of the page, in order.** -/
theorem styleTexts_sublist (cs : List Char) :
    (styleTextsIn false (Page.ofText cs).nodes).Sublist (rawTextNodes (tokenize cs)) := by
  have framed := framed_of_lexed ⟨_, lexed_tokenize cs⟩
  obtain ⟨own, done, isRaw⟩ := (Builder.calm_empty (some depthCap) _).run framed
  refine List.Sublist.trans ?_ (rawTexts_sublist (tokenize cs))
  have nodes : styleTextsIn false (Page.ofText cs).nodes =
      (Builder.empty.run (some depthCap) (Markup.ofTokens (tokenize cs))).1.styled := by
    have closed := Builder.styled_closeMany (Builder.empty.run (some depthCap)
      (Markup.ofTokens (tokenize cs))).1.stack.length
      (Builder.empty.run (some depthCap) (Markup.ofTokens (tokenize cs))).1
    rw [← closed, Builder.styled]
    have none_ : (Builder.closeMany (Builder.empty.run (some depthCap)
        (Markup.ofTokens (tokenize cs))).1.stack.length (Builder.empty.run (some depthCap)
        (Markup.ofTokens (tokenize cs))).1).stack = [] := Builder.stack_finish _
    rw [none_]
    exact (List.append_nil _).symm
  rw [nodes, done]
  exact isRaw

/-- The tokens of a page are not empty. -/
theorem offset_lt_of_mem_tokenize (cs : List Char) :
    ∀ t ∈ tokenize cs, t.span.start.offset < t.span.finish.offset := by
  intro t member
  have some_ := cut_text_ne_nil scan .head cs _ (mem_of_mem_locate member)
  have positive := bytes_pos some_
  rw [((Page.reads_tokens cs).shows t member).2, Position.offset_after]
  dsimp only at positive
  omega

/-- Stylesheets of a page come one after the other, with something in between. -/
theorem styleTexts_apart (cs : List Char) : (styleTextsIn false (Page.ofText cs).nodes).Pairwise
    fun t u => t.span.finish.offset < u.span.start.offset := by
  have apart := (lexed_tokenize cs).rawTexts_apart (Page.reads_tokens cs)
    (offset_lt_of_mem_tokenize cs)
  exact (List.pairwise_map.mpr apart).sublist (styleTexts_sublist cs)

end PageLint.Html
