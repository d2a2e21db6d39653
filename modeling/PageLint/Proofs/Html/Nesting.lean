/-
# PageLint.Proofs.Html.Nesting — stretches of a page nest

Every element takes in its start tag, its content and its end tag, in this order and without
overlap, and so does the page as a whole (`page_nests`).

An element ends where its end tag ends, or else its last child, or else its start tag. So what
has to be known of an open element is where its content so far ends: before the next open
element begins, and for the innermost one before the place that the reading has come to
(`Builder.Holds`). A piece of markup begins at that place or later, whatever it closes is
closed there, and the place moves on to the end of the piece (`Holds.step`).
-/
import PageLint.Proofs.Html.Outline
import PageLint.Proofs.Text.Order

namespace PageLint.Html

set_option autoImplicit false

open Text

/-! ## Nested stretches -/

/-- An element takes in its start tag, then its children one after the other, then its end tag
if there is one, which is the tail of its stretch. -/
structure Element.Nests (e : Element) : Prop where
  start : e.span.start = e.tag.span.start
  tag : e.tag.span.start.offset ≤ e.tag.span.finish.offset ∧ e.span.contains e.tag.span
  endTag : ∀ s ∈ e.endTag, s.start.offset ≤ s.finish.offset ∧ e.span.contains s ∧
    s.finish = e.span.finish ∧ e.tag.span.finish.offset ≤ s.start.offset
  children : ∀ child ∈ e.children,
    child.span.start.offset ≤ child.span.finish.offset ∧ e.span.contains child.span ∧
      e.tag.span.finish.offset ≤ child.span.start.offset ∧
      ∀ s ∈ e.endTag, child.span.finish.offset ≤ s.start.offset
  siblings : e.children.IsChain fun before after =>
    before.span.finish.offset ≤ after.span.start.offset

/-- All elements at or below a node nest. -/
def Node.Nests (node : Node) : Prop := ∀ e ∈ elementsOf node.preorder, e.Nests

theorem forall_elementsOf_preorderIn {P : Element → Prop} {nodes : List Node} :
    (∀ e ∈ elementsOf (preorderIn nodes), P e) ↔
      ∀ node ∈ nodes, ∀ e ∈ elementsOf node.preorder, P e := by
  induction nodes with
  | nil => simp [preorderIn, elementsOf]
  | cons node nodes ih =>
      have parted : elementsOf (preorderIn (node :: nodes)) =
          elementsOf node.preorder ++ elementsOf (preorderIn nodes) := by
        rw [preorderIn]
        exact List.filterMap_append
      rw [parted, List.forall_mem_append, List.forall_mem_cons, ih]

theorem nests_element {tag : StartTag} {children : List Node} {endTag : Option Span} {span : Span}
    (own : Element.Nests ⟨tag, children, endTag, span⟩) (below : ∀ child ∈ children, child.Nests) :
    (Node.element tag children endTag span).Nests := by
  intro e member
  rw [Node.preorder] at member
  rcases List.mem_cons.mp member with rfl | inside
  · exact own
  · exact forall_elementsOf_preorderIn.mpr below e inside

/-- Nodes, last first, that nest and stand one after the other between two offsets. -/
def Fit (low high : Nat) : List Node → Prop
  | [] => low ≤ high
  | node :: earlier =>
    node.Nests ∧ node.span.start.offset ≤ node.span.finish.offset ∧
      node.span.finish.offset ≤ high ∧ Fit low node.span.start.offset earlier

variable {low high next : Nat} {nodes : List Node} {node : Node}

theorem Fit.le (fit : Fit low high nodes) : low ≤ high := by
  induction nodes generalizing high with
  | nil => exact fit
  | cons node earlier ih =>
      obtain ⟨-, forward, within, before⟩ := fit
      have := ih before
      omega

theorem Fit.mono (fit : Fit low high nodes) (le : high ≤ next) : Fit low next nodes := by
  cases nodes with
  | nil => exact Nat.le_trans fit le
  | cons node earlier =>
      obtain ⟨nests, forward, within, before⟩ := fit
      exact ⟨nests, forward, by omega, before⟩

theorem Fit.forall (fit : Fit low high nodes) : ∀ node ∈ nodes, node.Nests ∧
    low ≤ node.span.start.offset ∧ node.span.start.offset ≤ node.span.finish.offset ∧
      node.span.finish.offset ≤ high := by
  induction nodes generalizing high with
  | nil => simp
  | cons node earlier ih =>
      obtain ⟨nests, forward, within, before⟩ := fit
      intro other member
      rcases List.mem_cons.mp member with rfl | member
      · exact ⟨nests, before.le, forward, within⟩
      · obtain ⟨nests', begins, forward', ends⟩ := ih before other member
        exact ⟨nests', begins, forward', by omega⟩

/-- In document order, each node ends before the next one begins. -/
theorem Fit.siblings (fit : Fit low high nodes) : nodes.reverse.IsChain fun before after =>
    before.span.finish.offset ≤ after.span.start.offset := by
  rw [List.isChain_reverse]
  induction nodes generalizing high with
  | nil => exact .nil
  | cons node earlier ih =>
      obtain ⟨-, -, -, before⟩ := fit
      refine List.isChain_cons.mpr ⟨?_, ih before⟩
      intro other head
      exact (before.forall other (List.mem_of_mem_head? head)).2.2.2

/-- An element around nodes that fit between its start tag and what ends it. -/
theorem nests_around {tag : StartTag} {endTag : Option Span} {span : Span}
    (begins : span.start = tag.span.start)
    (forward : tag.span.start.offset ≤ tag.span.finish.offset)
    (content : Fit tag.span.finish.offset high nodes) (within : high ≤ span.finish.offset)
    (ending : ∀ s ∈ endTag, high ≤ s.start.offset ∧ s.start.offset ≤ s.finish.offset ∧
      s.finish = span.finish) :
    Element.Nests ⟨tag, nodes.reverse, endTag, span⟩ := by
  have first : span.start.offset = tag.span.start.offset := congrArg Position.offset begins
  have room := content.le
  constructor
  · exact begins
  · refine ⟨forward, span_contains_iff.mpr ⟨first.le, ?_⟩⟩
    exact Nat.le_trans room within
  · intro s found
    obtain ⟨after, forward', tail⟩ := ending s found
    have last : s.finish.offset = span.finish.offset := congrArg Position.offset tail
    refine ⟨forward', span_contains_iff.mpr ⟨?_, ?_⟩, tail, ?_⟩
    · show span.start.offset ≤ s.start.offset
      omega
    · exact last.le
    · exact Nat.le_trans room after
  · intro child member
    obtain ⟨-, after, forward', before⟩ := content.forall child (List.mem_reverse.mp member)
    refine ⟨forward', span_contains_iff.mpr ⟨?_, ?_⟩, after, ?_⟩
    · show span.start.offset ≤ child.span.start.offset
      omega
    · exact Nat.le_trans before within
    · intro s found
      exact Nat.le_trans before (ending s found).1
  · exact content.siblings

/-! ## Open elements -/

/-- The content that an open element has so far stands between its start tag and an offset. -/
def OpenElement.Fits (e : OpenElement) (high : Nat) : Prop :=
  e.tag.span.start.offset ≤ e.tag.span.finish.offset ∧ Fit e.tag.span.finish.offset high e.children

/-- Without an end tag, an element ends with its last child or with its start tag. -/
theorem OpenElement.Fits.finish {e : OpenElement} (fits : e.Fits high) :
    (e.close none).span.finish.offset ≤ high ∧
      Fit e.tag.span.finish.offset (e.close none).span.finish.offset e.children := by
  obtain ⟨tag, children⟩ := e
  obtain ⟨-, content⟩ := fits
  cases children with
  | nil => exact ⟨content, Nat.le_refl _⟩
  | cons last earlier =>
      obtain ⟨nests, forward, within, before⟩ := content
      exact ⟨within, nests, forward, Nat.le_refl _, before⟩

/-- An element that is closed nests, by whatever means it ends. -/
theorem OpenElement.Fits.close {e : OpenElement} (fits : e.Fits high) (le : high ≤ next)
    {endTag : Option Span} (ending : ∀ s ∈ endTag, high ≤ s.start.offset ∧
      s.start.offset ≤ s.finish.offset ∧ s.finish.offset ≤ next) :
    (e.close endTag).Nests ∧
      (e.close endTag).span.start.offset ≤ (e.close endTag).span.finish.offset ∧
      (e.close endTag).span.finish.offset ≤ next := by
  have below : ∀ child ∈ e.children.reverse, child.Nests := fun child member =>
    (fits.2.forall child (List.mem_reverse.mp member)).1
  cases endTag with
  | none =>
      obtain ⟨within, content⟩ := fits.finish
      have room := content.le
      refine ⟨?_, Nat.le_trans fits.1 room, Nat.le_trans within le⟩
      exact nests_element (nests_around rfl fits.1 content (Nat.le_refl _) (by simp)) below
  | some s =>
      obtain ⟨after, forward, within⟩ := ending s rfl
      have room := fits.2.le
      have begins := fits.1
      refine ⟨?_, ?_, within⟩
      · refine nests_element (nests_around rfl fits.1 fits.2 ?_ ?_) below
        · exact Nat.le_trans after forward
        · rintro u ⟨⟩
          exact ⟨after, forward, rfl⟩
      · show e.tag.span.start.offset ≤ s.finish.offset
        omega

/-! ## The builder -/

/-- The innermost open element has its content before an offset, every other one before the
start of the next, and the nodes that lie in none come before them all. -/
def Held (top : List Node) (high : Nat) : List OpenElement → Prop
  | [] => Fit 0 high top
  | e :: outer => e.Fits high ∧ Held top e.tag.span.start.offset outer

namespace Builder

variable {b : Builder} {t : Token TokenKind} {cap : Option Nat}

/-- All that is built so far nests, and stands before an offset. -/
def Holds (b : Builder) (high : Nat) : Prop := Held b.top high b.stack

theorem holds_empty : Builder.empty.Holds 0 := Nat.le_refl 0

theorem Holds.mono (holds : b.Holds high) (le : high ≤ next) : b.Holds next := by
  obtain ⟨stack, top, flattened⟩ := b
  cases stack with
  | nil => exact Fit.mono holds le
  | cons e outer =>
      obtain ⟨⟨forward, content⟩, before⟩ := holds
      exact ⟨⟨forward, content.mono le⟩, before⟩

/-- A node is put in at the place that the reading has come to. -/
theorem Holds.append (holds : b.Holds high) (nests : node.Nests)
    (after : high ≤ node.span.start.offset)
    (forward : node.span.start.offset ≤ node.span.finish.offset) :
    (b.append node).Holds node.span.finish.offset := by
  obtain ⟨stack, top, flattened⟩ := b
  cases stack with
  | nil => exact ⟨nests, forward, Nat.le_refl _, Fit.mono holds after⟩
  | cons e outer =>
      obtain ⟨⟨begins, content⟩, before⟩ := holds
      exact ⟨⟨begins, nests, forward, Nat.le_refl _, content.mono after⟩, before⟩

theorem Holds.closeTop (holds : b.Holds high) (le : high ≤ next) {endTag : Option Span}
    (ending : ∀ s ∈ endTag, high ≤ s.start.offset ∧ s.start.offset ≤ s.finish.offset ∧
      s.finish.offset ≤ next) : (b.closeTop endTag).Holds next := by
  obtain ⟨stack, top, flattened⟩ := b
  cases stack with
  | nil => exact holds.mono le
  | cons e outer =>
      obtain ⟨fits, before⟩ := holds
      obtain ⟨nests, forward, within⟩ := fits.close le ending
      have outside : Holds ⟨outer, top, flattened⟩ e.tag.span.start.offset := before
      exact (outside.append nests (Nat.le_refl _) forward).mono within

theorem Holds.closeMany (holds : b.Holds high) (n : Nat) : (closeMany n b).Holds high :=
  closeMany_keeps (P := fun b => b.Holds high)
    (fun _ holds => holds.closeTop (Nat.le_refl _) (by simp)) holds n

theorem Holds.closeImplied (holds : b.Holds high) (incoming : List Char) :
    (b.closeImplied incoming).Holds high :=
  closeImplied_keeps (P := fun b => b.Holds high)
    (fun _ holds => holds.closeTop (Nat.le_refl _) (by simp)) (fun _ _ holds => holds) holds incoming

theorem Holds.openTag (holds : b.Holds high) {tag : StartTag} (cap : Option Nat)
    (after : high ≤ tag.span.start.offset)
    (forward : tag.span.start.offset ≤ tag.span.finish.offset) :
    (b.openTag cap tag).1.Holds tag.span.finish.offset := by
  have implied := holds.closeImplied tag.name
  have around : Element.Nests ⟨tag, [].reverse, none, tag.span⟩ :=
    nests_around rfl forward (Nat.le_refl _) (Nat.le_refl _) (by simp)
  have nests : (Node.element tag [] none tag.span).Nests := nests_element around (by simp)
  simp only [Builder.openTag]
  split
  · exact implied.append nests after forward
  split
  · exact implied.append nests after forward
  · exact ⟨⟨forward, Nat.le_refl _⟩, implied.mono after⟩

theorem Holds.close (holds : b.Holds high) (after : high ≤ t.span.start.offset)
    (forward : t.span.start.offset ≤ t.span.finish.offset) :
    (b.close t).1.Holds t.span.finish.offset := by
  have further : high ≤ t.span.finish.offset := Nat.le_trans after forward
  simp only [Builder.close]
  split
  · exact holds.mono further
  split
  · exact holds.mono further
  split
  · exact holds.mono further
  · have same : Holds { b with flattened := [] } high := holds
    refine (same.closeMany _).closeTop further ?_
    rintro s ⟨⟩
    exact ⟨after, forward, Nat.le_refl _⟩

theorem nests_leaf (leaf : node.element? = none) : node.Nests := by
  intro e member
  cases node with
  | element tag children endTag span => simp [Node.element?] at leaf
  | text u => simp [Node.preorder, elementsOf, Node.element?] at member
  | comment c => simp [Node.preorder, elementsOf, Node.element?] at member
  | doctype d => simp [Node.preorder, elementsOf, Node.element?] at member

theorem Holds.takeIn (holds : b.Holds high) (after : high ≤ t.span.start.offset)
    (forward : t.span.start.offset ≤ t.span.finish.offset) :
    (b.takeIn t).1.Holds t.span.finish.offset := by
  have kept := holds.mono (Nat.le_trans after forward)
  rw [Builder.takeIn]
  split
  case h_8 => exact holds.close after forward
  all_goals
    first
      | exact kept
      | exact holds.append (nests_leaf rfl) after forward

end Builder

/-! ## Pages -/

/-- The stretch of a piece of markup. -/
def Markup.span : Markup → Span
  | .tag head parts close => (StartTag.ofTokens head parts close).1.span
  | .single t => t.span

/-- The stretch of a piece runs from its first token to its last. -/
theorem Markup.span_eq (piece : Markup) : ∃ first rest last, piece.tokens = first :: rest ∧
    last ∈ piece.tokens ∧ piece.span = ⟨first.span.start, last.span.finish⟩ := by
  cases piece with
  | tag head parts close =>
      exact ⟨head, _, _, rfl, List.getLast_mem (List.cons_ne_nil head _), rfl⟩
  | single t => exact ⟨t, [], t, rfl, List.mem_cons_self, rfl⟩

/-- Pieces of markup that come one after the other, between two offsets. -/
structure Successive (low high : Nat) (pieces : List Markup) : Prop where
  within : ∀ piece ∈ pieces, low ≤ piece.span.start.offset ∧
    piece.span.start.offset ≤ piece.span.finish.offset ∧ piece.span.finish.offset ≤ high
  ordered : pieces.Pairwise fun before after =>
    before.span.finish.offset ≤ after.span.start.offset

theorem successive_ofTokens {g : Passage} {ts : List (Token TokenKind)} (reads : g.Reads ts)
    (within : ∀ t ∈ ts, low ≤ t.span.start.offset ∧ t.span.finish.offset ≤ high) :
    Successive low high (Markup.ofTokens ts) := by
  rw [← Markup.flatMap_tokens_ofTokens ts] at reads within
  constructor
  · intro piece member
    have inside : piece.tokens.Sublist ((Markup.ofTokens ts).flatMap Markup.tokens) :=
      List.sublist_flatten_of_mem (List.mem_map_of_mem member)
    obtain ⟨first, rest, last, tokens, ends, span⟩ := piece.span_eq
    have begins : first ∈ piece.tokens := by simp [tokens]
    have own := reads.sublist inside
    have forward := (own.covers begins).offset_le
    rw [tokens] at own
    rw [tokens] at ends
    have later := own.finish_le ends
    rw [← tokens] at ends
    rw [span]
    exact ⟨(within first (inside.subset begins)).1, Nat.le_trans forward later,
      (within last (inside.subset ends)).2⟩
  · refine (List.pairwise_flatMap.mp reads.ordered).2.imp ?_
    intro before after apart
    obtain ⟨_, _, last, -, ends, span⟩ := before.span_eq
    obtain ⟨first, rest, _, tokens, -, span'⟩ := after.span_eq
    rw [span, span']
    exact apart last ends first (by simp [tokens])

namespace Builder

variable {b : Builder} {pieces : List Markup}

/-- **What one piece of markup keeps**: where the reading has come to moves on to its end. -/
theorem Holds.step (holds : b.Holds low) (cap : Option Nat) {piece : Markup}
    (after : low ≤ piece.span.start.offset)
    (forward : piece.span.start.offset ≤ piece.span.finish.offset) :
    (b.step cap piece).1.Holds piece.span.finish.offset := by
  cases piece with
  | tag head parts close => exact holds.openTag cap after forward
  | single t => exact holds.takeIn after forward

theorem Holds.run (holds : b.Holds low) (le : low ≤ high) (cap : Option Nat)
    (successive : Successive low high pieces) : (b.run cap pieces).1.Holds high := by
  induction pieces generalizing b low with
  | nil => exact holds.mono le
  | cons piece pieces ih =>
      obtain ⟨within, ordered⟩ := successive
      rw [List.forall_mem_cons] at within
      obtain ⟨⟨after, forward, before⟩, others⟩ := within
      obtain ⟨first, apart⟩ := List.pairwise_cons.mp ordered
      refine ih (holds.step cap after forward) before ⟨?_, apart⟩
      intro other member
      exact ⟨first other member, (others other member).2⟩

end Builder

/-- The nodes of a tree, in order, fit between two offsets between which its tokens stand. -/
theorem fit_buildTree {g : Passage} {ts : List (Token TokenKind)} (reads : g.Reads ts)
    (within : ∀ t ∈ ts, t.span.finish.offset ≤ high) (cap : Option Nat) :
    Fit 0 high (buildTree cap ts).1.reverse := by
  have successive : Successive 0 high (Markup.ofTokens ts) :=
    successive_ofTokens reads fun t member => ⟨Nat.zero_le _, within t member⟩
  have built := (Builder.holds_empty.run (Nat.zero_le high) cap successive).closeMany
    (Builder.empty.run cap (Markup.ofTokens ts)).1.stack.length
  have closed := Builder.stack_finish (Builder.empty.run cap (Markup.ofTokens ts)).1
  rw [Builder.Holds, show (Builder.closeMany _ _).stack = [] from closed] at built
  rw [buildTree, List.reverse_reverse]
  exact built

/-- **Stretches nest.** The page as a whole, and every element in it, takes in its start tag,
its children one after the other, and its end tag; and the page is the whole text. -/
theorem page_nests (cs : List Char) :
    (Page.ofText cs).root.span = .covering .start cs ∧ (Page.ofText cs).root.Nests ∧
      ∀ e ∈ elementsOf (preorderIn (Page.ofText cs).root.children), e.Nests := by
  have reads := Page.reads_tokens cs
  have length : (Page.ofText cs).root.span.finish.offset = bytes cs :=
    (Position.offset_after .start cs).trans (Nat.zero_add _)
  have within : ∀ t ∈ tokenize cs, t.span.finish.offset ≤ bytes cs := by
    intro t member
    have last := (reads.covers member).finish.offset_le
    rwa [show (Passage.whole cs).origin.offset = 0 from rfl, Nat.zero_add] at last
  have fit := fit_buildTree reads within (some depthCap)
  refine ⟨rfl, ?_, ?_⟩
  · have around : Element.Nests ⟨(Page.ofText cs).root.tag,
        (buildTree (some depthCap) (tokenize cs)).1.reverse.reverse, none,
        (Page.ofText cs).root.span⟩ :=
      nests_around rfl (Nat.le_refl _) fit length.ge (by simp)
    rwa [List.reverse_reverse] at around
  · rw [forall_elementsOf_preorderIn]
    intro node member
    exact (fit.forall node (List.mem_reverse.mpr member)).1

end PageLint.Html
