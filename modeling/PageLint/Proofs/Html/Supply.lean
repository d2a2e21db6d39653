/-
# PageLint.Proofs.Html.Supply — stylesheets are found again where they were gathered

Stylesheets can be gathered in one pass over the tree and handed out in another. The first pass
(`gatheredIn`) takes the texts of an element before it goes into its children. The second one
(`walkIn`) goes through the nodes in document order with what was gathered as its supply, and draws
the next stylesheet at each text whose parent holds one. Neither knows of the other, and one text out
of step would put every later stylesheet in the wrong place.

They agree because an element that holds a stylesheet holds texts alone (`Node.Pure`), so that the
order of gathering is document order (`gatheredIn_eq`). The builder keeps it so: what it puts into an
open stylesheet is a raw text, since `Calm` leaves nothing else to come there. The supply is then used
up exactly, each text drawing the stylesheet that was read from it (`walkIn_supply`).
-/
import PageLint.Proofs.Html.Outline

namespace PageLint.Html

set_option autoImplicit false

open Text

/-! ## Two passes -/

mutual

/-- The texts of stylesheets below a node: those of the element itself first, and then those of the
elements in it. -/
def Node.gathered : Node → List TextNode
  | .element tag children _ _ =>
    (if tag.isStylesheet then children.filterMap Node.text? else []) ++ gatheredIn children
  | _ => []

/-- The texts of stylesheets below some nodes, as they are gathered. -/
def gatheredIn : List Node → List TextNode
  | [] => []
  | node :: nodes => node.gathered ++ gatheredIn nodes

end

mutual

/-- A node and all that it contains, in document order, with what is left of a supply of stylesheets:
a text in an element that holds one draws the next. -/
def Node.walk (ancestors : List Element) : Node → List Css.Sheet → List Subject × List Css.Sheet
  | .element tag children endTag span, supply =>
    let e : Element := ⟨tag, children, endTag, span⟩
    let inside := walkIn (ancestors ++ [e]) children supply
    (.htmlElement e ancestors :: inside.1, inside.2)
  | .text t, supply =>
    if ancestors.getLast?.any (·.tag.isStylesheet) then
      (.htmlText t :: (supply.head?.map Css.Sheet.subjects).getD [], supply.drop 1)
    else ([.htmlText t], supply)
  | .comment c, supply => ([.htmlComment c], supply)
  | .doctype d, supply => ([.htmlDoctype d], supply)

/-- Nodes in order, each with all that it contains, with what is left of a supply. -/
def walkIn (ancestors : List Element) : List Node → List Css.Sheet → List Subject × List Css.Sheet
  | [], supply => ([], supply)
  | node :: nodes, supply =>
    let first := node.walk ancestors supply
    let others := walkIn ancestors nodes first.2
    (first.1 ++ others.1, others.2)

end

mutual

theorem Node.walk_supply (ancestors : List Element) (rest : List Css.Sheet) :
    (node : Node) → node.walk ancestors ((node.styleTexts
        (ancestors.getLast?.any (·.tag.isStylesheet))).map TextNode.sheet ++ rest) =
      (node.subjects ancestors, rest)
  | .element tag children endTag span => by
      have inside := walkIn_supply (ancestors ++ [⟨tag, children, endTag, span⟩]) rest children
      rw [List.getLast?_concat] at inside
      rw [Node.walk, Node.styleTexts, Node.subjects]
      simp only [Option.any_some] at inside
      simp only [inside]
  | .text t => by
      rw [Node.walk, Node.styleTexts, Node.subjects]
      split <;> simp
  | .comment c => by simp [Node.walk, Node.styleTexts, Node.subjects]
  | .doctype d => by simp [Node.walk, Node.styleTexts, Node.subjects]

/-- **Each text draws its own stylesheet**: supplied with the stylesheets of the texts in document
order, the walk gives the subjects, and leaves what is supplied beyond them. -/
theorem walkIn_supply (ancestors : List Element) (rest : List Css.Sheet) :
    (nodes : List Node) → walkIn ancestors nodes ((styleTextsIn
        (ancestors.getLast?.any (·.tag.isStylesheet)) nodes).map TextNode.sheet ++ rest) =
      (nodesSubjects ancestors nodes, rest)
  | [] => by
      rw [walkIn, styleTextsIn, nodesSubjects]
      rfl
  | node :: nodes => by
      rw [walkIn, styleTextsIn, nodesSubjects, List.map_append, List.append_assoc,
        Node.walk_supply ancestors _ node]
      simp only [walkIn_supply ancestors rest nodes]

end

/-! ## Elements that hold texts alone -/

/-- If the node is an element that holds a stylesheet, its children are texts. -/
def Node.TextAlone : Node → Prop
  | .element tag children _ _ => tag.isStylesheet → ∀ child ∈ children, child.text?.isSome
  | _ => True

/-- The elements at or below a node that hold stylesheets hold texts alone. -/
def Node.Pure (node : Node) : Prop := ∀ sub ∈ node.preorder, sub.TextAlone

theorem pure_element {tag : StartTag} {children : List Node} {endTag : Option Span} {span : Span} :
    (Node.element tag children endTag span).Pure ↔
      (tag.isStylesheet → ∀ child ∈ children, child.text?.isSome) ∧
        ∀ child ∈ children, child.Pure := by
  rw [Node.Pure, Node.preorder, List.forall_mem_cons]
  refine and_congr Iff.rfl ?_
  induction children with
  | nil => simp [preorderIn]
  | cons child children ih => rw [preorderIn, List.forall_mem_append, List.forall_mem_cons, ih]; rfl

theorem styleTextsIn_texts {nodes : List Node} (texts : ∀ node ∈ nodes, node.text?.isSome) :
    styleTextsIn true nodes = nodes.filterMap Node.text? ∧ gatheredIn nodes = [] := by
  induction nodes with
  | nil => exact ⟨rfl, rfl⟩
  | cons node nodes ih =>
      obtain ⟨first, others⟩ := List.forall_mem_cons.mp texts
      obtain ⟨same, none_⟩ := ih others
      cases node with
      | text t => simp [styleTextsIn, Node.styleTexts, gatheredIn, Node.gathered, Node.text?, same, none_]
      | _ => cases first

mutual

theorem Node.gathered_eq : (node : Node) → node.Pure → node.gathered = node.styleTexts false
  | .element tag children endTag span, pure => by
      obtain ⟨texts, inside⟩ := pure_element.mp pure
      have below := gatheredIn_eq children inside
      rw [Node.gathered, Node.styleTexts]
      cases style : tag.isStylesheet with
      | false => simpa using below
      | true =>
          obtain ⟨own, none_⟩ := styleTextsIn_texts (texts style)
          rw [own, none_, if_pos rfl, List.append_nil]
  | .text t, _ => rfl
  | .comment c, _ => rfl
  | .doctype d, _ => rfl

/-- **What is gathered comes in document order** where elements that hold stylesheets hold texts
alone. -/
theorem gatheredIn_eq : (nodes : List Node) → (∀ node ∈ nodes, node.Pure) →
    gatheredIn nodes = styleTextsIn false nodes
  | [], _ => rfl
  | node :: nodes, pure => by
      obtain ⟨first, others⟩ := List.forall_mem_cons.mp pure
      rw [gatheredIn, styleTextsIn, Node.gathered_eq node first, gatheredIn_eq nodes others]

end

/-! ## What the builder keeps -/

/-- Nothing but texts is in an open element that holds a stylesheet, and what is complete is pure. -/
structure OpenElement.Pure (e : OpenElement) : Prop where
  texts : e.tag.isStylesheet → ∀ child ∈ e.children, child.text?.isSome
  children : ∀ child ∈ e.children, child.Pure

theorem OpenElement.Pure.close {e : OpenElement} (pure : e.Pure) (endTag : Option Span) :
    (e.close endTag).Pure :=
  pure_element.mpr ⟨fun style child member => pure.texts style child (List.mem_reverse.mp member),
    fun child member => pure.children child (List.mem_reverse.mp member)⟩

namespace Builder

variable {b : Builder} {node : Node} {t : Token TokenKind} {cap : Option Nat}
  {pieces : List Markup} {piece : Markup}

/-- All that the builder holds is pure. -/
structure Pure (b : Builder) : Prop where
  top : ∀ node ∈ b.top, node.Pure
  stack : ∀ e ∈ b.stack, e.Pure

theorem pure_empty : Builder.empty.Pure := ⟨by simp [empty], by simp [empty]⟩

theorem Pure.append (pure : b.Pure) (own : node.Pure) (text : b.inStyle → node.text?.isSome) :
    (b.append node).Pure := by
  obtain ⟨stack, top, flattened⟩ := b
  cases stack with
  | nil => exact ⟨List.forall_mem_cons.mpr ⟨own, pure.top⟩, pure.stack⟩
  | cons e outer =>
      obtain ⟨first, others⟩ := List.forall_mem_cons.mp pure.stack
      refine ⟨pure.top, List.forall_mem_cons.mpr ⟨⟨fun style => ?_, ?_⟩, others⟩⟩
      · exact List.forall_mem_cons.mpr ⟨text (by simpa [inStyle, tags] using style), first.texts style⟩
      · exact List.forall_mem_cons.mpr ⟨own, first.children⟩

/-- An element that ends goes into one that holds no stylesheet. -/
theorem Pure.closeTop (pure : b.Pure) (outer : ∀ tag ∈ b.tags.drop 1, tag.isStylesheet = false)
    (endTag : Option Span) : (b.closeTop endTag).Pure := by
  obtain ⟨stack, top, flattened⟩ := b
  cases stack with
  | nil => exact pure
  | cons e stack =>
      obtain ⟨first, others⟩ := List.forall_mem_cons.mp pure.stack
      refine Pure.append (b := ⟨stack, top, flattened⟩) ⟨pure.top, others⟩ (first.close endTag) ?_
      intro inside
      obtain ⟨tag, head, style⟩ := (Option.any_eq_true _ _).mp inside
      rw [outer tag (List.mem_of_mem_head? head)] at style
      cases style

/-- Pure, with no open stylesheet but the innermost element. -/
structure Settled (b : Builder) : Prop where
  pure : b.Pure
  outer : ∀ tag ∈ b.tags.drop 1, tag.isStylesheet = false

theorem Settled.closeTop (settled : b.Settled) (endTag : Option Span) :
    (b.closeTop endTag).Settled where
  pure := settled.pure.closeTop settled.outer endTag
  outer := by
    rw [tags_closeTop]
    exact fun tag member => settled.outer tag (List.mem_of_mem_drop member)

theorem Settled.closeMany (settled : b.Settled) (n : Nat) : (closeMany n b).Settled :=
  closeMany_keeps (P := Settled) (fun _ kept => kept.closeTop none) settled n

theorem Settled.closeImplied (settled : b.Settled) (incoming : List Char) :
    (b.closeImplied incoming).Settled :=
  closeImplied_keeps (P := Settled) (fun _ kept => kept.closeTop none)
    (fun _ _ kept => ⟨⟨kept.pure.top, kept.pure.stack⟩, kept.outer⟩) settled incoming

/-- A start tag that comes outside stylesheets. -/
theorem Settled.openTag (settled : b.Settled) (calm : Calm cap b pieces)
    (outside : b.inStyle = false) (tag : StartTag) : (b.openTag cap tag).1.Pure := by
  obtain ⟨plain, -⟩ := calm.closeImplied outside tag.name
  have closed := (settled.closeImplied tag.name).pure
  simp only [Builder.openTag]
  generalize b.closeImplied tag.name = b' at plain closed
  have apart : b'.inStyle → (Node.element tag [] none tag.span).text?.isSome := by
    intro inside
    obtain ⟨held, head, style⟩ := (Option.any_eq_true _ _).mp inside
    rw [plain held (List.mem_of_mem_head? head)] at style
    cases style
  have whole := closed.append (pure_element.mpr (by simp)) apart
  split
  · exact whole
  split
  · exact ⟨whole.top, whole.stack⟩
  · exact ⟨closed.top, List.forall_mem_cons.mpr ⟨⟨by simp, by simp⟩, closed.stack⟩⟩

theorem Settled.close (settled : b.Settled) (t : Token TokenKind) : (b.close t).1.Pure := by
  have pure := settled.pure
  simp only [Builder.close]
  split
  · exact pure
  split
  · exact ⟨pure.top, pure.stack⟩
  split
  · exact pure
  · have unflattened : Settled { b with flattened := [] } := ⟨⟨pure.top, pure.stack⟩, settled.outer⟩
    exact ((unflattened.closeMany _).closeTop _).pure

theorem Settled.takeIn (settled : b.Settled) (calm : Calm cap b (.single t :: pieces)) :
    (b.takeIn t).1.Pure := by
  have appended : t.kind ≠ .rawText → t.kind ≠ .tagClose → ∀ node : Node, node.Pure →
      (b.append node).Pure := by
    intro raw close node own
    refine settled.pure.append own fun inside => ?_
    rw [calm.outside raw close] at inside
    cases inside
  rw [Builder.takeIn]
  split
  case h_5 raw => exact settled.pure.append (by simp [Node.Pure, Node.preorder, Node.TextAlone]) fun _ => rfl
  case h_8 kind => exact settled.close t
  all_goals
    next kind =>
      first
        | exact settled.pure
        | exact appended (by rw [kind]; decide) (by rw [kind]; decide) _
            (by simp [Node.Pure, Node.preorder, Node.TextAlone])

theorem Settled.step (settled : b.Settled) (calm : Calm cap b (piece :: pieces)) :
    (b.step cap piece).1.Pure := by
  cases piece with
  | tag head parts close =>
      have outside : b.inStyle = false := by
        cases inside : b.inStyle with
        | false => rfl
        | true => exact (calm.inner inside).2.elim
      exact settled.openTag calm outside _
  | single t => exact settled.takeIn calm

/-- **What a run keeps**: all that the builder holds is pure. -/
theorem Pure.run (pure : b.Pure) (calm : Calm cap b pieces) (framed : Framed pieces) :
    (b.run cap pieces).1.Settled := by
  induction pieces generalizing b with
  | nil => exact ⟨pure, calm.outer⟩
  | cons piece pieces ih =>
      obtain ⟨frame, others⟩ := framed
      exact ih (Settled.step ⟨pure, calm.outer⟩ calm) (calm.step frame).calm others

end Builder

/-! ## Pages -/

/-- **In a page, an element that holds a stylesheet holds texts alone.** -/
theorem Page.pure_nodes (cs : List Char) : ∀ node ∈ (Page.ofText cs).nodes, node.Pure := by
  have run := Builder.pure_empty.run (Builder.calm_empty (some depthCap) _)
    (framed_of_lexed ⟨_, lexed_tokenize cs⟩)
  intro node member
  exact (run.closeMany _).pure.top node (List.mem_reverse.mp member)

end PageLint.Html
