/-
# PageLint.Proofs.Html.Retag — start tags changed where the builder does not look

Of a start tag the builder sees its name, how it ends and where it lies, and nothing of its attributes.
A `Retag` changes start tags and leaves these as they are. Each operation of the builder commutes with
it, so that pieces of markup whose start tags are changed build the tree whose start tags are changed
(`buildTree_retag`).
-/
import PageLint.Proofs.Html.Outline

namespace PageLint.Html

set_option autoImplicit false

open Text

/-- A change of start tags that the builder does not see. -/
structure Retag where
  tag : StartTag → StartTag
  name : ∀ t, (tag t).name = t.name
  selfClosing : ∀ t, (tag t).selfClosing = t.selfClosing
  finish : ∀ t, (tag t).finish = t.finish
  span : ∀ t, (tag t).span = t.span

namespace Retag

/-- Start tags without the attribute that lies at a stretch. -/
def dropping (s : Span) : Retag where
  tag t := { t with attributes := t.attributes.filter (·.span != s) }
  name _ := rfl
  selfClosing _ := rfl
  finish _ := rfl
  span _ := rfl

variable (f : Retag)

mutual

/-- A node with all that it contains, its start tags changed. -/
def node : Node → Node
  | .element tag children endTag span => .element (f.tag tag) (nodes children) endTag span
  | .text t => .text t
  | .comment c => .comment c
  | .doctype d => .doctype d

/-- Nodes, each with all that it contains. -/
def nodes : List Node → List Node
  | [] => []
  | first :: others => node first :: nodes others

end

def openElement (e : OpenElement) : OpenElement := ⟨f.tag e.tag, f.nodes e.children⟩

def builder (b : Builder) : Builder := ⟨b.stack.map f.openElement, f.nodes b.top, b.flattened⟩

/-- The second piece is the first one with its start tag changed, if it has one. -/
inductive Fits : Markup → Markup → Prop
  | single (t : Token TokenKind) : Fits (.single t) (.single t)
  | tag {head head' : Token TokenKind} {parts parts' : List (Token TokenKind)}
      {close close' : Option (Token TokenKind)} : (StartTag.ofTokens head' parts' close').1 =
        f.tag (StartTag.ofTokens head parts close).1 →
    Fits (.tag head parts close) (.tag head' parts' close')

variable {f} {b : Builder} {t : Token TokenKind}

theorem nodes_eq_map (nodes : List Node) : f.nodes nodes = nodes.map f.node := by
  induction nodes with
  | nil => rfl
  | cons node nodes ih => rw [Retag.nodes, ih, List.map_cons]

theorem span_node (node : Node) : (f.node node).span = node.span := by
  cases node <;> rfl

theorem isVoid_tag (tag : StartTag) : (f.tag tag).isVoid = tag.isVoid := by
  rw [StartTag.isVoid, StartTag.isVoid, f.name]

/-! ## The builder -/

theorem append_builder (b : Builder) (node : Node) :
    (f.builder b).append (f.node node) = f.builder (b.append node) := by
  obtain ⟨stack, top, flattened⟩ := b
  cases stack <;> rfl

theorem close_openElement (e : OpenElement) (endTag : Option Span) :
    (f.openElement e).close endTag = f.node (e.close endTag) := by
  obtain ⟨tag, children⟩ := e
  cases endTag with
  | some s => simp [OpenElement.close, openElement, node, nodes_eq_map, f.span]
  | none =>
      cases children <;> simp [OpenElement.close, openElement, node, nodes_eq_map, f.span, span_node]

theorem closeTop_builder (b : Builder) (endTag : Option Span) :
    (f.builder b).closeTop endTag = f.builder (b.closeTop endTag) := by
  obtain ⟨stack, top, flattened⟩ := b
  cases stack with
  | nil => rfl
  | cons e outer =>
      have whole := append_builder (f := f) ⟨outer, top, flattened⟩ (e.close endTag)
      rw [← close_openElement] at whole
      exact whole

theorem closeMany_builder (n : Nat) (b : Builder) :
    Builder.closeMany n (f.builder b) = f.builder (Builder.closeMany n b) := by
  induction n generalizing b with
  | zero => rfl
  | succ n ih => rw [Builder.closeMany, Builder.closeMany, ← ih, closeTop_builder]

/-- How many are open up to one is told by names. -/
theorem length_takeWhile (p : List Char → Bool) (stack : List OpenElement) :
    ((stack.map f.openElement).takeWhile fun e => p e.tag.name).length =
      (stack.takeWhile fun e => p e.tag.name).length := by
  rw [List.takeWhile_map, List.length_map]
  have same : ((fun e : OpenElement => p e.tag.name) ∘ f.openElement) = fun e => p e.tag.name :=
    funext fun e => congrArg p (f.name e.tag)
  rw [same]

theorem closeImplied_builder (b : Builder) (incoming : List Char) :
    (f.builder b).closeImplied incoming = f.builder (b.closeImplied incoming) := by
  have same : (f.builder b).flattened = b.flattened := rfl
  have stack : (f.builder b).stack = b.stack.map f.openElement := rfl
  have ended := length_takeWhile (f := f) (closedBy · incoming) b.stack
  rw [Builder.closeImplied, Builder.closeImplied, same, stack, ended]
  split
  · rw [← closeMany_builder]
    rfl
  · rfl

theorem openTag_builder (b : Builder) (cap : Option Nat) (tag : StartTag) :
    ((f.builder b).openTag cap (f.tag tag)).1 = f.builder (b.openTag cap tag).1 := by
  have whole : Node.element (f.tag tag) [] none (f.tag tag).span =
      f.node (.element tag [] none tag.span) := by
    rw [f.span]
    rfl
  have full : ∀ b : Builder, (f.builder b).isFull cap = b.isFull cap := fun b => by
    simp [Builder.isFull, builder]
  simp only [Builder.openTag, f.name, isVoid_tag, f.selfClosing, f.finish, closeImplied_builder,
    whole, append_builder, full]
  split
  · rfl
  split <;> rfl

theorem close_builder (b : Builder) (t : Token TokenKind) :
    ((f.builder b).close t).1 = f.builder (b.close t).1 := by
  have stack : (f.builder b).stack = b.stack.map f.openElement := rfl
  have flattened : (f.builder b).flattened = b.flattened := rfl
  have inner := length_takeWhile (f := f) (· != Builder.endTagName t.text) b.stack
  simp only [Builder.close, stack, flattened, inner, List.length_map]
  split
  · rfl
  split
  · rfl
  split
  · rfl
  · rw [← closeTop_builder, ← closeMany_builder]
    rfl

theorem takeIn_builder (b : Builder) (t : Token TokenKind) :
    ((f.builder b).takeIn t).1 = f.builder (b.takeIn t).1 := by
  unfold Builder.takeIn
  cases t.kind
  case tagClose => exact close_builder b t
  case doctype => exact append_builder b (.doctype ⟨t.text, t.span⟩)
  case comment => exact append_builder b (.comment ⟨t.text, t.span⟩)
  case cdata | rawText => exact append_builder b (.text ⟨t.text, true, t.span⟩)
  case text | blank => exact append_builder b (.text ⟨t.text, false, t.span⟩)
  all_goals rfl

/-- **A step commutes with the change of start tags.** -/
theorem step_builder {piece piece' : Markup} (fits : f.Fits piece piece') (cap : Option Nat)
    (b : Builder) : ((f.builder b).step cap piece').1 = f.builder (b.step cap piece).1 := by
  cases fits with
  | single t => exact takeIn_builder b t
  | tag same =>
      simp only [Builder.step, same]
      exact openTag_builder b cap _

theorem run_builder {pieces pieces' : List Markup} (fits : List.Forall₂ f.Fits pieces pieces')
    (cap : Option Nat) (b : Builder) :
    ((f.builder b).run cap pieces').1 = f.builder (b.run cap pieces).1 := by
  induction fits generalizing b with
  | nil => rfl
  | cons first _ ih => simp only [Builder.run, step_builder first, ih]

/-- **Pieces whose start tags are changed build the tree whose start tags are changed.** -/
theorem buildTree_retag {ts ts' : List (Token TokenKind)}
    (fits : List.Forall₂ f.Fits (Markup.ofTokens ts) (Markup.ofTokens ts')) (cap : Option Nat) :
    (buildTree cap ts').1 = f.nodes (buildTree cap ts).1 := by
  have run : ((Builder.empty).run cap (Markup.ofTokens ts')).1 =
      f.builder ((Builder.empty).run cap (Markup.ofTokens ts)).1 := run_builder fits cap .empty
  have length : ∀ b, (f.builder b).stack.length = b.stack.length := fun b => List.length_map _
  simp only [buildTree, Builder.finish, run, length, closeMany_builder, nodes_eq_map, List.map_reverse]
  exact congrArg List.reverse (nodes_eq_map _)

/-! ## Stylesheets -/

mutual

theorem styleTexts_node (inStyle : Bool) : (node : Node) →
    (∀ e ∈ elementsOf node.preorder, (f.tag e.tag).isStylesheet = e.tag.isStylesheet) →
      (f.node node).styleTexts inStyle = node.styleTexts inStyle
  | .element tag children endTag span, same => by
      obtain ⟨own, inside⟩ := List.forall_mem_cons.mp same
      rw [Retag.node, Node.styleTexts, Node.styleTexts, own, styleTexts_nodes _ children inside]
  | .text t, _ => rfl
  | .comment c, _ => rfl
  | .doctype d, _ => rfl

/-- **The same texts hold stylesheets**, if the same elements do. -/
theorem styleTexts_nodes (inStyle : Bool) : (nodes : List Node) →
    (∀ e ∈ elementsOf (preorderIn nodes), (f.tag e.tag).isStylesheet = e.tag.isStylesheet) →
      styleTextsIn inStyle (f.nodes nodes) = styleTextsIn inStyle nodes
  | [], _ => rfl
  | node :: nodes, same => by
      rw [preorderIn, elementsOf, List.filterMap_append, List.forall_mem_append] at same
      rw [Retag.nodes, styleTextsIn, styleTextsIn, styleTexts_node _ node same.1,
        styleTexts_nodes _ nodes same.2]

end

end Retag

end PageLint.Html
