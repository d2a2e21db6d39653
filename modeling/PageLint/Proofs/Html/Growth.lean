/-
# PageLint.Proofs.Html.Growth — what is built stays

The tree of a builder is what the page would be if it ended here: `Builder.tree` closes all that is
open. An element that ends by implication, or is opened, changes this tree no more than a node that is
put in (`tree_closeImplied`, `tree_openTag`). So as a page is read on, its tree grows at the end only:
more siblings come, and the last one goes on if it is an element that has not got its end tag
(`Grows`). What an open element holds so far is therefore how the element of the page with this start
tag begins (`exists_of_grows`), and what has its end tag inside it is there unchanged (`Grows.mem`).
-/
import PageLint.Proofs.Html.Depth
import PageLint.Proofs.Html.Walk

namespace PageLint.Html

set_option autoImplicit false

open Text

variable {nodes more : List Node} {node : Node}

/-! ## Siblings that grow -/

/-- What siblings become when more is read: others come after them, and the last one, if it is an
element without an end tag, may go on. -/
inductive Grows : List Node → List Node → Prop
  | more (nodes more : List Node) : Grows nodes (nodes ++ more)
  | inside {inner inner' : List Node} (nodes more : List Node) (tag : StartTag)
      (endTag : Option Span) (span span' : Span) : Grows inner inner' →
      Grows (nodes ++ [.element tag inner none span])
        (nodes ++ .element tag inner' endTag span' :: more)

theorem Grows.refl (nodes : List Node) : Grows nodes nodes := by
  have same := Grows.more nodes []
  rwa [List.append_nil] at same

theorem Grows.trans {first second third : List Node} (now : Grows first second)
    (later : Grows second third) : Grows first third := by
  induction now generalizing third with
  | more nodes added =>
      generalize whole : nodes ++ added = second at later
      cases later with
      | more _ others =>
          rw [← whole, List.append_assoc]
          exact .more _ _
      | inside before others tag endTag span span' inner =>
          rcases List.eq_nil_or_concat added with rfl | ⟨init, last, rfl⟩
          · rw [List.append_nil] at whole
            rw [whole]
            exact .inside _ _ _ _ _ _ inner
          · rw [List.concat_eq_append, ← List.append_assoc] at whole
            obtain ⟨rfl, -⟩ := List.append_inj' whole rfl
            rw [List.append_assoc]
            exact .more _ _
  | @inside inner inner' nodes added tag endTag span span' _ ih =>
      generalize whole : nodes ++ Node.element tag inner' endTag span' :: added = second at later
      cases later with
      | more _ others =>
          rw [← whole, List.append_assoc]
          exact .inside _ _ _ _ _ _ ‹_›
      | inside before others tag' endTag' old new next =>
          rcases List.eq_nil_or_concat added with rfl | ⟨init, last, rfl⟩
          · obtain ⟨rfl, last⟩ := List.append_inj' whole rfl
            cases last
            exact .inside _ _ _ _ _ _ (ih next)
          · rw [List.concat_eq_append, ← List.cons_append, ← List.append_assoc] at whole
            obtain ⟨rfl, -⟩ := List.append_inj' whole rfl
            rw [List.append_assoc]
            exact .inside _ _ _ _ _ _ ‹_›

/-- A last sibling that has its end tag, or is no element, stays. -/
theorem Grows.mem {last : Node} {init : List Node} (grows : Grows (init ++ [last]) more) :
    (∀ node ∈ init, node ∈ more) ∧
      ((∀ tag inner span, last ≠ .element tag inner none span) → init ++ [last] <+: more) := by
  generalize whole : init ++ [last] = nodes at grows
  cases grows with
  | more _ added =>
      refine ⟨fun node member => ?_, fun _ => List.prefix_append _ _⟩
      rw [← whole]
      simp [member]
  | inside before added tag endTag span span' inner =>
      obtain ⟨rfl, same⟩ := List.append_inj' whole rfl
      obtain rfl := List.singleton_inj.mp same
      exact ⟨fun node member => List.mem_append_left _ member, fun other => absurd rfl (other _ _ _)⟩

/-- A last sibling that is an element without an end tag is how an element begins. -/
theorem Grows.element {tag : StartTag} {inner init : List Node} {span : Span}
    (grows : Grows (init ++ [.element tag inner none span]) more) : ∃ e : Element, ∃ rest,
      more = init ++ e.toNode :: rest ∧ e.tag = tag ∧ Grows inner e.children := by
  generalize whole : init ++ [Node.element tag inner none span] = nodes at grows
  cases grows with
  | more _ added =>
      refine ⟨⟨tag, inner, none, span⟩, added, ?_, rfl, .refl _⟩
      rw [← whole, List.append_assoc]
      rfl
  | @inside _ inner' before added tag' endTag span span' grown =>
      obtain ⟨rfl, same⟩ := List.append_inj' whole rfl
      cases same
      exact ⟨⟨tag, inner', endTag, span'⟩, added, rfl, rfl, grown⟩

/-! ## The tree so far -/

namespace Builder

variable {b : Builder} {cap : Option Nat}

/-- The tree of a page that would end here. -/
def tree (b : Builder) : List Node := (closeMany b.stack.length b).top.reverse

theorem length_closeTop (b : Builder) (endTag : Option Span) :
    (b.closeTop endTag).stack.length = b.stack.length - 1 := by
  rw [← length_tags, tags_closeTop, List.length_drop, length_tags]

/-- The end of the page ends what is open in any case. -/
@[simp] theorem tree_closeTop_none (b : Builder) : (b.closeTop none).tree = b.tree := by
  rw [tree, length_closeTop, tree]
  obtain ⟨stack, top, flattened⟩ := b
  cases stack <;> rfl

theorem closeMany_flattened (n : Nat) (b : Builder) (names : List (List Char)) :
    closeMany n { b with flattened := names } = { closeMany n b with flattened := names } := by
  induction n generalizing b with
  | zero => rfl
  | succ n ih =>
      have first : closeTop { b with flattened := names } none =
          { b.closeTop none with flattened := names } := by
        obtain ⟨stack, top, flattened⟩ := b
        cases stack with
        | nil => rfl
        | cons e outer => cases outer <;> rfl
      rw [closeMany, first, ih, closeMany]

@[simp] theorem tree_flattened (b : Builder) (names : List (List Char)) :
    tree { b with flattened := names } = b.tree := by
  rw [tree, closeMany_flattened]
  rfl

@[simp] theorem tree_closeMany (n : Nat) (b : Builder) : (closeMany n b).tree = b.tree :=
  closeMany_keeps (P := fun b' => b'.tree = b.tree)
    (fun b' same => (tree_closeTop_none b').trans same) rfl n

@[simp] theorem tree_closeImplied (b : Builder) (incoming : List Char) :
    (b.closeImplied incoming).tree = b.tree :=
  closeImplied_keeps (P := fun b' => b'.tree = b.tree)
    (fun b' same => (tree_closeTop_none b').trans same)
    (fun b' names same => (tree_flattened b' names).trans same) rfl incoming

/-- **An element begins as a node without content.** -/
theorem tree_openTag (b : Builder) (cap : Option Nat) (tag : StartTag) :
    (b.openTag cap tag).1.tree =
      ((b.closeImplied tag.name).append (.element tag [] none tag.span)).tree := by
  simp only [openTag]
  split
  · rfl
  split
  · exact tree_flattened _ _
  · exact (tree_closeTop_none _).symm

end Builder

/-- What has not got its end tag goes on as its content does. -/
theorem grows_close (tag : StartTag) {inner inner' : List Node}
    (grows : Grows inner.reverse inner'.reverse) (endTag : Option Span) (before : List Node) :
    Grows (OpenElement.close ⟨tag, inner⟩ none :: before).reverse
      (OpenElement.close ⟨tag, inner'⟩ endTag :: before).reverse := by
  rw [List.reverse_cons, List.reverse_cons]
  exact .inside _ [] _ _ _ _ grows

namespace Builder

variable {b : Builder} {cap : Option Nat}

/-- What grows inside an open element makes the tree grow. -/
theorem grows_stack (tag : StartTag) {inner inner' : List Node}
    (grows : Grows inner.reverse inner'.reverse) (endTag : Option Span)
    (stack : List OpenElement) (top : List Node) (flattened : List (List Char)) :
    Grows (append ⟨stack, top, flattened⟩ (OpenElement.close ⟨tag, inner⟩ none)).tree
      (append ⟨stack, top, flattened⟩ (OpenElement.close ⟨tag, inner'⟩ endTag)).tree := by
  induction stack generalizing tag inner inner' endTag with
  | nil => exact grows_close tag grows endTag top
  | cons e outer ih =>
      have later := ih e.tag (grows_close tag grows endTag e.children) none
      have closed : ∀ node, (append ⟨outer, top, flattened⟩
          (OpenElement.close ⟨e.tag, node :: e.children⟩ none)).tree =
            (append ⟨e :: outer, top, flattened⟩ node).tree :=
        fun node => tree_closeTop_none (append ⟨e :: outer, top, flattened⟩ node)
      rwa [closed, closed] at later

theorem grows_append (b : Builder) (node : Node) : Grows b.tree (b.append node).tree := by
  obtain ⟨stack, top, flattened⟩ := b
  cases stack with
  | nil =>
      show Grows top.reverse (node :: top).reverse
      rw [List.reverse_cons]
      exact .more _ _
  | cons e outer =>
      have inner : Grows e.children.reverse (node :: e.children).reverse := by
        rw [List.reverse_cons]
        exact .more _ _
      have grown := grows_stack e.tag inner none outer top flattened
      have before := tree_closeTop_none ⟨e :: outer, top, flattened⟩
      have after := tree_closeTop_none (append ⟨e :: outer, top, flattened⟩ node)
      rw [← before, ← after]
      exact grown

/-- An end tag comes to an element that has none. -/
theorem grows_closeTop (b : Builder) (endTag : Option Span) : Grows b.tree (b.closeTop endTag).tree := by
  obtain ⟨stack, top, flattened⟩ := b
  cases stack with
  | nil => exact .refl _
  | cons e outer =>
      rw [← tree_closeTop_none ⟨e :: outer, top, flattened⟩]
      exact grows_stack e.tag (.refl _) endTag outer top flattened

theorem grows_openTag (b : Builder) (cap : Option Nat) (tag : StartTag) :
    Grows b.tree (b.openTag cap tag).1.tree := by
  have grown := grows_append (b.closeImplied tag.name) (.element tag [] none tag.span)
  rwa [tree_closeImplied, ← tree_openTag] at grown

theorem grows_close_token (b : Builder) (t : Token TokenKind) : Grows b.tree (b.close t).1.tree := by
  have cases_ := closing b t
  generalize b.close t = closed at cases_ ⊢
  cases cases_ with
  | void _ => exact .refl _
  | flattened _ _ =>
      have same := tree_flattened b ((b.flattened.dropWhile (· != endTagName t.text)).drop 1)
      rw [same]
      exact .refl _
  | element _ _ _ =>
      have grown := grows_closeTop
        (closeMany (b.stack.takeWhile (·.tag.name != endTagName t.text)).length
          { b with flattened := [] }) (some t.span)
      rwa [tree_closeMany, tree_flattened] at grown
  | stray _ _ => exact .refl _

/-- **A piece of markup makes the tree grow**, and so do several. -/
theorem grows_step (b : Builder) (cap : Option Nat) (piece : Markup) :
    Grows b.tree (b.step cap piece).1.tree := by
  cases piece with
  | tag head parts close => exact grows_openTag b cap _
  | single t =>
      simp only [step, takeIn]
      cases t.kind
      case tagClose => exact grows_close_token b t
      all_goals first | exact .refl _ | exact grows_append b _

theorem grows_run (b : Builder) (cap : Option Nat) (pieces : List Markup) :
    Grows b.tree (b.run cap pieces).1.tree := by
  induction pieces generalizing b with
  | nil => exact .refl _
  | cons piece pieces ih => exact (grows_step b cap piece).trans (ih _)

end Builder

/-! ## What is found in the page -/

/-- A node of a list is a stop. -/
theorem stop_of_mem {ancestors : List Element} (member : node ∈ nodes) :
    ⟨node, ancestors⟩ ∈ stopsIn ancestors nodes := by
  induction nodes with
  | nil => cases member
  | cons first nodes ih =>
      rw [stopsIn, List.mem_append]
      rcases List.mem_cons.mp member with rfl | later
      · refine .inl ?_
        cases node <;> simp [Node.stops]
      · exact .inr (ih later)

mutual

theorem Node.stop_child (ancestors : List Element) : (node : Node) →
    ∀ stop ∈ node.stops ancestors, ∀ e : Element, stop.node = e.toNode →
      ∀ child ∈ e.children, ⟨child, stop.ancestors ++ [e]⟩ ∈ node.stops ancestors
  | .element tag children endTag span => by
      rw [Node.stops]
      refine List.forall_mem_cons.mpr ⟨?_, fun stop inside e same child member => ?_⟩
      · rintro ⟨tag', children', endTag', span'⟩ same child member
        cases same
        exact List.mem_cons_of_mem _ (stop_of_mem member)
      · exact List.mem_cons_of_mem _ (stopsIn_child _ children stop inside e same child member)
  | .text t => by simp [Node.stops, Element.toNode]
  | .comment c => by simp [Node.stops, Element.toNode]
  | .doctype d => by simp [Node.stops, Element.toNode]

/-- The children of an element that is visited are visited, with the element around them. -/
theorem stopsIn_child (ancestors : List Element) : (nodes : List Node) →
    ∀ stop ∈ stopsIn ancestors nodes, ∀ e : Element, stop.node = e.toNode →
      ∀ child ∈ e.children, ⟨child, stop.ancestors ++ [e]⟩ ∈ stopsIn ancestors nodes
  | [] => by simp [stopsIn]
  | node :: nodes => by
      rw [stopsIn, List.forall_mem_append]
      constructor
      · intro stop inside e same child member
        exact List.mem_append_left _ (Node.stop_child ancestors node stop inside e same child member)
      · intro stop inside e same child member
        exact List.mem_append_right _ (stopsIn_child ancestors nodes stop inside e same child member)

end

/-- **What an open element holds is how an element of the page begins**, inside the elements that are
open around it. -/
theorem exists_of_grows {page : List Node} {top : List Node} {flattened : List (List Char)}
    {outer : List OpenElement} {o : OpenElement}
    (grows : Grows (Builder.tree ⟨o :: outer, top, flattened⟩) page) :
    ∃ (e : Element) (ancestors : List Element), ⟨e.toNode, ancestors⟩ ∈ stopsIn [] page ∧
      e.tag = o.tag ∧ ancestors.map Element.tag = (outer.map OpenElement.tag).reverse ∧
      Grows o.children.reverse e.children := by
  rw [← Builder.tree_closeTop_none] at grows
  induction outer generalizing o with
  | nil =>
      have siblings : Grows (top.reverse ++ [o.close none]) page := by
        rw [← List.reverse_cons]
        exact grows
      obtain ⟨e, rest, rfl, tag, inner⟩ := siblings.element
      exact ⟨e, [], stop_of_mem (by simp), tag, rfl, inner⟩
  | cons next outer ih =>
      have around : Grows (Builder.closeTop
          ⟨⟨next.tag, o.close none :: next.children⟩ :: outer, top, flattened⟩ none).tree page := by
        rw [Builder.tree_closeTop_none]
        exact grows
      obtain ⟨parent, ancestors, visited, own, outside, content⟩ := ih around
      rw [List.reverse_cons] at content
      obtain ⟨e, rest, whole, tag, inner⟩ := content.element
      refine ⟨e, ancestors ++ [parent], ?_, tag, ?_, inner⟩
      · refine stopsIn_child [] page _ visited parent rfl e.toNode ?_
        rw [whole]
        simp
      · rw [List.map_append, outside, List.map_singleton, own, List.map_cons, List.reverse_cons]

end PageLint.Html
