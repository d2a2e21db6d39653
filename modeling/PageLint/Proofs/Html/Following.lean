/-
# PageLint.Proofs.Html.Following — what follows an element, in its markup and in the page

An element of a page that has its end tag was the innermost open one of its name when that end tag came,
with some elements open inside it (`Page.open_at_end`). What comes behind the end tag is quiet for a
while, or ends elements that would still be open if it were not there, and then comes something else
(`Loud`): an end tag of an element around, or what puts in the next node that is no white space, which
is the next sibling in the page (`Page.sibling`). So it can be told from the tokens whether the element
would go on without its end tag (`goesOn`), and if not, they end it (`Page.implied`).
-/
import PageLint.Proofs.Html.Endings
import PageLint.Proofs.Html.Implied

namespace PageLint.Html

set_option autoImplicit false

open Text

variable {cs : List Char} {e : Element} {ancestors : List Element} {s : Span}
  {o : OpenElement} {inner outer : List OpenElement} {node last : Node} {nodes more init : List Node}

/-! ## What a page has at the places of a builder -/

theorem Page.mem_elements (visited : ⟨e.toNode, ancestors⟩ ∈ stopsIn [] (Page.ofText cs).nodes) :
    e ∈ (Page.ofText cs).elements := by
  rw [Page.elements, Page.children_root, ← map_node_stopsIn []]
  exact List.mem_filterMap.mpr ⟨_, List.mem_map_of_mem visited, rfl⟩

/-- The last of siblings that grow stays what it is, but for its content and its end. -/
theorem Grows.exists_last (grows : Grows (init ++ [last]) more) : ∃ last' rest,
    more = init ++ last' :: rest ∧ last'.isBlank = last.isBlank ∧
      last'.element?.map Element.tag = last.element?.map Element.tag := by
  by_cases open_ : ∃ tag inner span, last = .element tag inner none span
  · obtain ⟨tag, inner, span, rfl⟩ := open_
    obtain ⟨e, rest, whole, own, -⟩ := grows.element
    exact ⟨e.toNode, rest, whole, rfl, congrArg some own⟩
  · obtain ⟨rest, whole⟩ := grows.mem.2 fun tag inner span same => open_ ⟨tag, inner, span, same⟩
    exact ⟨last, rest, by rw [← whole, List.append_assoc]; rfl, rfl, rfl⟩

namespace Builder

variable {b : Builder}

/-- An element that has just got its end tag is found in the page, inside those that are open. -/
theorem stop_of_closeTop {page : List Node} (held : b.stack = o :: outer)
    (grows : Grows (b.closeTop (some s)).tree page) : ∃ ancestors,
      ⟨o.close (some s), ancestors⟩ ∈ stopsIn [] page ∧
        ancestors.map Element.tag = (outer.map OpenElement.tag).reverse := by
  obtain ⟨stack, top, flattened⟩ := b
  obtain rfl : stack = o :: outer := held
  have ended : ∀ {init page : List Node}, Grows (init ++ [o.close (some s)]) page →
      o.close (some s) ∈ page := by
    intro init page grows
    exact (grows.mem.2 (by simp [OpenElement.close])).subset (by simp)
  cases outer with
  | nil =>
      have siblings : Grows (top.reverse ++ [o.close (some s)]) page := by
        rw [← List.reverse_cons]
        exact grows
      exact ⟨[], stop_of_mem (ended siblings), rfl⟩
  | cons q outer =>
      obtain ⟨parent, ancestors, visited, own, around, content⟩ := exists_of_grows grows
      rw [List.reverse_cons] at content
      refine ⟨ancestors ++ [parent],
        stopsIn_child [] page _ visited parent rfl _ (ended content), ?_⟩
      rw [List.map_append, around, List.map_singleton, own, List.map_cons, List.reverse_cons]

/-- The innermost open element of a name, when all inside it have ended. -/
theorem stack_closeMany {name : List Char} (known : name ∈ b.names) : ∃ o outer,
    (closeMany (b.names.takeWhile (· != name)).length b).stack = o :: outer ∧ o.tag.name = name ∧
      b.names = b.names.takeWhile (· != name) ++ name :: outer.map (·.tag.name) := by
  obtain ⟨front, rest, whole, new⟩ := List.eq_append_cons_of_mem known
  have first : b.names.takeWhile (· != name) = front := by rw [whole, takeWhile_other new]
  have names : (closeMany front.length b).names = name :: rest := by
    rw [names_closeMany, whole, List.drop_left]
  rw [names_eq] at names
  obtain ⟨o, outer, held, own, around⟩ := List.map_eq_cons_iff.mp names
  rw [first]
  exact ⟨o, outer, held, own, around ▸ whole⟩

end Builder

namespace Page

variable (shallow : (Page.ofText cs).Shallow)
include shallow

/-- **What was open when an element got its end tag**: the element itself, inside those that it lies in
in the page, and elements of other names in it, which end with it. -/
theorem open_at_end (visited : ⟨e.toNode, ancestors⟩ ∈ stopsIn [] (Page.ofText cs).nodes)
    (ends : e.endTag = some s) :
    ∃ before t behind inside o outer, tokenize cs = before ++ t :: behind ∧ t.kind = .tagClose ∧
      t.span = s ∧ Builder.endTagName t.text = e.name ∧ (builderAfter before).Waits ∧
      inside = (builderAfter before).names.takeWhile (· != e.name) ∧
      (builderAfter before).names = inside ++ e.name :: outer.map (·.tag.name) ∧
      (Builder.closeMany inside.length (builderAfter before)).stack = o :: outer ∧
      o.close (some s) = e.toNode ∧
      ancestors.map Element.tag = (outer.map OpenElement.tag).reverse := by
  obtain ⟨before, t, behind, split, kind, rfl, solid, known⟩ :=
    ended_by_token shallow (mem_elements visited) ends
  have waits := waits_builderAfter shallow split kind
  have grows := grows_builderAfter split kind
  obtain ⟨issues, closed, -⟩ := Builder.close_known solid waits.flattened known
  obtain ⟨o, outer, held, own, names⟩ := Builder.stack_closeMany known
  rw [closed] at grows
  obtain ⟨ancestors', visited', around⟩ := Builder.stop_of_closeTop held grows
  have visited' : ⟨(⟨o.tag, o.children.reverse, some t.span, ⟨o.tag.span.start, t.span.finish⟩⟩ :
      Element).toNode, ancestors'⟩ ∈ stopsIn [] (Page.ofText cs).nodes := visited'
  obtain ⟨same, rfl⟩ := stop_of_endTag shallow visited visited' ends rfl
  have named : Builder.endTagName t.text = e.name := by
    rw [same]
    exact own.symm
  rw [named] at held names
  exact ⟨before, t, behind, _, o, outer, split, kind, rfl, named, waits, rfl, names, held, same ▸ rfl,
    around⟩

end Page

/-! ## Tokens that are not quiet -/

/-- What is not quiet where elements of these names are open: the name of a start tag, an end tag of one
of them, or what puts in a node that is neither white space nor an element. -/
inductive Loud (names : List (List Char)) (t : Token TokenKind) : Prop
  | opens : t.kind = .tagOpen → Loud names t
  | closes : t.kind = .tagClose → Builder.endTagName t.text ∉ voidElements →
    Builder.endTagName t.text ∈ names → Loud names t
  | puts (node : Node) : t.kind ≠ .tagOpen → node.element? = none → node.isBlank = false →
    (∀ b : Builder, (b.takeIn t).1 = b.append node) → Loud names t

variable {names around : List (List Char)} {t : Token TokenKind} {ts : List (Token TokenKind)}

theorem loud_of_not_isQuiet (loud : isQuiet names t = false) : Loud names t := by
  simp only [isQuiet] at loud
  cases kind : t.kind <;> simp only [kind] at loud
  case tagOpen => exact .opens kind
  case tagClose =>
    simp only [Bool.or_eq_false_iff, Bool.not_eq_false', List.contains_eq_mem,
      decide_eq_false_iff_not, decide_eq_true_eq] at loud
    exact .closes kind loud.1 loud.2
  case text | blank =>
    exact .puts (.text ⟨t.text, false, t.span⟩) (by simp [kind]) rfl loud fun b => by
      simp only [Builder.takeIn, kind]
  case rawText | cdata =>
    exact .puts (.text ⟨t.text, true, t.span⟩) (by simp [kind]) rfl loud fun b => by
      simp only [Builder.takeIn, kind]
  case comment =>
    exact .puts (.comment ⟨t.text, t.span⟩) (by simp [kind]) rfl rfl fun b => by
      simp only [Builder.takeIn, kind]
  case doctype =>
    exact .puts (.doctype ⟨t.text, t.span⟩) (by simp [kind]) rfl rfl fun b => by
      simp only [Builder.takeIn, kind]
  all_goals cases loud

theorem kind_of_isQuiet (quiet : isQuiet names t) : t.kind ≠ .tagOpen := by
  intro opens
  simp [isQuiet, opens] at quiet

/-- **What is quiet puts white space alone** into the innermost element. -/
theorem Builder.takeIn_quiet {b : Builder} (quiet : isQuiet names t) (none_ : b.flattened = [])
    (inside : b.names ⊆ names) (held : b.stack = o :: outer) :
    ∃ blanks, (∀ node ∈ blanks, node.isBlank) ∧
      (b.takeIn t).1 = { b with stack := ⟨o.tag, blanks ++ o.children⟩ :: outer } := by
  obtain ⟨added, issues, idle⟩ := idle_of_isQuiet quiet
  rw [idle.takeIn b none_ inside]
  cases added with
  | none => exact ⟨[], by simp, by simp [← held]⟩
  | some node => exact ⟨[node], by simpa using idle.blank node rfl, by simp [append, held]⟩

/-! ## The next sibling -/

theorem sublist_preorderIn (nodes : List Node) : nodes.Sublist (preorderIn nodes) := by
  induction nodes with
  | nil => exact .slnil
  | cons node nodes ih =>
      rw [preorderIn]
      cases node with
      | element tag children endTag span =>
          exact .cons_cons _ (ih.trans (List.sublist_append_right _ _))
      | _ => exact .cons_cons _ ih

mutual

theorem Node.children_sublist (e : Element) :
    (node : Node) → e.toNode ∈ node.preorder → e.children.Sublist node.preorder
  | .element tag children endTag span, member => by
      rcases List.mem_cons.mp member with same | inside
      · cases same
        exact (sublist_preorderIn _).cons _
      · exact (children_sublist e children inside).cons _
  | .text t, member => by cases List.mem_singleton.mp member
  | .comment c, member => by cases List.mem_singleton.mp member
  | .doctype d, member => by cases List.mem_singleton.mp member

/-- The children of an element come in the order of the page. -/
theorem children_sublist (e : Element) :
    (nodes : List Node) → e.toNode ∈ preorderIn nodes → e.children.Sublist (preorderIn nodes)
  | [], member => by cases member
  | node :: nodes, member => by
      rw [preorderIn] at member ⊢
      rcases List.mem_append.mp member with inside | later
      · exact (Node.children_sublist e node inside).trans (List.sublist_append_left _ _)
      · exact (children_sublist e nodes later).trans (List.sublist_append_right _ _)

end

/-- The children before a child are other elements. -/
theorem Page.ne_of_earlier {parent : Element}
    (visited : ⟨parent.toNode, ancestors⟩ ∈ stopsIn [] (Page.ofText cs).nodes)
    (children : parent.children = init ++ e.toNode :: more) :
    ∀ node ∈ init, ∀ e' ∈ node.element?, e'.tag.span ≠ e.tag.span := by
  have inPage : parent.toNode ∈ preorderIn (Page.ofText cs).nodes := by
    rw [← map_node_stopsIn []]
    exact List.mem_map_of_mem visited
  have nodup := nodup_tagSpans cs
  rw [Page.elements, Page.children_root] at nodup
  have few := nodup.sublist (((children_sublist parent _ inPage).filterMap Node.element?).map
    (·.tag.span))
  rw [children, List.filterMap_append, List.filterMap_cons_some (element?_toNode e),
    List.map_append, List.map_cons] at few
  intro node member e' own same
  refine (List.nodup_append.mp few).2.2 e'.tag.span ?_ e.tag.span (by simp) same
  exact List.mem_map_of_mem (List.mem_filterMap.mpr ⟨node, member, own⟩)

/-- The first child behind a child that is no white space. -/
def Element.IsNext (parent e : Element) (node : Node) : Prop :=
  ∃ earlier blanks rest, parent.children = earlier ++ e.toNode :: (blanks ++ node :: rest) ∧
    (∀ before ∈ earlier, ∀ e' ∈ before.element?, e'.tag.span ≠ e.tag.span) ∧
      (∀ blank ∈ blanks, blank.isBlank) ∧ node.isBlank = false

/-- **What was put in next is the next sibling in the page**, as far as its start tag: if a node that is
no white space comes, but for white space, behind an element that has its end tag. -/
theorem Page.sibling (shallow : (Page.ofText cs).Shallow)
    (visited : ⟨e.toNode, ancestors⟩ ∈ stopsIn [] (Page.ofText cs).nodes) (ends : e.endTag = some s)
    {b : Builder} {tag : StartTag} {blanks earlier : List Node}
    (held : b.stack = ⟨tag, blanks ++ e.toNode :: earlier⟩ :: outer)
    (blank : ∀ node ∈ blanks, node.isBlank) (solid : node.isBlank = false)
    (grows : Grows (b.append node).tree (Page.ofText cs).nodes) :
    ∃ parent node', ancestors.getLast? = some parent ∧ parent.IsNext e node' ∧
      node'.element?.map Element.tag = node.element?.map Element.tag := by
  obtain ⟨stack, top, flattened⟩ := b
  obtain rfl : stack = _ := held
  obtain ⟨parent, outside, visited', -, -, content⟩ := exists_of_grows grows
  rw [List.reverse_cons] at content
  obtain ⟨node', rest, whole, same, own⟩ := content.exists_last
  have children : parent.children = earlier.reverse ++ e.toNode :: (blanks.reverse ++ node' :: rest) := by
    rw [whole]
    simp
  have again := stopsIn_child [] _ _ visited' parent rfl e.toNode (by simp [children])
  obtain ⟨-, rfl⟩ := stop_of_endTag shallow visited again ends ends
  exact ⟨parent, node', List.getLast?_concat, ⟨earlier.reverse, blanks.reverse, rest, children,
    ne_of_earlier visited' children, by simpa using blank, same.trans solid⟩, own⟩

/-! ## What ends an element -/

/-- An element of this name would go on without its end tag: of the tokens behind the end tag, one
means something else while the element is open, with those inside it, in those around it. Either a start
tag comes that does not end them all, and the element around is not ended by it alone, or an end tag of
one inside that is the name of one around too, or one of its own name. Or the page ends, where one inside
may not go without its end tag. -/
def goesOn (name : List Char) (around : List (List Char)) :
    List (List Char) → List (Token TokenKind) → Bool
  | inside, [] => !inside.all optionalEndTag.contains
  | inside, t :: ts =>
    if isQuiet (inside ++ name :: around) t then goesOn name around inside ts
    else match t.kind with
      | .tagOpen =>
        inside.any (!closedBy · (lowerAscii (t.text.drop 1))) ||
          (around.head?.any (closedBy · (lowerAscii (t.text.drop 1))) &&
            !closedBy name (lowerAscii (t.text.drop 1)))
      | .tagClose =>
        if inside.contains (Builder.endTagName t.text) then
          around.contains (Builder.endTagName t.text) ||
            goesOn name around (namesAfter (Builder.endTagName t.text) inside) ts
        else Builder.endTagName t.text == name && around.contains name
      | _ => false

/-- A start tag that ends nothing puts its element into the innermost one. -/
theorem Builder.tree_step_tag {b : Builder} (cap : Option Nat) (none_ : b.flattened = [])
    {head : Token TokenKind} (stays : ∀ o ∈ b.stack.head?,
      closedBy o.tag.name (lowerAscii (head.text.drop 1)) = false)
    (parts : List (Token TokenKind)) (close : Option (Token TokenKind)) :
    (b.step cap (.tag head parts close)).1.tree =
      (b.append (.element (StartTag.ofTokens head parts close).1 [] none
        (StartTag.ofTokens head parts close).1.span)).tree := by
  have still : b.closeImplied (StartTag.ofTokens head parts close).1.name = b := by
    have front : b.stack.takeWhile (fun o =>
        closedBy o.tag.name (StartTag.ofTokens head parts close).1.name) = [] := by
      cases stack : b.stack with
      | nil => rfl
      | cons o outer =>
          rw [stack] at stays
          exact List.takeWhile_cons_of_neg (Bool.eq_false_iff.mp (stays o rfl))
    rw [closeImplied_of_flattened none_, ← length_names_takeWhile, front]
    rfl
  rw [step]
  dsimp only
  rw [tree_openTag, still]

section Ending

variable (shallow : (Page.ofText cs).Shallow)
  (visited : ⟨e.toNode, ancestors⟩ ∈ stopsIn [] (Page.ofText cs).nodes) (ends : e.endTag = some s)
  (next : ∀ parent ∈ ancestors.getLast?, ∀ node, parent.IsNext e node →
    ∃ tag ∈ node.element?.map Element.tag, closedBy e.name tag.name)

include shallow visited ends next

/-- What is put in next is an element that ends this one. -/
theorem Page.closedBy_of_put {b : Builder} {tag : StartTag} {blanks earlier : List Node}
    (held : b.stack = ⟨tag, blanks ++ e.toNode :: earlier⟩ :: outer)
    (blank : ∀ node ∈ blanks, node.isBlank) {piece : Markup} {pieces : List Markup}
    (whole : builderAfter (tokenize cs) = (b.run (some depthCap) (piece :: pieces)).1)
    (solid : node.isBlank = false)
    (stepped : (b.step (some depthCap) piece).1.tree = (b.append node).tree) :
    ∃ tag ∈ node.element?.map Element.tag, closedBy e.name tag.name := by
  have grows : Grows (b.append node).tree (Page.ofText cs).nodes := by
    rw [nodes_eq_tree, whole, Builder.run, ← stepped]
    exact Builder.grows_run _ _ _
  obtain ⟨parent, node', last, isNext, same⟩ := sibling shallow visited ends held blank solid grows
  rw [← same]
  exact next parent last node' isNext

/-- The next start tag ends the element, unless it ends the one around it alone. -/
theorem Page.closedBy_of_opens {b : Builder} {tag : StartTag} {blanks earlier : List Node}
    (held : b.stack = ⟨tag, blanks ++ e.toNode :: earlier⟩ :: outer) (none_ : b.flattened = [])
    (blank : ∀ node ∈ blanks, node.isBlank) (kind : t.kind = .tagOpen)
    (whole : builderAfter (tokenize cs) = (b.run (some depthCap) (Markup.ofTokens (t :: ts))).1)
    (calm : (b.names.head?.any (closedBy · (lowerAscii (t.text.drop 1))) &&
      !closedBy e.name (lowerAscii (t.text.drop 1))) = false) :
    closedBy e.name (lowerAscii (t.text.drop 1)) := by
  by_contra goes
  obtain ⟨parts, close, pieces, grouped⟩ := Markup.ofTokens_tagOpen kind ts
  have stays : ∀ o ∈ b.stack.head?, closedBy o.tag.name (lowerAscii (t.text.drop 1)) = false := by
    intro o first
    have around : b.names.head? = some o.tag.name := by
      rw [Builder.names_eq, List.head?_map, Option.mem_def.mp first]
      rfl
    rwa [around, Option.any_some, Bool.eq_false_iff.mpr goes, Bool.not_false, Bool.and_true] at calm
  obtain ⟨_, found, ended⟩ := closedBy_of_put shallow visited ends next held blank
    (grouped ▸ whole) rfl (Builder.tree_step_tag (some depthCap) none_ stays parts close)
  obtain rfl := Option.some.inj found
  exact goes ended

/-- **An element that could end by itself does**: if its next sibling is an element that ends it, or
there is none, then what comes behind its end tag ends it in any case, unless it would go on. The
induction follows the tokens, which put nothing but white space behind the element in the page. -/
theorem Page.implied {b : Builder} {tag : StartTag} {blanks earlier : List Node}
    {inside : List (List Char)} (apart : e.name ∉ inside)
    (held : b.stack = ⟨tag, blanks ++ e.toNode :: earlier⟩ :: outer) (none_ : b.flattened = [])
    (blank : ∀ node ∈ blanks, node.isBlank) {behind : List (Token TokenKind)}
    (whole : builderAfter (tokenize cs) = (b.run (some depthCap) (Markup.ofTokens behind)).1)
    (calm : goesOn e.name b.names inside behind = false) : Implied e.name b.names inside behind := by
  induction behind generalizing b blanks inside with
  | nil => exact .finish (by simpa [goesOn] using calm)
  | cons t ts ih =>
      -- A quiet token, or one that is quiet in the page, only adds white space there.
      have later : ∀ {names rest : List (List Char)}, isQuiet names t → b.names ⊆ names →
          e.name ∉ rest → goesOn e.name b.names rest ts = false → Implied e.name b.names rest ts := by
        intro names rest quiet known apart calm
        obtain ⟨more, blank', after⟩ := Builder.takeIn_quiet quiet none_ known held
        have same : (b.takeIn t).1.names = b.names := by
          rw [after, Builder.names_eq, Builder.names_eq, held, List.map_cons, List.map_cons]
        rw [ofTokens_single (kind_of_isQuiet quiet), Builder.run, Builder.step] at whole
        have further := @ih (b.takeIn t).1 (more ++ blanks) rest apart
          (by rw [after, List.append_assoc]) (by rw [after]; exact none_)
          (List.forall_mem_append.mpr ⟨blank', blank⟩) whole
        rw [same] at further
        exact further calm
      by_cases quiet : isQuiet (inside ++ e.name :: b.names) t
      · rw [goesOn, if_pos quiet] at calm
        exact .quiet quiet (later quiet (fun n member => by simp [member]) apart calm)
      rw [goesOn, if_neg quiet] at calm
      cases loud_of_not_isQuiet (Bool.eq_false_iff.mpr quiet) with
      | opens kind =>
          simp only [kind, Bool.or_eq_false_iff] at calm
          exact .start kind (by simpa using calm.1)
            (closedBy_of_opens shallow visited ends next held none_ blank kind whole calm.2)
      | closes kind solid known =>
          simp only [kind] at calm
          by_cases inner : Builder.endTagName t.text ∈ inside
          · rw [if_pos (by simpa using inner), Bool.or_eq_false_iff] at calm
            have stray : Builder.endTagName t.text ∉ b.names := by simpa using calm.1
            have idle : isQuiet b.names t := by simp [isQuiet, kind, stray]
            refine .inner kind solid inner stray (later idle (List.Subset.refl _) ?_ calm.2)
            exact fun member => apart (((List.drop_sublist _ _).trans
              (List.dropWhile_sublist _)).subset member)
          · rw [if_neg (by simpa using inner)] at calm
            by_cases own : Builder.endTagName t.text = e.name
            · exact .own kind own (by simpa [own] using calm)
            · exact .outer kind solid inner own (by simpa [inner, own] using known)
      | puts node kind other solid taken =>
          have stepped : (b.step (some depthCap) (.single t)).1.tree = (b.append node).tree :=
            congrArg Builder.tree (taken b)
          obtain ⟨tag, found, -⟩ := closedBy_of_put shallow visited ends next held blank
            (ofTokens_single kind ts ▸ whole) solid stepped
          rw [other] at found
          cases found

end Ending

end PageLint.Html
