/-
# PageLint.Proofs.Html.Walk — the pieces of a page in the order of their visit

The rules are handed the pieces of a page in one walk over its tree. A `Stop` is a node with the
elements that it lies in; the stops of a tree are its nodes, parents before their children, and the
elements of each stop lead to its node, outermost first (`Leads`). At a stop the walk visits the node
and then, if the node is a text that holds a stylesheet, the pieces of that stylesheet in one go.

No piece begins before one that was visited earlier. Of two nodes the earlier one is made of an
earlier token, and a text is the whole of its token; the pieces of a stylesheet begin within the text
that holds it.
-/
import PageLint.Proofs.Css.Walk
import PageLint.Proofs.Html.Supply

namespace PageLint

namespace Subject

/-- The element that a subject is, if it is one. -/
def htmlElement? : Subject → Option Html.Element
  | htmlElement e _ => some e
  | _ => none

/-- The text that a subject is, if it is one. -/
def htmlText? : Subject → Option Html.TextNode
  | htmlText t => some t
  | _ => none

end Subject

namespace Html

set_option autoImplicit false

open Text

/-! ## Stops -/

/-- A node of a tree, with the elements that it lies in, outermost first. -/
structure Stop where
  node : Node
  ancestors : List Element

mutual

/-- The stops at and below a node that lies in some elements. -/
def Node.stops (ancestors : List Element) : Node → List Stop
  | .element tag children endTag span =>
    ⟨.element tag children endTag span, ancestors⟩ ::
      stopsIn (ancestors ++ [⟨tag, children, endTag, span⟩]) children
  | .text t => [⟨.text t, ancestors⟩]
  | .comment c => [⟨.comment c, ancestors⟩]
  | .doctype d => [⟨.doctype d, ancestors⟩]

/-- The stops at and below some nodes. -/
def stopsIn (ancestors : List Element) : List Node → List Stop
  | [] => []
  | node :: nodes => node.stops ancestors ++ stopsIn ancestors nodes

end

/-- The element as a node. -/
def Element.toNode (e : Element) : Node := .element e.tag e.children e.endTag e.span

/-- Some elements lead from a list of nodes to a node: the first one is in the list, each other one is
a child of the one before it, and the node is a child of the last. -/
def Leads : List Node → List Element → Node → Prop
  | nodes, [], node => node ∈ nodes
  | nodes, e :: inner, node => e.toNode ∈ nodes ∧ Leads e.children inner node

namespace Stop

/-- What the node of a stop is for the rules. -/
def subject (stop : Stop) : Subject :=
  match stop.node with
  | .element tag children endTag span => .htmlElement ⟨tag, children, endTag, span⟩ stop.ancestors
  | .text t => .htmlText t
  | .comment c => .htmlComment c
  | .doctype d => .htmlDoctype d

/-- The text of a stop whose parent holds a stylesheet. -/
def styleText? (stop : Stop) : Option TextNode :=
  if stop.ancestors.getLast?.any (·.tag.isStylesheet) then stop.node.text? else none

/-- What is visited at a stop: the node, and the stylesheet that it holds. -/
def visit (stop : Stop) : List Subject :=
  stop.subject :: stop.styleText?.toList.flatMap fun t => t.sheet.subjects

variable {stop : Stop}

theorem styleText?_of_no_text (other : stop.node.text? = none) : stop.styleText? = none := by
  rw [styleText?, other, ite_self]

theorem visit_of_no_text (other : stop.node.text? = none) : stop.visit = [stop.subject] := by
  rw [visit, styleText?_of_no_text other]
  rfl

end Stop

mutual

theorem Node.map_node_stops (ancestors : List Element) :
    (node : Node) → (node.stops ancestors).map Stop.node = node.preorder
  | .element tag children endTag span => by
      rw [Node.stops, Node.preorder, List.map_cons, map_node_stopsIn _ children]
  | .text t => rfl
  | .comment c => rfl
  | .doctype d => rfl

/-- **There is one stop at each node**, parents before their children. -/
theorem map_node_stopsIn (ancestors : List Element) :
    (nodes : List Node) → (stopsIn ancestors nodes).map Stop.node = preorderIn nodes
  | [] => rfl
  | node :: nodes => by
      rw [stopsIn, preorderIn, List.map_append, Node.map_node_stops ancestors node,
        map_node_stopsIn ancestors nodes]

end

theorem Leads.of_subset {nodes more : List Node} {inner : List Element} {node : Node}
    (leads : Leads nodes inner node) (subset : nodes ⊆ more) : Leads more inner node := by
  cases inner with
  | nil => exact subset leads
  | cons e inner => exact ⟨subset leads.1, leads.2⟩

mutual

theorem Node.leads_stops (ancestors : List Element) :
    (node : Node) → ∀ stop ∈ node.stops ancestors, ∃ inner,
      stop.ancestors = ancestors ++ inner ∧ Leads [node] inner stop.node
  | .element tag children endTag span => by
      rw [Node.stops]
      refine List.forall_mem_cons.mpr ⟨⟨[], (List.append_nil _).symm, List.mem_cons_self⟩, ?_⟩
      intro stop member
      obtain ⟨inner, same, leads⟩ := leads_stopsIn _ children stop member
      refine ⟨⟨tag, children, endTag, span⟩ :: inner, ?_, List.mem_cons_self, leads⟩
      rw [same, List.append_assoc]
      rfl
  | .text t => by simp [Node.stops, Leads]
  | .comment c => by simp [Node.stops, Leads]
  | .doctype d => by simp [Node.stops, Leads]

/-- **The elements of a stop lead to its node.** -/
theorem leads_stopsIn (ancestors : List Element) :
    (nodes : List Node) → ∀ stop ∈ stopsIn ancestors nodes, ∃ inner,
      stop.ancestors = ancestors ++ inner ∧ Leads nodes inner stop.node
  | [] => by simp [stopsIn]
  | node :: nodes => by
      rw [stopsIn, List.forall_mem_append]
      constructor
      · intro stop member
        obtain ⟨inner, same, leads⟩ := Node.leads_stops ancestors node stop member
        exact ⟨inner, same, leads.of_subset (by simp)⟩
      · intro stop member
        obtain ⟨inner, same, leads⟩ := leads_stopsIn ancestors nodes stop member
        exact ⟨inner, same, leads.of_subset (List.subset_cons_self _ _)⟩

end

mutual

theorem Node.subjects_eq (ancestors : List Element) :
    (node : Node) → node.subjects ancestors = (node.stops ancestors).flatMap Stop.visit
  | .element tag children endTag span => by
      rw [Node.subjects, Node.stops, List.flatMap_cons, ← nodesSubjects_eq _ children,
        Stop.visit_of_no_text rfl]
      rfl
  | .text t => by
      rw [Node.subjects, Node.stops, List.flatMap_singleton]
      simp only [Stop.visit, Stop.subject, Stop.styleText?, Node.text?]
      split <;> simp
  | .comment c => by
      rw [Node.subjects, Node.stops, List.flatMap_singleton, Stop.visit_of_no_text rfl]
      rfl
  | .doctype d => by
      rw [Node.subjects, Node.stops, List.flatMap_singleton, Stop.visit_of_no_text rfl]
      rfl

/-- **The walk visits the stops in turn.** -/
theorem nodesSubjects_eq (ancestors : List Element) :
    (nodes : List Node) → nodesSubjects ancestors nodes =
      (stopsIn ancestors nodes).flatMap Stop.visit
  | [] => rfl
  | node :: nodes => by
      rw [nodesSubjects, stopsIn, List.flatMap_append, Node.subjects_eq ancestors node,
        nodesSubjects_eq ancestors nodes]

end

mutual

theorem Node.styleTexts_eq (ancestors : List Element) :
    (node : Node) → (node.stops ancestors).filterMap Stop.styleText? =
      node.styleTexts (ancestors.getLast?.any (·.tag.isStylesheet))
  | .element tag children endTag span => by
      have inside := styleTextsIn_eq (ancestors ++ [⟨tag, children, endTag, span⟩]) children
      rw [List.getLast?_concat] at inside
      rw [Node.stops, Node.styleTexts, List.filterMap_cons, inside,
        Stop.styleText?_of_no_text rfl]
      simp
  | .text t => by
      rw [Node.stops, Node.styleTexts]
      by_cases style : ancestors.getLast?.any (·.tag.isStylesheet)
      · simp [Stop.styleText?, Node.text?, style]
      · simp [Stop.styleText?, style]
  | .comment c => by simp [Node.stops, Node.styleTexts, Stop.styleText?, Node.text?]
  | .doctype d => by simp [Node.stops, Node.styleTexts, Stop.styleText?, Node.text?]

/-- The texts that hold stylesheets, in the order of their stops. -/
theorem styleTextsIn_eq (ancestors : List Element) :
    (nodes : List Node) → (stopsIn ancestors nodes).filterMap Stop.styleText? =
      styleTextsIn (ancestors.getLast?.any (·.tag.isStylesheet)) nodes
  | [] => rfl
  | node :: nodes => by
      rw [stopsIn, styleTextsIn, List.filterMap_append, Node.styleTexts_eq ancestors node,
        styleTextsIn_eq ancestors nodes]

end

/-- What is asked of the pieces of nodes, but not of those of stylesheets, is asked at the stops. -/
theorem filterMap_nodesSubjects {α : Type} {ask : Subject → Option α}
    (plain : ∀ s : Subject, s.IsCss → ask s = none) (ancestors : List Element) (nodes : List Node) :
    (nodesSubjects ancestors nodes).filterMap ask =
      (stopsIn ancestors nodes).filterMap fun stop => ask stop.subject := by
  have visit : ∀ stop : Stop, stop.visit.filterMap ask = (ask stop.subject).toList := by
    intro stop
    have embedded : (stop.styleText?.toList.flatMap fun t => t.sheet.subjects).filterMap ask = [] := by
      refine List.filterMap_eq_nil_iff.mpr fun s member => ?_
      obtain ⟨t, -, inside⟩ := List.mem_flatMap.mp member
      exact plain s (t.sheet.isCss_subjects s inside)
    rw [Stop.visit, List.filterMap_cons, embedded]
    cases ask stop.subject <;> rfl
  rw [nodesSubjects_eq, List.filterMap_flatMap, List.filterMap_eq_flatMap_toList]
  exact List.flatMap_congr fun stop _ => visit stop

/-- The elements among the pieces of some nodes, in the order of the walk. -/
theorem elements_nodesSubjects (ancestors : List Element) (nodes : List Node) :
    (nodesSubjects ancestors nodes).filterMap Subject.htmlElement? =
      elementsOf (preorderIn nodes) := by
  have plain : ∀ s : Subject, s.IsCss → s.htmlElement? = none := by
    intro s css
    cases s with
    | htmlElement e inside => cases css
    | _ => rfl
  rw [filterMap_nodesSubjects plain, elementsOf, ← map_node_stopsIn ancestors, List.filterMap_map]
  refine List.filterMap_congr fun stop _ => ?_
  obtain ⟨node, inside⟩ := stop
  cases node <;> rfl

/-- The texts among the pieces of some nodes, in the order of the walk. -/
theorem texts_nodesSubjects (ancestors : List Element) (nodes : List Node) :
    (nodesSubjects ancestors nodes).filterMap Subject.htmlText? =
      (preorderIn nodes).filterMap Node.text? := by
  have plain : ∀ s : Subject, s.IsCss → s.htmlText? = none := by
    intro s css
    cases s with
    | htmlText t => cases css
    | _ => rfl
  rw [filterMap_nodesSubjects plain, ← map_node_stopsIn ancestors, List.filterMap_map]
  refine List.filterMap_congr fun stop _ => ?_
  obtain ⟨node, inside⟩ := stop
  cases node <;> rfl

/-- **A text is the whole of a token.** -/
theorem Page.token_of_text {cs : List Char} {t : TextNode}
    (visited : .htmlText t ∈ nodesSubjects [] (Page.ofText cs).nodes) :
    ∃ u ∈ tokenize cs, (Entry.text t).MadeOf u := by
  have isText : t ∈ (preorderIn (Page.ofText cs).nodes).filterMap Node.text? := by
    rw [← texts_nodesSubjects []]
    exact List.mem_filterMap.mpr ⟨_, visited, rfl⟩
  obtain ⟨node, inTree, own⟩ := List.mem_filterMap.mp isText
  have entry : node.entry = .text t := by
    cases node with
    | text u => exact congrArg Entry.text (Option.some.inj own)
    | _ => cases own
  have shown : Entry.text t ∈ (preorderIn (Page.ofText cs).nodes).map Node.entry :=
    entry ▸ List.mem_map_of_mem inTree
  obtain ⟨u, member, made⟩ := exists_of_mem_forall₂ (Page.entries_madeOf cs) shown
  exact ⟨u, List.mem_of_mem_filter member, made⟩

/-! ## In the order of the text -/

/-- Where a node ends, as far as its own token goes: an element where it begins, since its content
comes after that. -/
def Entry.last : Entry → Nat
  | .element _ start => start.offset
  | .text t => t.span.finish.offset
  | .comment c => c.span.finish.offset
  | .doctype d => d.span.finish.offset

/-- Nodes come one after the other: none begins before an earlier one has come to its last place. -/
theorem entries_ordered (cs : List Char) : (preorderIn (Page.ofText cs).nodes).Pairwise
    fun a b => a.entry.last ≤ b.entry.start.offset := by
  have made := Page.entries_madeOf cs
  have places : ((preorderIn (Page.ofText cs).nodes).map Node.entry).map
        (fun entry => (entry.start.offset, entry.last)) =
      ((tokenize cs).filter makesNode).map fun t => (t.span.start.offset,
        if t.kind = .tagOpen then t.span.start.offset else t.span.finish.offset) := by
    refine map_eq_map_of_forall₂ made fun entry t made => ?_
    rw [made.start]
    cases entry with
    | element tag start => simp [Entry.last, made.1, made.2.2]
    | text u =>
        obtain ⟨kind, -, span⟩ := made
        have other : t.kind ≠ .tagOpen := by
          intro opens
          simp [opens] at kind
        simp [Entry.last, span, other]
    | comment c => simp [Entry.last, made.1, made.2.2]
    | doctype d => simp [Entry.last, made.1, made.2.2]
  have ordered : (((tokenize cs).filter makesNode).map fun t => (t.span.start.offset,
      if t.kind = .tagOpen then t.span.start.offset else t.span.finish.offset)).Pairwise
        fun p q => p.2 ≤ q.1 := by
    have reads := (Page.reads_tokens cs).sublist (List.filter_sublist (p := makesNode))
    refine List.pairwise_map.mpr (reads.ordered.imp_of_mem fun {t u} member _ before => ?_)
    have forward := (reads.covers member).offset_le
    dsimp only
    split <;> omega
  rw [← places, List.map_map, List.pairwise_map] at ordered
  exact ordered

/-- The pieces of the stylesheet that a text holds begin within the text. -/
theorem TextNode.spread_sheet {cs : List Char} {t : TextNode}
    (shown : (Passage.whole cs).Shows t.span t.text) :
    Spread t.span.start.offset t.span.finish.offset t.sheet.subjects := by
  have origin := shown.holds.marks.counted Position.counted_start
  rw [shown.2, Position.offset_after]
  exact Css.Sheet.spread_from origin t.text

/-- What is visited at a stop begins between the first and the last place of its node. -/
theorem Stop.spread_visit {cs : List Char} {stop : Stop}
    (placed : stop.subject.Placed (.whole cs)) :
    Spread stop.node.entry.start.offset stop.node.entry.last stop.visit := by
  obtain ⟨node, ancestors⟩ := stop
  cases node with
  | element tag children endTag span =>
      rw [visit_of_no_text rfl]
      exact (Spread.nil (Nat.le_refl _)).cons rfl
  | text t =>
      have shown : (Passage.whole cs).Shows t.span t.text := placed
      rw [visit, styleText?]
      refine Spread.cons ?_ rfl
      split
      · have sheet := t.spread_sheet shown
        rwa [← List.flatMap_singleton (fun t : TextNode => t.sheet.subjects) t] at sheet
      · exact .nil shown.covers.offset_le
  | comment c =>
      have shown : (Passage.whole cs).Shows c.span c.text := placed
      rw [visit_of_no_text rfl]
      exact (Spread.nil shown.covers.offset_le).cons rfl
  | doctype d =>
      have shown : (Passage.whole cs).Shows d.span d.text := placed
      rw [visit_of_no_text rfl]
      exact (Spread.nil shown.covers.offset_le).cons rfl

namespace Page

/-- No piece of a page begins before one that was visited earlier. -/
theorem ascending_starts (cs : List Char) :
    (starts (nodesSubjects [] (Page.ofText cs).nodes)).Pairwise (· ≤ ·) := by
  have each : ∀ stop ∈ stopsIn [] (Page.ofText cs).nodes,
      Spread stop.node.entry.start.offset stop.node.entry.last stop.visit := by
    intro stop member
    refine Stop.spread_visit (placed_subjects cs stop.subject ?_)
    rw [nodesSubjects_eq]
    exact List.mem_flatMap.mpr ⟨stop, member, List.mem_cons_self⟩
  have ordered := entries_ordered cs
  rw [← map_node_stopsIn [], List.pairwise_map] at ordered
  rw [nodesSubjects_eq, starts_flatMap]
  refine List.pairwise_flatMap.mpr ⟨fun stop member => (each stop member).ascending, ?_⟩
  refine ordered.imp_of_mem fun {stop next} isStop isNext before m earlier n later => ?_
  calc m ≤ stop.node.entry.last := ((each stop isStop).within m earlier).2
    _ ≤ next.node.entry.start.offset := before
    _ ≤ n := ((each next isNext).within n later).1

/-- **A page is visited in the order of its text**, however broken it is. The walk goes over the nodes
of the tree, parents before their children, each one once and with the elements that lead to it. The
stylesheets of the page are those that the texts of these elements hold, in order, and each is visited
in one go right after its text; walking with the stylesheets in hand, as they are gathered, comes to
the same and uses them up. And no piece begins before one that was visited earlier. -/
theorem walked_in_order (cs : List Char) :
    (stopsIn [] (Page.ofText cs).nodes).map Stop.node = preorderIn (Page.ofText cs).nodes ∧
      (∀ stop ∈ stopsIn [] (Page.ofText cs).nodes,
        Leads (Page.ofText cs).nodes stop.ancestors stop.node) ∧
      nodesSubjects [] (Page.ofText cs).nodes =
        (stopsIn [] (Page.ofText cs).nodes).flatMap Stop.visit ∧
      (Page.ofText cs).sheets = ((stopsIn [] (Page.ofText cs).nodes).filterMap Stop.styleText?).map
        (fun t => Css.Sheet.ofText t.text t.span.start) ∧
      (Page.ofText cs).sheets = (gatheredIn (Page.ofText cs).nodes).map TextNode.sheet ∧
      walkIn [] (Page.ofText cs).nodes (Page.ofText cs).sheets =
        (nodesSubjects [] (Page.ofText cs).nodes, []) ∧
      (starts (nodesSubjects [] (Page.ofText cs).nodes)).Pairwise (· ≤ ·) := by
  have sheets : (Page.ofText cs).sheets =
      (styleTextsIn false (Page.ofText cs).nodes).map TextNode.sheet := rfl
  have supply := walkIn_supply [] [] (Page.ofText cs).nodes
  rw [List.append_nil] at supply
  refine ⟨map_node_stopsIn [] _, fun stop member => ?_, nodesSubjects_eq [] _, ?_, ?_, ?_,
    ascending_starts cs⟩
  · obtain ⟨inner, same, leads⟩ := leads_stopsIn [] _ stop member
    rwa [same, List.nil_append]
  · rw [styleTextsIn_eq, sheets]
    rfl
  · rw [gatheredIn_eq _ (pure_nodes cs), sheets]
  · rw [sheets]
    exact supply

end Page

end Html

end PageLint
