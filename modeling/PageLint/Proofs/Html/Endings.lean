/-
# PageLint.Proofs.Html.Endings — where an element of a page ended

An element that has an end tag got it when the builder met the token of that end tag, as the innermost
open element of its name. No two elements have their end tags at one place (`stop_of_endTag`), so what
the builder did there is known from the element of the page: some token is that end tag, and it ended an
element where it stands (`ended_by_token`). The page is what comes of the builder there
(`grows_builderAfter`).
-/
import PageLint.Proofs.Html.Ends
import PageLint.Proofs.Html.Growth

namespace PageLint.Html

set_option autoImplicit false

open Text

/-! ## Elements by their places -/

/-- A key that no two entries share tells the entries apart. -/
theorem eq_of_key {α β : Type} {key : α → Option β} {entries : List α}
    (nodup : (entries.filterMap key).Nodup) {a b : α} (left : a ∈ entries) (right : b ∈ entries)
    {k : β} (own : key a = some k) (other : key b = some k) : a = b := by
  by_contra apart
  have differ := List.pairwise_filterMap.mp nodup
  have symmetric : Std.Symm fun x y : α => ∀ i ∈ key x, ∀ j ∈ key y, i ≠ j :=
    ⟨fun _ _ far i first j second => (far j second i first).symm⟩
  exact differ.forall left right apart k own k other rfl

theorem filterMap_stops {β : Type} (key : Element → Option β) (nodes : List Node) :
    ((stopsIn [] nodes).filterMap fun stop => stop.node.element?.bind key) =
      (elementsOf (preorderIn nodes)).filterMap key := by
  rw [← map_node_stopsIn [] nodes, elementsOf, List.filterMap_filterMap, List.filterMap_map]
  rfl

variable {cs : List Char} {e e' : Element} {ancestors ancestors' : List Element} {s : Span}

theorem element?_toNode (e : Element) : e.toNode.element? = some e := rfl

/-- Stops at elements that share a key with no other. -/
theorem stop_of_key {β : Type} {key : Element → Option β} {nodes : List Node}
    (nodup : ((elementsOf (preorderIn nodes)).filterMap key).Nodup)
    (visited : ⟨e.toNode, ancestors⟩ ∈ stopsIn [] nodes)
    (visited' : ⟨e'.toNode, ancestors'⟩ ∈ stopsIn [] nodes) {k : β} (own : key e = some k)
    (other : key e' = some k) : e = e' ∧ ancestors = ancestors' := by
  rw [← filterMap_stops] at nodup
  have same := eq_of_key nodup visited visited' (k := k)
    (by rw [element?_toNode]; exact own) (by rw [element?_toNode]; exact other)
  obtain ⟨nodes, inside⟩ := Stop.mk.inj same
  have elements := congrArg Node.element? nodes
  rw [element?_toNode, element?_toNode] at elements
  exact ⟨Option.some.inj elements, inside⟩

namespace Page

/-- The page has no fault of nesting too deep. -/
def Shallow (page : Page) : Prop := ∀ issue ∈ page.issues, issue.fault ≠ .tooDeep depthCap

instance (page : Page) : Decidable page.Shallow :=
  inferInstanceAs (Decidable (∀ issue ∈ page.issues, issue.fault ≠ .tooDeep depthCap))

variable (shallow : (Page.ofText cs).Shallow)
include shallow

/-- End tags that end elements, and those that end nothing, are all there are. -/
theorem endTags_perm : (endTags ((Page.ofText cs).elements.map Element.shell) ++
    straySpans (Page.ofText cs).issues).Perm
      ((Markup.ofTokens (tokenize cs)).flatMap Markup.endTags) :=
  (balance_buildTree shallow).2

theorem nodup_endTags : (endTags ((Page.ofText cs).elements.map Element.shell) ++
    straySpans (Page.ofText cs).issues).Nodup := by
  refine (endTags_perm shallow).nodup_iff.mpr ?_
  rw [flatMap_endTags (formed_tokenize cs), Markup.flatMap_tokens_ofTokens]
  exact (nodup_spans cs).sublist (List.filter_sublist.map _)

/-- **An element is known by the place of its end tag.** -/
theorem stop_of_endTag (visited : ⟨e.toNode, ancestors⟩ ∈ stopsIn [] (Page.ofText cs).nodes)
    (visited' : ⟨e'.toNode, ancestors'⟩ ∈ stopsIn [] (Page.ofText cs).nodes)
    (ends : e.endTag = some s) (ends' : e'.endTag = some s) : e = e' ∧ ancestors = ancestors' := by
  have nodup := (List.nodup_append.mp (nodup_endTags shallow)).1
  rw [endTags, List.filterMap_map] at nodup
  exact stop_of_key nodup visited visited' ends ends'

end Page

/-! ## The builder at an end tag -/

namespace Builder

variable {b : Builder} {cap : Option Nat} {t : Token TokenKind}

theorem run_append (b : Builder) (cap : Option Nat) (pieces more : List Markup) :
    b.run cap (pieces ++ more) = (((b.run cap pieces).1.run cap more).1,
      (b.run cap pieces).2 ++ ((b.run cap pieces).1.run cap more).2) := by
  induction pieces generalizing b with
  | nil => rfl
  | cons piece pieces ih =>
      simp only [List.cons_append, run, ih, List.append_assoc]

end Builder

/-- An end tag is a piece by itself. -/
theorem ofTokens_split {before behind : List (Token TokenKind)} {t : Token TokenKind}
    (kind : t.kind = .tagClose) : Markup.ofTokens (before ++ t :: behind) =
      Markup.ofTokens before ++ .single t :: Markup.ofTokens behind := by
  have stops : ∀ u ∈ (t :: behind).head?, isTagPart u = false ∧ isTagEnd u = false := by
    rintro u ⟨⟩
    simp [isTagPart, isTagEnd, kind]
  rw [Markup.ofTokens_append stops, ofTokens_single (by simp [kind])]

namespace Page

/-- What the builder holds before the rest of the tokens. -/
def builderAfter (before : List (Token TokenKind)) : Builder :=
  (Builder.empty.run (some depthCap) (Markup.ofTokens before)).1

theorem nodes_eq_tree (cs : List Char) : (Page.ofText cs).nodes = (builderAfter (tokenize cs)).tree := rfl

/-- The page is what comes of the builder at an end tag. -/
theorem builderAfter_tokenize {before behind : List (Token TokenKind)} {t : Token TokenKind}
    (split : tokenize cs = before ++ t :: behind) (kind : t.kind = .tagClose) :
    builderAfter (tokenize cs) =
      (((builderAfter before).close t).1.run (some depthCap) (Markup.ofTokens behind)).1 := by
  have stepped : (builderAfter before).step (some depthCap) (.single t) =
      (builderAfter before).close t := by
    simp only [Builder.step, Builder.takeIn, kind]
  rw [builderAfter, split, ofTokens_split kind, Builder.run_append, Builder.run]
  dsimp only
  rw [← stepped]
  rfl

/-- Its tree is how that of the page begins. -/
theorem grows_builderAfter {before behind : List (Token TokenKind)} {t : Token TokenKind}
    (split : tokenize cs = before ++ t :: behind) (kind : t.kind = .tagClose) :
    Grows ((builderAfter before).close t).1.tree (Page.ofText cs).nodes := by
  rw [nodes_eq_tree, builderAfter_tokenize split kind]
  exact Builder.grows_run _ _ _

variable (shallow : (Page.ofText cs).Shallow)
include shallow

theorem waits_builderAfter {before behind : List (Token TokenKind)} {t : Token TokenKind}
    (split : tokenize cs = before ++ t :: behind) (kind : t.kind = .tagClose) :
    (builderAfter before).Waits := by
  refine (waits_empty.run (Markup.ofTokens before) fun issue told => shallow issue ?_).waits
  show issue ∈ (buildTree (some depthCap) (tokenize cs)).2
  rw [split, buildTree, ofTokens_split kind, Builder.run_append]
  exact List.mem_append_left _ (List.mem_append_left _ told)

/-- **The end tag of an element ended an element where it stands.** -/
theorem ended_by_token (visited : e ∈ (Page.ofText cs).elements) (ends : e.endTag = some s) :
    ∃ before t behind, tokenize cs = before ++ t :: behind ∧ t.kind = .tagClose ∧ t.span = s ∧
      Builder.endTagName t.text ∉ voidElements ∧
      Builder.endTagName t.text ∈ (builderAfter before).names := by
  have isEnd : s ∈ endTags ((Page.ofText cs).elements.map Element.shell) :=
    List.mem_filterMap.mpr ⟨e.shell, List.mem_map_of_mem visited, ends⟩
  have inMarkup := (endTags_perm shallow).subset (List.mem_append_left _ isEnd)
  rw [flatMap_endTags (formed_tokenize cs), Markup.flatMap_tokens_ofTokens] at inMarkup
  obtain ⟨t, found, rfl⟩ := List.mem_map.mp inMarkup
  obtain ⟨member, kind⟩ := List.mem_filter.mp found
  have kind : t.kind = .tagClose := of_decide_eq_true kind
  obtain ⟨before, behind, split⟩ := List.append_of_mem member
  have apart := List.nodup_append.mp (nodup_endTags shallow)
  have noStray : t.span ∉ straySpans (Page.ofText cs).issues :=
    fun stray => apart.2.2 t.span isEnd t.span stray rfl
  have told : ∀ issue ∈ ((builderAfter before).close t).2, issue ∈ (Page.ofText cs).issues := by
    intro issue own
    show issue ∈ (buildTree (some depthCap) (tokenize cs)).2
    rw [split, buildTree, ofTokens_split kind, Builder.run_append, Builder.run]
    refine List.mem_append_left _ (List.mem_append_right _ (List.mem_append_left _ ?_))
    show issue ∈ ((builderAfter before).takeIn t).2
    rw [Builder.takeIn, kind]
    exact own
  have quiet : ∀ issue ∈ ((builderAfter before).close t).2, issue.fault.isStrayEnd →
      issue.span = t.span → False := by
    intro issue own stray place
    refine noStray (place ▸ List.mem_map_of_mem ?_)
    exact List.mem_filter.mpr ⟨told issue own, stray⟩
  refine ⟨before, t, behind, split, kind, rfl, ?_⟩
  have waits := waits_builderAfter shallow split kind
  have cases_ := Builder.closing (builderAfter before) t
  generalize Builder.endTagName t.text = name at cases_ ⊢
  generalize (builderAfter before).close t = r at cases_ quiet
  cases cases_ with
  | void _ => exact absurd rfl (quiet ⟨.voidEndTag name, t.span⟩ (by simp) rfl)
  | flattened _ known => simp [waits.flattened] at known
  | element solid _ known => exact ⟨solid, known⟩
  | stray _ _ => exact absurd rfl (quiet ⟨.unexpectedEndTag name, t.span⟩ (by simp) rfl)

end Page

end PageLint.Html
