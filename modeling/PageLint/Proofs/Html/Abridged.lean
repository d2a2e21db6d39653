/-
# PageLint.Proofs.Html.Abridged — a page without an end tag that is not needed

An element that could end by itself may do without its end tag: the page is built of the same tokens but
for white space (`tokens_omitted`), and the builder in which the element is left open builds the same of
what follows (`mends_implied`). That holds if the next sibling of the element ends it, or there is none,
and if the element would not go on without its end tag (`Page.end_omitted`), which the tokens tell
(`Page.goesOnWithout`).
-/
import PageLint.Proofs.Html.Following
import PageLint.Proofs.Html.Omission

namespace PageLint.Html

set_option autoImplicit false

open Text

variable {cs : List Char} {before behind more : List (Token TokenKind)} {t : Token TokenKind}
  {name : List Char} {inside around : List (List Char)}

namespace Builder

variable {b : Builder} {cap : Option Nat} {r r' r'' : Builder × List Issue}

theorem Agree.symm (agree : Agree r r') : Agree r' r := ⟨agree.1.symm, agree.2.symm⟩

theorem Mends.agree {told : List Fault} (mends : Mends told r r') (same : Agree r' r'') :
    Mends told r r'' :=
  ⟨same.1.trans mends.tree, fun fault => same.2 ▸ mends.faults fault⟩

theorem build_append (b : Builder) (cap : Option Nat) (pieces later : List Markup) :
    b.build cap (pieces ++ later) = (((b.run cap pieces).1.build cap later).1,
      (b.run cap pieces).2 ++ ((b.run cap pieces).1.build cap later).2) := by
  simp only [build, run_append, List.append_assoc]

/-- Texts of white space in front leave no trace. -/
theorem build_blank {texts : List (Token TokenKind)} (b : Builder) (cap : Option Nat)
    (blank : ∀ u ∈ texts, u.kind = .text ∧ ∀ d ∈ u.text, isBlank d) :
    Agree (b.build cap (Markup.ofTokens more)) (b.build cap (Markup.ofTokens (texts ++ more))) := by
  induction texts generalizing b with
  | nil => exact ⟨rfl, rfl⟩
  | cons u texts ih =>
      rw [List.forall_mem_cons] at blank
      obtain ⟨⟨kind, space⟩, others⟩ := blank
      have taken : b.step cap (.single u) = (b.append (.text ⟨u.text, false, u.span⟩), []) := by
        simp only [step, takeIn, kind]
      have white : (Node.text ⟨u.text, false, u.span⟩).isBlank := List.all_eq_true.mpr space
      have same := bare_append_blank b white
      rw [List.cons_append, ofTokens_single (by simp [kind]), build_cons, taken]
      exact (build_same cap same _).trans (ih _ others)

end Builder

/-- What comes behind an element that ends by itself is no text, unless one of white space. -/
theorem Implied.blank (implied : Implied name around inside behind) :
    ∀ u ∈ behind.head?, u.kind = .text → ∀ d ∈ u.text, isBlank d := by
  rintro u first text
  cases implied with
  | finish _ => cases first
  | quiet quiet _ =>
      obtain rfl := Option.some.inj first
      simpa [isQuiet, text] using quiet
  | start kind _ _ | inner kind _ _ _ _ | outer kind _ _ _ _ | own kind _ _ =>
      obtain rfl := Option.some.inj first
      cases kind.symm.trans text

theorem Markup.Alike.isBroken {piece piece' : Markup} (alike : piece.Alike piece') :
    piece'.isBroken = piece.isBroken := by
  cases alike with
  | @tag _ _ _ _ close close' _ _ closed =>
      cases close <;> cases close' <;> first | rfl | cases closed
  | single _ => rfl

/-- What is alike ends in a start tag that is broken off, if one of both does. -/
theorem whole_of_alike {pieces pieces' : List Markup} (alike : List.Forall₂ Markup.Alike pieces pieces')
    (whole : ∀ piece ∈ pieces.getLast?, piece.isBroken = false) :
    ∀ piece ∈ pieces'.getLast?, piece.isBroken = false := by
  have backwards := List.forall₂_reverse_iff.mpr alike
  rw [List.getLast?_eq_head?_reverse] at whole ⊢
  generalize pieces.reverse = last at backwards whole
  generalize pieces'.reverse = last' at backwards
  cases backwards with
  | nil => exact whole
  | cons first _ =>
      rintro piece ⟨⟩
      exact first.isBroken.trans (whole _ rfl)

/-- Pages are built of all their markup. -/
theorem Page.alike_of_mends {cs cs' : List Char}
    (mends : Builder.Mends [] (Builder.empty.build (some depthCap) (Markup.ofTokens (tokenize cs)))
      (Builder.empty.build (some depthCap) (Markup.ofTokens (tokenize cs')))) :
    bareIn (Page.ofText cs').nodes = bareIn (Page.ofText cs).nodes ∧
      (faults (Page.ofText cs').issues).Subperm (faults (Page.ofText cs).issues) := by
  have nodes : ∀ cs : List Char, (Page.ofText cs).nodes = (Builder.empty.build (some depthCap)
      (Markup.ofTokens (tokenize cs))).1.top.reverse := fun _ => rfl
  refine ⟨?_, List.subperm_iff_count.mpr fun fault => ?_⟩
  · rw [nodes, nodes, bareIn_reverse, bareIn_reverse, Builder.top_alike mends.tree]
  · have few := mends.faults fault
    rwa [List.count_nil, Nat.zero_add] at few

/-- **The end tag of an element that would end by itself can go**: without it the page has the same
tree, but for white space and end tags, and no fault that it did not have. -/
theorem Page.mends_omitted (split : tokenize cs = before ++ t :: behind) (kind : t.kind = .tagClose)
    (waits : (builderAfter before).Waits) (open_ : (builderAfter before).names = inside ++ name :: around)
    (apart : name ∉ inside) (named : Builder.endTagName t.text = name) (optional : name ∈ optionalEndTag)
    (whole : ∀ piece ∈ (Markup.ofTokens before).getLast?, piece.isBroken = false)
    (implied : Implied name around inside behind) :
    ∃ e : Edit, e.old = cs ∧ e.span = t.span ∧ e.put = [] ∧
      bareIn (Page.ofText e.new).nodes = bareIn (Page.ofText cs).nodes ∧
        (faults (Page.ofText e.new).issues).Subperm (faults (Page.ofText cs).issues) := by
  have parsed : ∀ name ∈ optionalEndTag, name ∉ unparsedElements := by decide
  have some_ : before ≠ [] := by
    rintro rfl
    have none_ : (builderAfter []).names = [] := by
      simp [builderAfter, Markup.ofTokens, Builder.run, Builder.empty, Builder.names_eq]
    simp [none_] at open_
  obtain ⟨e, front, gap, skip, left, back, old, span, put, new, rfl, before_, left_, blank⟩ :=
    tokens_omitted split kind some_ whole (named ▸ parsed _ optional) implied.blank
  refine ⟨e, old, span, put, ?_⟩
  rw [List.forall_mem_append] at blank
  obtain ⟨held', told'⟩ := Builder.run_alike (some depthCap) (rfl : Builder.empty.bare = _)
    (alike_ofTokens before_)
  have unbroken := whole_of_alike (alike_ofTokens before_) whole
  obtain ⟨issues, closed, told⟩ := Builder.close_known (b := builderAfter before) (t := t)
    (named ▸ solid_of_optional optional) waits.flattened (by simp [open_, named])
  rw [named, open_, takeWhile_other apart] at closed told
  have stepped : (builderAfter before).step (some depthCap) (.single t) =
      ((Builder.closeMany inside.length (builderAfter before)).closeTop (some t.span), issues) := by
    simp only [Builder.step, Builder.takeIn, kind]
    exact closed
  have oldPage := Builder.build_append .empty (some depthCap) (Markup.ofTokens before)
    (.single t :: Markup.ofTokens (skip ++ left))
  rw [← ofTokens_split kind, ← split, Builder.build_cons,
    show (Builder.run _ _ (Markup.ofTokens before)).1 = builderAfter before from rfl, stepped] at oldPage
  have newPage := Builder.build_append .empty (some depthCap) (Markup.ofTokens front)
    (Markup.ofTokens (gap ++ back))
  rw [← Markup.ofTokens_append_of_apart (.inl unbroken), ← new,
    show (Builder.run _ _ (Markup.ofTokens front)).1 = builderAfter front from rfl] at newPage
  -- What stands behind the end tag builds no less with the element left open.
  have mends : Builder.Mends (Builder.owing .notClosed inside)
      (((Builder.closeMany inside.length (builderAfter before)).closeTop (some t.span)).build
        (some depthCap) (Markup.ofTokens (skip ++ left)))
      ((builderAfter front).build (some depthCap) (Markup.ofTokens (gap ++ back))) := by
    have ended := (Builder.bare_closeMany_closeTop inside.length (builderAfter before)
      (some t.span)).symm
    have later := (Builder.mends_implied (some depthCap) implied optional apart
      ⟨open_, waits.flattened⟩).trans (Builder.build_same (some depthCap) ended _)
    exact later.agree <| (Builder.build_blank _ _ blank.2).symm.trans <|
      (Builder.build_alike (some depthCap) held' (alike_ofTokens left_)).trans
        (Builder.build_blank _ _ blank.1)
  refine alike_of_mends ⟨?_, fun fault => ?_⟩
  · rw [oldPage, newPage]
    exact mends.tree
  · have few := mends.faults fault
    rw [oldPage, newPage]
    simp only [faults_append, told, told', List.count_append, List.count_nil]
    omega

/-- The element of this name with its end tag at this place would go on without it. A start tag that is
broken off in front of the end tag would take in what comes behind. -/
def Page.goesOnWithout (page : Page) (s : Span) (name : List Char) : Bool :=
  let before := page.tokens.takeWhile (·.span != s)
  let names := (builderAfter before).names
  (Markup.ofTokens before).getLast?.any Markup.isBroken ||
    goesOn name (namesAfter name names) (names.takeWhile (· != name))
      ((page.tokens.dropWhile (·.span != s)).drop 1)

/-- The tokens before and behind the one at a place. -/
theorem tokens_around (split : tokenize cs = before ++ t :: behind) :
    (tokenize cs).takeWhile (·.span != t.span) = before ∧
      ((tokenize cs).dropWhile (·.span != t.span)).drop 1 = behind := by
  have nodup := nodup_spans cs
  rw [split, List.map_append, List.map_cons, List.nodup_append] at nodup
  have other : ∀ u ∈ before, (u.span != t.span) = true := by
    intro u member
    simpa using nodup.2.2 _ (List.mem_map_of_mem member) t.span (by simp)
  rw [split, List.takeWhile_append_of_pos other, List.dropWhile_append_of_pos other,
    List.takeWhile_cons_of_neg (by simp), List.dropWhile_cons_of_neg (by simp)]
  exact ⟨List.append_nil _, rfl⟩

/-- **An element that could end by itself may do without its end tag**, if its next sibling ends it, if
it has one, and it would not go on. -/
theorem Page.end_omitted {e : Element} {ancestors : List Element} {s : Span}
    (shallow : (Page.ofText cs).Shallow)
    (visited : ⟨e.toNode, ancestors⟩ ∈ stopsIn [] (Page.ofText cs).nodes) (ends : e.endTag = some s)
    (optional : e.name ∈ optionalEndTag) (inner : ancestors ≠ [])
    (next : ∀ parent ∈ ancestors.getLast?, ∀ node, parent.IsNext e node →
      ∃ tag ∈ node.element?.map Element.tag, closedBy e.name tag.name)
    (calm : (Page.ofText cs).goesOnWithout s e.name = false) :
    ∃ edit : Edit, edit.old = cs ∧ edit.span = s ∧ edit.put = [] ∧
      bareIn (Page.ofText edit.new).nodes = bareIn (Page.ofText cs).nodes ∧
        (faults (Page.ofText edit.new).issues).Subperm (faults (Page.ofText cs).issues) := by
  obtain ⟨before, t, behind, inside, o, outer, split, kind, rfl, named, waits, front, names, held,
    closed, around⟩ := Page.open_at_end shallow visited ends
  have apart : e.name ∉ inside := by
    intro member
    rw [front] at member
    simpa using List.mem_takeWhile_imp member
  obtain ⟨parted, parted'⟩ := tokens_around split
  rw [goesOnWithout, show (Page.ofText cs).tokens = tokenize cs from rfl, parted, parted', ← front,
    names, namesAfter_append apart, Bool.or_eq_false_iff] at calm
  obtain ⟨unbroken, calm⟩ := calm
  refine mends_omitted split kind waits names apart named optional ?_ ?_
  · intro piece last
    rwa [Option.mem_def.mp last] at unbroken
  -- The end tag put the element into the one around it, and there is one.
  cases outer with
  | nil =>
      rw [List.map_nil, List.reverse_nil, List.map_eq_nil_iff] at around
      exact absurd around inner
  | cons q outer =>
      obtain ⟨issues, ended, -⟩ := Builder.close_known (b := builderAfter before) (t := t)
        (named ▸ solid_of_optional optional) waits.flattened (by simp [names, named])
      rw [named, ← front] at ended
      have whole := builderAfter_tokenize split kind
      rw [ended] at whole
      have put : ((Builder.closeMany inside.length (builderAfter before)).closeTop
          (some t.span)).stack = ⟨q.tag, [] ++ e.toNode :: q.children⟩ :: outer := by
        rw [← closed, Builder.closeTop, held]
        rfl
      have left : ((Builder.closeMany inside.length (builderAfter before)).closeTop
          (some t.span)).names = (q :: outer).map (·.tag.name) := by
        rw [Builder.names_eq, put]
        rfl
      have none_ : ((Builder.closeMany inside.length (builderAfter before)).closeTop
          (some t.span)).flattened = [] := by
        rw [Builder.flattened_closeTop, Builder.flattened_closeMany, waits.flattened]
      rw [← left] at calm ⊢
      exact implied shallow visited ends next apart put none_ (by simp) whole calm

end PageLint.Html
