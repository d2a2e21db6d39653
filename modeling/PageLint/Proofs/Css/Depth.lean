/-
# PageLint.Proofs.Css.Depth — blocks past the cap are empty

With a cap on how many blocks may be open, the blocks that lie inside as many others as the cap
allows are empty, and each of them is told as too deep, at its `{` and once.

The blocks that are open hold the items of one level each, so the items of the deepest level are
known while the stylesheet is being read (`heldAt`). Closing a block leaves them as they are
(`readAt_close`), and so does all that is built but a block that is skipped: that one is
added at this level, empty, with a fault of its own (`Skips`). Declarations without braces are put
together while they are read, so what is looked at must not depend on them (`Blockwise`).
-/
import PageLint.Proofs.Css.Layout
import PageLint.Proofs.Css.Totality

namespace PageLint.Css

set_option autoImplicit false

open Text

/-! ## Blocks of items -/

/-- The `{` of the block of an item, if it has one. -/
def Item.opening? : Item → Option Span
  | .style rule => rule.block.opening
  | .atRule rule => rule.opening?
  | .declarations _ => none
  | .comment _ => none

/-- Nothing lies in a block. -/
def Block.isEmpty (block : Block Item) : Bool :=
  block.declarations.isEmpty && block.comments.isEmpty && block.nested.isEmpty

/-- Nothing lies in the block of an item. -/
def Item.isEmpty : Item → Bool
  | .style rule => rule.block.isEmpty
  | .atRule rule =>
    match rule.body with
    | .statement => true
    | .declarations block => block.isEmpty
    | .rules _ _ items => items.isEmpty
  | .declarations block => block.isEmpty
  | .comment _ => true

theorem Block.isEmpty_nested {block : Block Item} (empty : block.isEmpty) : block.nested = [] := by
  simp only [Block.isEmpty, Bool.and_eq_true, List.isEmpty_iff] at empty
  exact empty.2

theorem Item.isEmpty_children {item : Item} (empty : item.isEmpty) : item.children = [] := by
  match item with
  | .style rule => exact Block.isEmpty_nested empty
  | .atRule rule =>
      rw [Item.isEmpty] at empty
      rw [Item.children]
      split
      · rfl
      next block body =>
        rw [body] at empty
        exact Block.isEmpty_nested empty
      next body =>
        rw [body] at empty
        exact List.isEmpty_iff.mp empty
  | .declarations block => exact Block.isEmpty_nested empty
  | .comment _ => rfl

/-- What is looked at in items says nothing of those without a block. -/
structure Blockwise {α : Type} (f : Item → List α) : Prop where
  comment : ∀ c, f (.comment c) = []
  statement : ∀ (head : AtHead) finish, f (.atRule (head.toRule .statement finish)) = []
  fresh : ∀ d : Declaration, f (.declarations ⟨none, none, [d], [], [], d.span⟩) = []
  grown : ∀ (block : Block Item) declarations span,
    f (.declarations { block with declarations, span }) = f (.declarations block)

theorem blockwise_children : Blockwise Item.children :=
  ⟨fun _ => rfl, fun _ _ => rfl, fun _ => rfl, fun _ _ _ => rfl⟩

/-- The `{` of a block, and whether the block is empty. -/
def Item.braces (item : Item) : List (Span × Bool) := (item.opening?.map (·, item.isEmpty)).toList

theorem blockwise_braces : Blockwise Item.braces :=
  ⟨fun _ => rfl, fun _ _ => rfl, fun _ => rfl, fun _ _ _ => rfl⟩

section Blockwise

variable {α : Type} {f : Item → List α}

theorem Blockwise.addBare (blockwise : Blockwise f) (n : Nat) (d : Declaration)
    (items : List Item) : (itemsAt n (Builder.addBare d items).reverse).flatMap f =
      (itemsAt n items.reverse).flatMap f := by
  rw [Builder.addBare.eq_def]
  split
  next block items =>
    simp only [List.reverse_cons, itemsAt_append, List.flatMap_append, List.append_cancel_left_eq]
    cases n with
    | zero =>
        simp only [itemsAt, List.flatMap_singleton]
        exact blockwise.grown block _ _
    | succ n => rfl
  next =>
    simp only [List.reverse_cons, itemsAt_append, List.flatMap_append]
    cases n with
    | zero => simp [itemsAt, blockwise.fresh]
    | succ n => simp [itemsAt, Item.children]

end Blockwise

/-! ## What is held at a level -/

/-- The items that an open block holds so far, last first. -/
def Frame.items : Frame → List Item
  | .rules _ _ items => items
  | .block _ _ _ _ nested => nested

/-- The items at a level: first those inside items that are complete, outermost first. -/
def heldAt (n : Nat) (top : List Item) : List Frame → List Item
  | [] => itemsAt n top.reverse
  | frame :: outer => heldAt n top outer ++ itemsAt (n - (outer.length + 1)) frame.items.reverse

namespace Builder

variable {α : Type} {f : Item → List α} {b b' b'' : Builder} {n cap : Nat} {last : Position}

/-- What is looked at in the items at a level. -/
def readAt (f : Item → List α) (n : Nat) (b : Builder) : List α := (heldAt n b.top b.stack).flatMap f

theorem readAt_addItem (f : Item → List α) (n : Nat) (b : Builder) (item : Item) :
    (b.addItem item).readAt f n = b.readAt f n ++ (itemsAt (n - b.stack.length) [item]).flatMap f := by
  obtain ⟨stack, top⟩ := b
  rcases stack with - | ⟨⟨⟩ | ⟨⟩, outer⟩ <;>
    simp [readAt, Builder.addItem, heldAt, Frame.items]

theorem readAt_addDeclaration (blockwise : Blockwise f) (n : Nat) (b : Builder)
    (d : Declaration) : (b.addDeclaration d).readAt f n = b.readAt f n := by
  obtain ⟨stack, top⟩ := b
  rcases stack with - | ⟨⟨⟩ | ⟨⟩, outer⟩
  · exact blockwise.addBare n d top
  · simp only [readAt, Builder.addDeclaration, heldAt, Frame.items, List.flatMap_append,
      blockwise.addBare]
  · rfl

theorem children_close (frame : Frame) (closing : Option Span) (last : Position) :
    (frame.close closing last).children = frame.items.reverse := by
  cases frame with
  | rules head opening items => rfl
  | block owner opening declarations comments nested => cases owner <;> rfl

/-- **A block that is closed** leaves what is held at a level as it is. -/
theorem readAt_close (f : Item → List α) (room : b.stack.length ≤ n) (closing : Option Span)
    (last : Position) : (b.close closing last).readAt f n = b.readAt f n := by
  obtain ⟨stack, top⟩ := b
  cases stack with
  | nil => rfl
  | cons frame outer =>
      rw [List.length_cons] at room
      have level : n - outer.length = n - (outer.length + 1) + 1 := by omega
      rw [Builder.close, readAt_addItem, level, itemsAt_singleton, children_close]
      simp only [readAt, heldAt, List.flatMap_append]

/-- An item without a block leaves what is held at a level as it is. -/
theorem readAt_addItem_plain {item : Item} (leaf : item.children = []) (plain : f item = [])
    (n : Nat) (b : Builder) : (b.addItem item).readAt f n = b.readAt f n := by
  rw [readAt_addItem]
  cases n - b.stack.length with
  | zero => simp [itemsAt, plain]
  | succ k => simp [itemsAt_singleton, leaf]

theorem readAt_addComment (blockwise : Blockwise f) (n : Nat) (b : Builder) (c : Comment) :
    (b.addComment c).readAt f n = b.readAt f n := by
  rw [Builder.addComment]
  split
  next stack => simp only [readAt, stack, heldAt, Frame.items]
  next => exact readAt_addItem_plain rfl (blockwise.comment c) n b

@[simp] theorem length_addComment (b : Builder) (c : Comment) :
    (b.addComment c).stack.length = b.stack.length := by
  rw [Builder.addComment]
  split
  next stack => simp [stack]
  next => exact length_addItem b _

@[simp] theorem length_addDeclaration (b : Builder) (d : Declaration) :
    (b.addDeclaration d).stack.length = b.stack.length := by
  obtain ⟨stack, top⟩ := b
  rcases stack with - | ⟨⟨⟩ | ⟨⟩, outer⟩ <;> rfl

theorem length_close (b : Builder) (closing : Option Span) (last : Position) :
    (b.close closing last).stack.length = b.stack.length - 1 := by
  obtain ⟨stack, top⟩ := b
  cases stack with
  | nil => rfl
  | cons frame outer =>
      rw [Builder.close, length_addItem]
      rfl

end Builder

/-! ## What is skipped -/

/-- Where blocks are told as too deep. -/
def tooDeepAt (cap : Nat) (issues : List Issue) : List Span :=
  (issues.filter (·.fault = .tooDeep cap)).map Issue.span

@[simp] theorem tooDeepAt_nil (cap : Nat) : tooDeepAt cap [] = [] := rfl

@[simp] theorem tooDeepAt_append (cap : Nat) (issues more : List Issue) :
    tooDeepAt cap (issues ++ more) = tooDeepAt cap issues ++ tooDeepAt cap more := by
  simp [tooDeepAt]

theorem tooDeepAt_of_forall {cap : Nat} {issues : List Issue}
    (other : ∀ issue ∈ issues, issue.fault ≠ .tooDeep cap) : tooDeepAt cap issues = [] := by
  rw [tooDeepAt, List.filter_eq_nil_iff.mpr (by simpa using other)]
  rfl

theorem tooDeepAt_tokenIssues (cap : Nat) (ts : Tokens) : tooDeepAt cap (tokenIssues ts) = [] := by
  refine tooDeepAt_of_forall fun issue member => ?_
  obtain ⟨t, -, fault⟩ := List.mem_filterMap.mp member
  obtain ⟨fault, found, rfl⟩ := Option.map_eq_some_iff.mp fault
  rintro rfl
  rw [tokenFault?] at found
  split at found
  · cases found
  · split at found <;> cases found
  · split at found <;> cases found
  · cases found

theorem tooDeepAt_readSelectors (cap : Nat) (prelude : Tokens) :
    tooDeepAt cap (readSelectors prelude).2 = [] := by
  rw [readSelectors_eq]
  split
  · rfl
  next last _ =>
    refine tooDeepAt_of_forall ?_
    induction splitAtCommas 0 prelude with
    | nil => simp
    | cons part parts ih =>
        rw [List.foldr_cons, addPart]
        split
        · exact ih
        · exact List.forall_mem_cons.mpr ⟨by simp, ih⟩

/-- **What becomes of the deepest level**: while tokens are taken, empty blocks are added there, each
one with a fault at its `{`, and nothing else. -/
structure Skips (cap : Nat) (b : Builder) (taken : Tokens) (issues : List Issue) (b' : Builder) :
    Prop where
  bound : b'.stack.length ≤ cap
  skipped : ∃ skipped : List Item, (∀ item ∈ skipped, item.isEmpty) ∧
    skipped.filterMap Item.opening? = tooDeepAt cap issues ∧
    ∀ {α : Type} (f : Item → List α), Blockwise f →
      b'.readAt f cap = b.readAt f cap ++ skipped.flatMap f
  places : (tooDeepAt cap issues).Sublist (taken.map Token.span)

namespace Skips

variable {cap : Nat} {b b' b'' : Builder} {taken later : Tokens} {issues more : List Issue}

/-- Nothing is skipped. -/
theorem nothing (bound : b'.stack.length ≤ cap) (none_ : tooDeepAt cap issues = [])
    (same : ∀ {α : Type} (f : Item → List α), Blockwise f → b'.readAt f cap = b.readAt f cap) :
    Skips cap b taken issues b' where
  bound := bound
  skipped := ⟨[], by simp, none_.symm, fun f blockwise => by simp [same f blockwise]⟩
  places := by simp [none_]

theorem trans (first : Skips cap b taken issues b') (second : Skips cap b' later more b'') :
    Skips cap b (taken ++ later) (issues ++ more) b'' where
  bound := second.bound
  skipped := by
    obtain ⟨some_, empty, openings, read⟩ := first.skipped
    obtain ⟨others, empty', openings', read'⟩ := second.skipped
    refine ⟨some_ ++ others, List.forall_mem_append.mpr ⟨empty, empty'⟩, ?_, ?_⟩
    · rw [List.filterMap_append, openings, openings', tooDeepAt_append]
    · intro α f blockwise
      rw [read' f blockwise, read f blockwise, List.flatMap_append, List.append_assoc]
  places := by
    rw [tooDeepAt_append, List.map_append]
    exact first.places.append second.places

/-- Other faults, and other tokens. -/
theorem mono {wider : Tokens} (skips : Skips cap b taken issues b')
    (told : tooDeepAt cap more = tooDeepAt cap issues) (inside : taken.Sublist wider) :
    Skips cap b wider more b' where
  bound := skips.bound
  skipped := by rw [told]; exact skips.skipped
  places := by rw [told]; exact skips.places.trans (inside.map _)

end Skips

namespace Builder

variable {b : Builder} {cap n : Nat} {last : Position} {t e : Token TokenKind}
  {rest inside here : Tokens}

/-- A block that begins, with nothing in it yet. -/
def IsNew (opening : Span) (frame : Frame) : Prop :=
  (∃ head, frame = .rules head opening []) ∨ ∃ owner, frame = .block owner opening [] [] []

/-- **A block past the cap is skipped**: it is empty, and told at its `{`. -/
theorem skips_openBlock (room : b.stack.length ≤ cap) {frame : Frame} (new : IsNew e.span frame) :
    Skips cap b [e] (b.openBlock cap last frame inside).issues
      (b.openBlock cap last frame inside).builder := by
  have opening : frame.opening = e.span := by
    rcases new with ⟨head, rfl⟩ | ⟨owner, rfl⟩ <;> rfl
  simp only [Builder.openBlock]
  split
  next capped =>
    have level : cap - b.stack.length = 0 := by omega
    generalize blockExtent 0 inside = extent
    have told : tooDeepAt cap (⟨.tooDeep cap, frame.opening⟩ ::
        if extent.2.isNone then [⟨.unclosedBlock, frame.opening⟩] else []) = [e.span] := by
      cases extent.2 <;> simp [tooDeepAt, opening]
    have skip : ∀ item : Item, item.isEmpty → item.opening? = some e.span →
        Skips cap b [e] (⟨.tooDeep cap, frame.opening⟩ ::
          if extent.2.isNone then [⟨.unclosedBlock, frame.opening⟩] else []) (b.addItem item) := by
      intro item empty opens
      refine ⟨(length_addItem b item).trans_le room, ⟨[item], by simpa using empty, ?_, ?_⟩, ?_⟩
      · rw [told]
        simp [opens]
      · intro α f _
        rw [readAt_addItem, level]
        rfl
      · rw [told]
        exact List.Sublist.refl _
    refine skip _ ?_ ?_
    · rcases new with ⟨head, rfl⟩ | ⟨owner | owner, rfl⟩ <;> rfl
    · rcases new with ⟨head, rfl⟩ | ⟨owner | owner, rfl⟩ <;> rfl
  next free =>
    have items : frame.items = [] := by
      rcases new with ⟨head, rfl⟩ | ⟨owner, rfl⟩ <;> rfl
    refine .nothing ?_ rfl fun f _ => ?_
    · rw [List.length_cons]
      omega
    · simp [readAt, heldAt, items]

theorem skips_openStyle (room : b.stack.length ≤ cap) (found : here[n]? = some e)
    (keyframe : Bool) :
    Skips cap b (here.take ((b.openStyle cap last keyframe n e.span here).more + 1))
      (b.openStyle cap last keyframe n e.span here).issues
      (b.openStyle cap last keyframe n e.span here).builder := by
  have new : IsNew e.span (.block (.style (readSelectors (trimTrivia (here.take n))).1
      (spanOf? (trimTrivia (here.take n))) keyframe) e.span [] [] []) := .inr ⟨_, rfl⟩
  refine (skips_openBlock room new).mono ?_ ?_
  · simp only [Builder.openStyle, tooDeepAt_append, tooDeepAt_readSelectors, List.nil_append]
  · refine (List.singleton_sublist.mpr (mem_take_of_getElem? found)).trans ?_
    refine (List.take_prefix_take_left ?_).sublist
    simp only [Builder.openStyle]
    omega

theorem skips_takeAtRule (room : b.stack.length ≤ cap) :
    Skips cap b ((t :: rest).take ((b.takeAtRule cap last t rest).more + 1))
      (b.takeAtRule cap last t rest).issues (b.takeAtRule cap last t rest).builder := by
  have plain : ∀ (head : AtHead) finish issues taken, tooDeepAt cap issues = [] →
      Skips cap b taken issues (b.addItem (.atRule (head.toRule .statement finish))) :=
    fun head finish issues taken none_ =>
      .nothing ((length_addItem b _).trans_le room) none_ fun f blockwise =>
        readAt_addItem_plain rfl (blockwise.statement head finish) _ b
  simp only [Builder.takeAtRule]
  split
  next => exact plain _ _ _ _ rfl
  next e found =>
    split
    next => exact plain _ _ _ _ rfl
    split
    next =>
      have member := List.singleton_sublist.mpr (mem_take_of_getElem? found)
      have new : IsNew e.span (if declarationAtRules.contains (lowerAscii (t.text.drop 1)) then
          .block (.atRule ⟨lowerAscii (t.text.drop 1), t.span,
            trimTrivia (rest.take (preludeExtent 0 rest))⟩) e.span [] [] []
          else .rules ⟨lowerAscii (t.text.drop 1), t.span,
            trimTrivia (rest.take (preludeExtent 0 rest))⟩ e.span []) := by
        split
        · exact .inr ⟨_, rfl⟩
        · exact .inl ⟨_, rfl⟩
      refine (skips_openBlock room new).mono rfl ?_
      rw [List.take_succ_cons]
      refine (member.trans ?_).trans (List.sublist_cons_self _ _)
      exact (List.take_prefix_take_left (Nat.le_add_right _ _)).sublist
    next => exact plain _ _ _ _ rfl

theorem skips_takeRule (room : b.stack.length ≤ cap) :
    Skips cap b ((t :: rest).take ((b.takeRule cap last t rest).more + 1))
      (b.takeRule cap last t rest).issues (b.takeRule cap last t rest).builder := by
  simp only [Builder.takeRule]
  split
  next brace =>
    obtain ⟨e, found, -⟩ := (Option.any_eq_true _ _).mp brace
    rw [found]
    exact skips_openStyle room found _
  split
  next d taken read =>
    exact .nothing ((length_addDeclaration b d).trans_le room) rfl fun f blockwise =>
      readAt_addDeclaration blockwise _ b d
  next =>
    split
    · exact .nothing room rfl fun f _ => rfl
    · exact .nothing room rfl fun f _ => rfl

theorem skips_takeEntry (room : b.stack.length ≤ cap) :
    Skips cap b ((t :: rest).take ((b.takeEntry cap last t rest).more + 1))
      (b.takeEntry cap last t rest).issues (b.takeEntry cap last t rest).builder := by
  simp only [Builder.takeEntry]
  split
  next nested =>
    rw [startsNestedRule, Bool.and_eq_true] at nested
    obtain ⟨e, found, -⟩ := (Option.any_eq_true _ _).mp nested.2
    rw [found]
    exact skips_openStyle room found _
  split
  next d taken read =>
    exact .nothing ((length_addDeclaration b d).trans_le room) rfl fun f blockwise =>
      readAt_addDeclaration blockwise _ b d
  next =>
    split
    · exact .nothing room rfl fun f _ => rfl
    · exact .nothing room rfl fun f _ => rfl

theorem skips_step (room : b.stack.length ≤ cap) :
    Skips cap b ((t :: rest).take ((b.step cap last t rest).more + 1))
      (b.step cap last t rest).issues (b.step cap last t rest).builder := by
  rw [Builder.step]
  split
  · exact .nothing room rfl fun f _ => rfl
  · exact .nothing room rfl fun f _ => rfl
  · exact .nothing ((length_addComment b _).trans_le room) rfl fun f blockwise =>
      readAt_addComment blockwise _ b _
  · split
    · exact .nothing room rfl fun f _ => rfl
    · refine .nothing ?_ rfl fun f _ => readAt_close f room _ _
      rw [length_close]
      omega
  · exact skips_takeAtRule room
  · split
    · exact skips_takeEntry room
    split
    · exact .nothing room rfl fun f _ => rfl
    · exact skips_takeRule room

/-- **What a run skips.** -/
theorem skips_run (cap : Nat) (last : Position) (b : Builder) (ts : Tokens)
    (room : b.stack.length ≤ cap) : Skips cap b ts (b.run cap last ts).2 (b.run cap last ts).1 := by
  fun_induction Builder.run cap last b ts with
  | case1 b => exact .nothing room rfl fun f _ => rfl
  | case2 b t rest s done issues run ih =>
      have step : Skips cap b ((t :: rest).take (s.more + 1)) s.issues s.builder := skips_step room
      have later := ih step.bound
      rw [run] at later
      have whole := step.trans later
      rwa [List.take_succ_cons, List.cons_append, List.take_append_drop] at whole

/-- Closing all that is open leaves what is held at a level as it is, and leaves nothing open. -/
theorem closeMany_all (last : Position) (k : Nat) (open_ : b.stack.length = k) (room : k ≤ n) :
    (closeMany last k b).stack = [] ∧
      ∀ {α : Type} (f : Item → List α), (closeMany last k b).readAt f n = b.readAt f n := by
  induction k generalizing b with
  | zero => exact ⟨List.length_eq_zero_iff.mp open_, fun f => rfl⟩
  | succ k ih =>
      obtain ⟨closed, read⟩ := ih (b := b.close none last) (by rw [length_close, open_]; rfl)
        (by omega)
      exact ⟨closed, fun f => (read f).trans (readAt_close f (by omega) none last)⟩

end Builder

/-! ## Stylesheets -/

theorem filterMap_opening (items : List Item) :
    items.filterMap Item.opening? = (items.flatMap Item.braces).map Prod.fst := by
  induction items with
  | nil => rfl
  | cons item items ih =>
      rw [List.flatMap_cons, List.map_append, ← ih, Item.braces]
      cases opening : item.opening? <;> simp [opening]

theorem tooDeepAt_unclosed (cap : Nat) (stack : List Frame) :
    tooDeepAt cap (stack.map fun frame => ⟨.unclosedBlock, frame.opening⟩) = [] := by
  refine tooDeepAt_of_forall fun issue member => ?_
  obtain ⟨frame, -, rfl⟩ := List.mem_map.mp member
  nofun

/-- **What lies as deep as the cap allows**: the blocks there are empty, each one is told as too deep
at its `{`, and nothing lies inside them. -/
theorem buildItems_deep (cap : Nat) (ts : Tokens) :
    (∀ item ∈ itemsAt cap (buildItems cap ts).1, item.opening?.isSome → item.isEmpty) ∧
      itemsAt (cap + 1) (buildItems cap ts).1 = [] ∧
      (itemsAt cap (buildItems cap ts).1).filterMap Item.opening? =
        tooDeepAt cap (buildItems cap ts).2 ∧
      (tooDeepAt cap (buildItems cap ts).2).Sublist (ts.map Token.span) := by
  simp only [buildItems, Builder.finish, tooDeepAt_append, tooDeepAt_tokenIssues,
    tooDeepAt_unclosed, List.nil_append, List.append_nil]
  generalize ((ts.getLast?.map Token.span).getD (.emptyAt .start)).finish = last
  have run := Builder.skips_run cap last .empty ts (Nat.zero_le cap)
  obtain ⟨skipped, empty, openings, read⟩ := run.skipped
  obtain ⟨closed, same⟩ := Builder.closeMany_all last _ rfl run.bound
  generalize Builder.closeMany last _ (Builder.empty.run cap last ts).1 = done at closed same ⊢
  have held : ∀ {α : Type} (f : Item → List α), Blockwise f →
      (itemsAt cap done.top.reverse).flatMap f = skipped.flatMap f := by
    intro α f blockwise
    have whole := (same f).trans (read f blockwise)
    rw [Builder.readAt, closed] at whole
    simpa [heldAt, Builder.readAt, Builder.empty] using whole
  have braces := held Item.braces blockwise_braces
  refine ⟨?_, ?_, ?_, run.places⟩
  · intro item member opens
    obtain ⟨s, opening⟩ := Option.isSome_iff_exists.mp opens
    have own : (s, item.isEmpty) ∈ skipped.flatMap Item.braces := by
      rw [← braces]
      exact List.mem_flatMap.mpr ⟨item, member, by simp [Item.braces, opening]⟩
    obtain ⟨other, inSkipped, same⟩ := List.mem_flatMap.mp own
    have pair : (s, item.isEmpty) ∈ other.opening?.map (·, other.isEmpty) :=
      Option.mem_toList.mp same
    obtain ⟨s', -, eq⟩ := Option.map_eq_some_iff.mp pair
    rw [← (Prod.mk.inj eq).2]
    exact empty other inSkipped
  · rw [itemsAt_succ, held Item.children blockwise_children]
    exact List.flatMap_eq_nil_iff.mpr fun item member => Item.isEmpty_children (empty item member)
  · rw [filterMap_opening, braces, ← filterMap_opening, openings]

namespace Sheet

/-- **Stylesheets are read to the end, however broken they are.** The descent comes to the end of the
tokens with no block open, so none of its accesses is out of range, none of its counts goes below
zero and each turn of its loops comes further; what it reads are the items and the faults of the
stylesheet. Blocks inside 256 others are empty, each one is told as too deep once, at its `{`, and
nothing lies deeper. -/
theorem descends (cs : List Char) (origin : Position) :
    Descent.sheet? depthCap (tokenize cs origin) = some
      ⟨(ofText cs origin).items, (ofText cs origin).issues, ⟨(tokenize cs origin).length, 0⟩⟩ ∧
    (∀ item ∈ itemsAt depthCap (ofText cs origin).items, item.opening?.isSome → item.isEmpty) ∧
    itemsAt (depthCap + 1) (ofText cs origin).items = [] ∧
    (itemsAt depthCap (ofText cs origin).items).filterMap Item.opening? =
      tooDeepAt depthCap (ofText cs origin).issues ∧
    (tooDeepAt depthCap (ofText cs origin).issues).Nodup := by
  obtain ⟨empty, nothing, openings, places⟩ := buildItems_deep depthCap (tokenize cs origin)
  have reads : Passage.Reads ⟨cs, origin⟩ (tokenize cs origin) :=
    reads_tokenize (Passage.holds_origin ⟨cs, origin⟩)
  have tiles : Tiles origin cs (tokenize cs origin) := (run_cut scans_turn true origin cs).tiles
  refine ⟨Descent.sheet?_eq (keyed_tokenize origin), empty, nothing, openings, ?_⟩
  exact (reads.nodup_spans fun t member => tiles.offset_lt member).sublist places

end Sheet

end PageLint.Css
