/-
# PageLint.Proofs.Css.Stretches — where the items of a stylesheet begin and end

The stretch of an item runs from one place of the text to another one, and what opens a rule takes up
some of it (`Sheet.stretched`). An open block knows only what opens it, so that is what is asked of open
blocks while the stylesheet is read (`Frame.Stretched`); where a block ends is known when it is closed, by
a token, by the items in it or by the end of all tokens.

What holds of the items at the top holds of those in every list of items (`Sheet.itemsSound`): they are
laid out, one after the other.
-/
import PageLint.Proofs.Css.Constructs

namespace PageLint

set_option autoImplicit false

open Text

/-- The stretch of a part of a passage that is not empty. -/
structure Passage.Fills (g : Passage) (s : Span) : Prop where
  covers : g.Covers s
  some_ : s.start.offset < s.finish.offset

namespace Css

/-- What opens a rule: its prelude, or the `{` where it has none, or an at-keyword. -/
def Item.head? : Item → Option Span
  | .style rule => rule.prelude.or rule.block.opening
  | .atRule rule => some rule.nameSpan
  | _ => none

section Stretches

variable (g : Passage)

/-- The stretch of an item runs between places of a passage, and what opens it takes up some of it. -/
structure Item.Stretched (item : Item) : Prop where
  start : g.Marks item.span.start
  finish : g.Marks item.span.finish
  head : ∀ s ∈ item.head?, g.Fills s

/-- So do those of all items inside it, however deep. -/
def Item.AllStretched (item : Item) : Prop := ∀ n, ∀ sub ∈ itemsAt n [item], sub.Stretched g

/-- What an open block is opened by: the prelude of a rule, or an at-keyword, and the `{`. -/
def Frame.openers : Frame → List Span
  | .rules head opening _ => [head.nameSpan, opening]
  | .block (.style _ prelude _) opening _ _ _ => prelude.toList ++ [opening]
  | .block (.atRule head) opening _ _ _ => [head.nameSpan, opening]

/-- What opens a block is there, and so is all that the block contains so far. -/
structure Frame.Stretched (frame : Frame) : Prop where
  openers : ∀ s ∈ frame.openers, g.Fills s
  items : ∀ item ∈ frame.items, item.AllStretched g

/-- **What every step keeps**: all that is built so far runs between places of the passage. -/
structure Builder.Stretched (b : Builder) : Prop where
  stack : ∀ frame ∈ b.stack, frame.Stretched g
  top : ∀ item ∈ b.top, item.AllStretched g

/-- Tokens that stand in a passage, none of them empty. -/
structure Filled (ts : Tokens) : Prop where
  reads : g.Reads ts
  each : ∀ t ∈ ts, t.span.start.offset < t.span.finish.offset

end Stretches

variable {g : Passage} {item : Item} {items : List Item} {frame : Frame} {b : Builder}
  {t : Token TokenKind} {rest here ts : Tokens} {last : Position} {d : Declaration} {c : Comment}
  {s : Span} {cap : Nat}

/-! ## Items -/

theorem Item.AllStretched.own (all : item.AllStretched g) : item.Stretched g :=
  all 0 item (List.mem_singleton.mpr rfl)

theorem Item.allStretched (own : item.Stretched g)
    (children : ∀ child ∈ item.children, child.AllStretched g) : item.AllStretched g := by
  intro n sub member
  cases n with
  | zero => rwa [List.mem_singleton.mp member]
  | succ n =>
      rw [itemsAt_singleton] at member
      obtain ⟨child, isChild, inside⟩ := mem_itemsAt.mp member
      exact children child isChild n sub inside

theorem Item.AllStretched.children (all : item.AllStretched g) :
    ∀ child ∈ item.children, child.AllStretched g := by
  intro child member n sub inside
  refine all (n + 1) sub ?_
  rw [itemsAt_singleton]
  exact mem_itemsAt.mpr ⟨child, member, inside⟩

theorem marks_join {s t : Span} (here : g.Marks s.start ∧ g.Marks s.finish)
    (there : g.Marks t.start ∧ g.Marks t.finish) :
    g.Marks (s.join t).start ∧ g.Marks (s.join t).finish := by
  constructor
  · rcases Position.earlier_eq_or s.start t.start with eq | eq <;> rw [Span.join, eq]
    · exact here.1
    · exact there.1
  · rcases Position.later_eq_or s.finish t.finish with eq | eq <;> rw [Span.join, eq]
    · exact here.2
    · exact there.2

/-- An item without a head has the stretch of what it is made of. -/
theorem stretched_declarations {block : Block Item} (start : g.Marks block.span.start)
    (finish : g.Marks block.span.finish) (flat : ∀ child ∈ block.nested, child.AllStretched g) :
    (Item.declarations block).AllStretched g :=
  Item.allStretched ⟨start, finish, nofun⟩ flat

/-- An at-rule runs from its keyword to wherever it ends. -/
theorem AtHead.stretched {head : AtHead} {body : Body Item} {finish : Position}
    (name : g.Fills head.nameSpan) (ends : g.Marks finish)
    (inside : ∀ child ∈ (Item.atRule (head.toRule body finish)).children, child.AllStretched g) :
    (Item.atRule (head.toRule body finish)).AllStretched g := by
  refine Item.allStretched ⟨name.covers.start, ends, ?_⟩ inside
  rintro s ⟨⟩
  exact name

/-- **A block that is closed** runs from what opens it to a place. -/
theorem Frame.Stretched.close (own : frame.Stretched g) {closing : Option Span}
    (ends : ∀ s ∈ closing, g.Fills s) (atEnd : g.Marks last) :
    (frame.close closing last).AllStretched g := by
  obtain ⟨openers, items⟩ := own
  have inside : ∀ child ∈ (frame.close closing last).children, child.AllStretched g := by
    rw [Builder.children_close]
    exact fun child member => items child (List.mem_reverse.mp member)
  cases frame with
  | rules head opening held =>
      refine AtHead.stretched (openers head.nameSpan (by simp [Frame.openers])) ?_ inside
      cases closing with
      | some s => exact (ends s rfl).covers.finish
      | none =>
          cases held with
          | nil => exact (openers opening (by simp [Frame.openers])).covers.finish
          | cons item held => exact (items item List.mem_cons_self).own.finish
  | block owner opening declarations comments nested =>
      have finish : g.Marks ((closing.map Span.finish).getD last) := by
        cases closing with
        | some s => exact (ends s rfl).covers.finish
        | none => exact atEnd
      cases owner with
      | atRule head => exact AtHead.stretched (openers head.nameSpan (by simp [Frame.openers])) finish inside
      | style selectors prelude keyframe =>
          have brace : g.Fills opening := openers opening (by simp [Frame.openers])
          refine Item.allStretched ?_ inside
          cases prelude with
          | none =>
              refine ⟨brace.covers.start, finish, ?_⟩
              rintro s ⟨⟩
              exact brace
          | some p =>
              have before : g.Fills p := openers p (by simp [Frame.openers])
              obtain ⟨start, finish⟩ := marks_join ⟨before.covers.start, before.covers.finish⟩
                (t := ⟨opening.start, (closing.map Span.finish).getD last⟩) ⟨brace.covers.start, finish⟩
              refine ⟨start, finish, ?_⟩
              rintro s ⟨⟩
              exact before

/-! ## Tokens -/

namespace Filled

theorem sublist (filled : Filled g ts) (fewer : here.Sublist ts) : Filled g here :=
  ⟨filled.reads.sublist fewer, fun t member => filled.each t (fewer.subset member)⟩

theorem fills (filled : Filled g ts) (member : t ∈ ts) : g.Fills t.span :=
  ⟨filled.reads.covers member, filled.each t member⟩

theorem fills_spanOf? (filled : Filled g ts) (span : spanOf? ts = some s) : g.Fills s := by
  refine ⟨filled.reads.covers_spanOf? span, ?_⟩
  cases ts with
  | nil => cases span
  | cons first later =>
      have last := List.getLast?_eq_some_getLast (List.cons_ne_nil first later)
      rw [spanOf?, List.head?_cons, last] at span
      obtain rfl := Option.some.inj span
      exact (filled.each first List.mem_cons_self).trans_le
        (filled.reads.finish_le (List.getLast_mem (List.cons_ne_nil first later)))

theorem trimmed (filled : Filled g ts) (n : Nat) : Filled g (trimTrivia (ts.take n)) :=
  filled.sublist ((trimTrivia_sublist _).trans (List.take_sublist _ _))

theorem getElem (filled : Filled g (t :: rest)) (n : Nat) :
    g.Fills ((((t :: rest)[n]?).map Token.span).getD t.span) := by
  cases found : (t :: rest)[n]? with
  | none => exact filled.fills List.mem_cons_self
  | some u => exact filled.fills (List.mem_of_getElem? found)

theorem blockExtent (filled : Filled g ts) : ∀ s ∈ (blockExtent 0 ts).2, g.Fills s := by
  intro s found
  obtain ⟨t, member, rfl⟩ := (blockExtent_ends 0 ts).1 s found
  exact filled.fills (List.mem_of_mem_take member)

end Filled

/-! ## Steps -/

namespace Builder

theorem stretched_empty : Builder.empty.Stretched g := ⟨by simp [empty], by simp [empty]⟩

theorem Stretched.addItem (all : b.Stretched g) (own : item.AllStretched g) :
    (b.addItem item).Stretched g := by
  obtain ⟨stack, top⟩ := all
  rw [Builder.addItem]
  split
  next => exact ⟨stack, List.forall_mem_cons.mpr ⟨own, top⟩⟩
  next head opening items outer held =>
    rw [held, List.forall_mem_cons] at stack
    exact ⟨List.forall_mem_cons.mpr
      ⟨⟨stack.1.openers, List.forall_mem_cons.mpr ⟨own, stack.1.items⟩⟩, stack.2⟩, top⟩
  next owner opening declarations comments nested outer held =>
    rw [held, List.forall_mem_cons] at stack
    obtain ⟨⟨openers, items⟩, outer⟩ := stack
    refine ⟨List.forall_mem_cons.mpr ⟨⟨?_, List.forall_mem_cons.mpr ⟨own, items⟩⟩, outer⟩, top⟩
    cases owner <;> exact openers

theorem Stretched.addComment (all : b.Stretched g) (covers : g.Covers c.span) :
    (b.addComment c).Stretched g := by
  rw [Builder.addComment]
  split
  next owner opening declarations comments nested outer held =>
    obtain ⟨stack, top⟩ := all
    rw [held, List.forall_mem_cons] at stack
    obtain ⟨⟨openers, items⟩, outer⟩ := stack
    refine ⟨List.forall_mem_cons.mpr ⟨⟨?_, items⟩, outer⟩, top⟩
    cases owner <;> exact openers
  next =>
    have own : (Item.comment c).Stretched g := ⟨covers.start, covers.finish, by simp [Item.head?]⟩
    exact all.addItem (Item.allStretched own (by simp [Item.children]))

theorem stretched_addBare (all : ∀ item ∈ items, item.AllStretched g) (covers : g.Covers d.span) :
    ∀ item ∈ addBare d items, item.AllStretched g := by
  rw [addBare.eq_def]
  split
  next block items =>
    obtain ⟨first, others⟩ := List.forall_mem_cons.mp all
    obtain ⟨start, finish⟩ := marks_join ⟨first.own.start, first.own.finish⟩
      ⟨covers.start, covers.finish⟩
    exact List.forall_mem_cons.mpr ⟨stretched_declarations start finish first.children, others⟩
  next =>
    exact List.forall_mem_cons.mpr
      ⟨stretched_declarations covers.start covers.finish (by simp), all⟩

theorem Stretched.addDeclaration (all : b.Stretched g) (covers : g.Covers d.span) :
    (b.addDeclaration d).Stretched g := by
  obtain ⟨stack, top⟩ := all
  rw [Builder.addDeclaration]
  split
  next => exact ⟨stack, stretched_addBare top covers⟩
  next head opening items outer held =>
    rw [held, List.forall_mem_cons] at stack
    exact ⟨List.forall_mem_cons.mpr
      ⟨⟨stack.1.openers, stretched_addBare stack.1.items covers⟩, stack.2⟩, top⟩
  next owner opening declarations comments nested outer held =>
    rw [held, List.forall_mem_cons] at stack
    obtain ⟨⟨openers, items⟩, outer⟩ := stack
    refine ⟨List.forall_mem_cons.mpr ⟨⟨?_, items⟩, outer⟩, top⟩
    cases owner <;> exact openers

theorem Stretched.close (all : b.Stretched g) {closing : Option Span} (ends : ∀ s ∈ closing, g.Fills s)
    (atEnd : g.Marks last) : (b.close closing last).Stretched g := by
  rw [Builder.close]
  split
  next => exact all
  next frame outer held =>
    obtain ⟨stack, top⟩ := all
    rw [held, List.forall_mem_cons] at stack
    exact Stretched.addItem ⟨stack.2, top⟩ (stack.1.close ends atEnd)

theorem Stretched.openBlock (all : b.Stretched g) (own : frame.Stretched g) (filled : Filled g here)
    (atEnd : g.Marks last) : (b.openBlock cap last frame here).builder.Stretched g := by
  simp only [Builder.openBlock]
  split
  · refine all.addItem ?_
    cases frame with
    | rules head opening held =>
        refine AtHead.stretched (own.openers head.nameSpan (by simp [Frame.openers])) ?_
          (by simp [Item.children, AtHead.toRule])
        cases closing : (blockExtent 0 here).2 with
        | none => exact atEnd
        | some s => exact (filled.blockExtent s closing).covers.finish
    | block owner opening declarations comments nested => exact own.close filled.blockExtent atEnd
  · exact ⟨List.forall_mem_cons.mpr ⟨own, all.stack⟩, all.top⟩

theorem Stretched.openStyle (all : b.Stretched g) (filled : Filled g here) (brace : g.Fills s)
    (atEnd : g.Marks last) (keyframe : Bool) (n : Nat) :
    (b.openStyle cap last keyframe n s here).builder.Stretched g := by
  refine all.openBlock ⟨?_, by simp [Frame.items]⟩ (filled.sublist (List.drop_sublist _ _)) atEnd
  refine List.forall_mem_append.mpr ⟨fun p isPrelude => ?_, List.forall_mem_singleton.mpr brace⟩
  exact (filled.trimmed n).fills_spanOf? (Option.mem_toList.mp isPrelude)

theorem Stretched.takeAtRule (all : b.Stretched g) (filled : Filled g (t :: rest))
    (atEnd : g.Marks last) : (b.takeAtRule cap last t rest).builder.Stretched g := by
  have name := filled.fills List.mem_cons_self
  have later := filled.sublist (List.sublist_cons_self t rest)
  have statement : ∀ finish, g.Marks finish → (Item.atRule (AtHead.toRule
      (.ofTokens t (rest.take (preludeExtent 0 rest))) .statement finish)).AllStretched g :=
    fun finish ends => AtHead.stretched name ends (by simp [Item.children, AtHead.toRule])
  have broken : g.Marks (AtHead.finish (.ofTokens t (rest.take (preludeExtent 0 rest)))) := by
    rw [AtHead.finish, AtHead.ofTokens]
    cases found : spanOf? (trimTrivia (rest.take (preludeExtent 0 rest))) with
    | none => exact name.covers.finish
    | some s => exact ((later.trimmed _).fills_spanOf? found).covers.finish
  simp only [Builder.takeAtRule]
  split
  next => exact all.addItem (statement _ broken)
  next e found =>
    have ending := later.fills (List.mem_of_getElem? found)
    split
    · exact all.addItem (statement _ ending.covers.finish)
    split
    · refine all.openBlock ?_ (later.sublist (List.drop_sublist _ _)) atEnd
      split
      · exact ⟨by simp [Frame.openers, name, ending], by simp [Frame.items]⟩
      · exact ⟨by simp [Frame.openers, name, ending], by simp [Frame.items]⟩
    · exact all.addItem (statement _ broken)

theorem Stretched.takeRule (all : b.Stretched g) (filled : Filled g (t :: rest))
    (atEnd : g.Marks last) : (b.takeRule cap last t rest).builder.Stretched g := by
  simp only [Builder.takeRule]
  split
  · exact all.openStyle filled (filled.getElem _) atEnd _ _
  split
  next d taken read => exact all.addDeclaration (read?_placed filled.reads read).span
  next =>
    split
    · exact all
    · exact all

theorem Stretched.takeEntry (all : b.Stretched g) (filled : Filled g (t :: rest))
    (atEnd : g.Marks last) : (b.takeEntry cap last t rest).builder.Stretched g := by
  simp only [Builder.takeEntry]
  split
  · exact all.openStyle filled (filled.getElem _) atEnd _ _
  split
  next d taken read => exact all.addDeclaration (read?_placed filled.reads read).span
  next =>
    split
    · exact all
    · exact all

theorem step_stretched (all : b.Stretched g) (filled : Filled g (t :: rest)) (atEnd : g.Marks last) :
    (b.step cap last t rest).builder.Stretched g := by
  have own := filled.fills List.mem_cons_self
  rw [Builder.step]
  split
  · exact all
  · exact all
  · exact all.addComment own.covers
  · split
    · exact all
    · refine all.close ?_ atEnd
      rintro s ⟨⟩
      exact own
  · exact all.takeAtRule filled atEnd
  · split
    · exact all.takeEntry filled atEnd
    split
    · exact all
    · exact all.takeRule filled atEnd

/-- **What a run keeps.** -/
theorem run_stretched (cap : Nat) (b : Builder) (ts : Tokens) (all : b.Stretched g)
    (filled : Filled g ts) (atEnd : g.Marks last) : (b.run cap last ts).1.Stretched g := by
  fun_induction Builder.run cap last b ts with
  | case1 b => exact all
  | case2 b t rest s done issues run ih =>
      have later := ih (step_stretched all filled atEnd) <|
        filled.sublist ((List.drop_sublist _ _).trans (List.sublist_cons_self _ _))
      rwa [run] at later

theorem closeMany_stretched (n : Nat) (all : b.Stretched g) (atEnd : g.Marks last) :
    (closeMany last n b).Stretched g := by
  induction n generalizing b with
  | zero => exact all
  | succ n ih => exact ih (all.close nofun atEnd)

end Builder

/-! ## Stylesheets -/

theorem filled_tokenize (cs : List Char) : Filled (.whole cs) (tokenize cs .start) where
  reads := (Sheet.spells_tokenize cs).reads
  each _ member := (run_cut scans_turn true .start cs).tiles.offset_lt member

/-- **Items run between places of the text**, and what opens a rule takes up some of it. -/
theorem Sheet.stretched (cs : List Char) :
    ∀ item ∈ (Sheet.ofText cs .start).items, item.AllStretched (.whole cs) := by
  have filled := filled_tokenize cs
  have atEnd : (Passage.whole cs).Marks
      (((tokenize cs .start).getLast?.map Token.span).getD (.emptyAt .start)).finish := by
    cases final : (tokenize cs .start).getLast? with
    | none => exact (Passage.holds_origin _).marks
    | some t => exact (filled.reads.covers (List.mem_of_getLast? final)).finish
  have run := Builder.run_stretched depthCap .empty _ Builder.stretched_empty filled atEnd
  intro item member
  exact (Builder.closeMany_stretched _ run atEnd).top item (List.mem_reverse.mp member)

/-! ## Lists of items -/

/-- An item is laid out and runs between places of its text, and so do all items inside it. -/
structure Item.Sound (cs : List Char) (item : Item) : Prop where
  laid : item.AllLaid ⟨cs⟩
  stretched : item.AllStretched (.whole cs)

theorem Item.Sound.children {cs : List Char} (sound : item.Sound cs) :
    ∀ child ∈ item.children, child.Sound cs :=
  fun child member => ⟨sound.laid.children child member, sound.stretched.children child member⟩

/-- The stretch of an item takes in what opens it. -/
theorem Item.Laid.contains_head {src : Source} (laid : item.Laid src) :
    ∀ s ∈ item.head?, item.span.contains s := by
  intro s found
  cases item with
  | style rule =>
      have rule_ : rule.Laid src := laid
      rcases Option.or_eq_some_iff.mp found with prelude | ⟨-, opening⟩
      · exact rule_.inside s (by simp [prelude])
      · have block := span_contains_iff.mp (rule_.inside rule.block.span (by simp))
        have inBlock := span_contains_iff.mp (rule_.block.inside s (by simp [opening]))
        exact span_contains_iff.mpr ⟨block.1.trans inBlock.1, inBlock.2.trans block.2⟩
  | atRule rule =>
      have rule_ : rule.Laid src := laid
      obtain rfl := Option.some.inj found
      exact rule_.inside rule.nameSpan List.mem_cons_self
  | declarations block => cases found
  | comment c => cases found

/-- What a piece holds of items is sound, and in a list the items come one after the other. -/
def ItemsSound (cs : List Char) : Subject → Prop
  | .cssRuleList items _ => InOrder (items.map Item.span) ∧ ∀ item ∈ items, item.Sound cs
  | .cssStyleRule rule => (Item.style rule).Sound cs
  | .cssAtRule rule => (Item.atRule rule).Sound cs
  | .cssBlock block => ∀ item ∈ block.nested, item.Sound cs
  | _ => True

variable {cs : List Char}

theorem itemsSound_subject (sound : item.Sound cs) : ItemsSound cs item.subject := by
  cases item with
  | style rule => exact sound
  | atRule rule => exact sound
  | declarations block => exact sound.children
  | comment c => trivial

/-- Where a list of items follows the head of an at-rule, the items come one after the other. -/
theorem AtRule.Laid.items_inOrder {src : Source} {rule : AtRule Item} (laid : rule.Laid src)
    {opening : Span} {closing : Option Span} (body : rule.body = .rules opening closing items) :
    InOrder (items.map Item.span) := by
  have order := laid.order
  rw [body] at order
  refine order.sublist (.cons _ ((List.Sublist.cons _ ?_).trans (List.sublist_append_right _ _)))
  exact List.sublist_append_left _ _

/-- **What a piece keeps its parts keep.** -/
theorem ItemsSound.parts (s : Subject) (sound : ItemsSound cs s) :
    ∀ part ∈ s.parts, ItemsSound cs part := by
  intro part member
  cases s with
  | cssRuleList items parent =>
      obtain ⟨item, found, rfl⟩ := List.mem_map.mp member
      exact itemsSound_subject (sound.2 item found)
  | cssStyleRule rule =>
      obtain rfl := List.mem_singleton.mp member
      have rule_ : (Item.style rule).Sound cs := sound
      exact rule_.children
  | cssAtRule rule =>
      have rule_ : (Item.atRule rule).Sound cs := sound
      have children := rule_.children
      rw [Subject.parts] at member
      split at member
      next => cases member
      next block body =>
        obtain rfl := List.mem_singleton.mp member
        rw [Item.children, body] at children
        exact children
      next opening closing items body =>
        obtain rfl := List.mem_singleton.mp member
        rw [Item.children, body] at children
        exact ⟨AtRule.Laid.items_inOrder rule_.laid.own body, children⟩
  | cssBlock block =>
      simp only [Subject.parts, List.mem_append, List.mem_map] at member
      rcases member with (⟨d, -, rfl⟩ | ⟨c, -, rfl⟩) | ⟨item, found, rfl⟩
      · trivial
      · trivial
      · exact itemsSound_subject (sound item found)
  | _ => cases member

/-- **The items of a list lie one after the other**, wherever the list stands in a stylesheet. -/
theorem Sheet.itemsSound (cs : List Char) :
    ∀ s ∈ (Sheet.ofText cs .start).subjects, ItemsSound cs s := by
  have row := row_ofText cs
  have order := row.order.inOrder
  rw [List.reverse_reverse] at order
  have top : ItemsSound cs (.cssRuleList (Sheet.ofText cs .start).items none) :=
    ⟨order, fun item member =>
      ⟨row.laid item (List.mem_reverse.mpr member), stretched cs item member⟩⟩
  exact (visits_items (fun item _ => visits_item item) none).forall ItemsSound.parts top

end Css

end PageLint
