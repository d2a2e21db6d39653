/-
# PageLint.Proofs.Css.Nesting — stylesheets are laid out

What the builder holds grows from left to right. Up to some offset, the items that are complete and
the blocks that are open lie one after the other: an open block begins after all that the block
around it contains so far (`Held`). An operation that is given something from there on moves the
offset on, and a step moves it to the end of the tokens that it takes (`Past`).

A block ends at its `}`, or else where the tokens end; a block of rules without `}` ends with its
last item, and one past the cap with the tokens. All of these are at or after the offset
that has been reached, so what is closed takes in all that it contains. A stylesheet is therefore
laid out, however broken it is (`Sheet.laid_out`).
-/
import PageLint.Proofs.Css.Layout

namespace PageLint.Css

set_option autoImplicit false

open Text

/-! ## What is built so far -/

section Held

variable (src : Source)

/-- Items, last first, that lie one after the other between two offsets. If declarations come last,
so does the `;` after them. -/
structure Row (low high : Nat) (items : List Item) : Prop where
  laid : ∀ item ∈ items, item.AllLaid src
  order : Between low high (items.reverse.map Item.span)
  semicolon : ∀ block, items.head? = some (.declarations block) →
    ∀ d ∈ block.declarations, d.reach.finish.offset ≤ high

/-- The entries of a block, each kind last first, that lie one after the other between two
offsets. -/
structure Entries (low high : Nat) (declarations : List Declaration) (comments : List Comment)
    (nested : List Item) : Prop where
  laid : ∀ d ∈ declarations, d.Laid src
  spelled : ∀ c ∈ comments, src.slice c.span = c.text
  inside : ∀ item ∈ nested, item.AllLaid src
  order : ∃ entries, Weave entries (declarations.reverse.map Declaration.reach)
    (comments.reverse.map Comment.span) (nested.reverse.map Item.span) ∧ Between low high entries

/-- What a block belongs to is laid out, and its `{` comes after that. -/
def Owner.Laid (opening : Span) : Owner → Prop
  | .style selectors prelude _ =>
    (∀ s ∈ selectors, src.slice s.span = s.text) ∧ InOrder (selectors.map Selector.span) ∧
      (∀ s ∈ selectors, ∃ p ∈ prelude, p.contains s.span) ∧ InOrder (prelude.toList ++ [opening])
  | .atRule head => head.Laid src [opening]

/-- An open block is laid out up to an offset. -/
def Frame.Laid (high : Nat) : Frame → Prop
  | .rules head opening items => head.Laid src [opening] ∧ Row src opening.finish.offset high items
  | .block owner opening declarations comments nested =>
    owner.Laid src opening ∧ Entries src opening.finish.offset high declarations comments nested

/-- Where a block begins, with what it belongs to. -/
def Owner.start (opening : Span) : Owner → Position
  | .style _ prelude _ => (prelude.getD opening).start
  | .atRule head => head.nameSpan.start

/-- Where an open block begins, with what it belongs to. -/
def Frame.start : Frame → Position
  | .rules head _ _ => head.nameSpan.start
  | .block owner opening _ _ _ => owner.start opening

/-- Open blocks, innermost first, and the items outside all of them are laid out up to an offset:
each block begins after all that the next one contains so far. -/
def Held (top : List Item) (high : Nat) : List Frame → Prop
  | [] => Row src 0 high top
  | frame :: outer => frame.Laid src high ∧ Held top frame.start.offset outer

/-- **What every step keeps**: all that is built so far is laid out up to an offset. -/
def Builder.Laid (high : Nat) (b : Builder) : Prop := Held src b.top high b.stack

end Held

variable {src : Source} {low high next : Nat} {items nested : List Item} {item : Item}
  {declarations : List Declaration} {comments : List Comment} {d : Declaration} {c : Comment}
  {opening : Span} {closing : Option Span} {last finish : Position}

/-! ## Rows and entries -/

theorem Item.AllLaid.own (laid : item.AllLaid src) : item.Laid src :=
  laid 0 item (List.mem_singleton.mpr rfl)

theorem Item.allLaid (own : item.Laid src) (children : ∀ child ∈ item.children, child.AllLaid src) :
    item.AllLaid src := by
  intro n sub member
  cases n with
  | zero => rwa [List.mem_singleton.mp member]
  | succ n =>
      rw [itemsAt_singleton] at member
      obtain ⟨child, isChild, inside⟩ := mem_itemsAt.mp member
      exact children child isChild n sub inside

namespace Row

theorem nil (le : low ≤ high) : Row src low high [] := ⟨by simp, between_nil le, by simp⟩

theorem mono (row : Row src low high items) (le : high ≤ next) : Row src low next items where
  laid := row.laid
  order := row.order.mono le
  semicolon block last d member := (row.semicolon block last d member).trans le

theorem cons (row : Row src low high items) (laid : item.AllLaid src)
    (whole : ∀ block, item ≠ .declarations block) (after : high ≤ item.span.start.offset)
    (forward : item.span.start.offset ≤ item.span.finish.offset) :
    Row src low item.span.finish.offset (item :: items) where
  laid := List.forall_mem_cons.mpr ⟨laid, row.laid⟩
  order := by
    rw [List.reverse_cons, List.map_append]
    exact row.order.concat after forward
  semicolon block last := absurd (Option.some.inj last) (whole block)

theorem bareLaid_singleton (laid : d.Laid src) :
    Block.BareLaid src ⟨none, none, [d], [], [], d.span⟩ where
  bare := ⟨rfl, rfl, rfl, rfl⟩
  declarations := List.forall_mem_singleton.mpr laid
  order := inOrder_singleton.mpr laid.reach_forward
  inside := List.forall_mem_singleton.mpr (span_contains_iff.mpr ⟨Nat.le_refl _, Nat.le_refl _⟩)

/-- A declaration comes into the block before it, or is one of its own. -/
theorem addBare (row : Row src low high items) (laid : d.Laid src)
    (after : high ≤ d.reach.start.offset) :
    Row src low d.reach.finish.offset (Builder.addBare d items) := by
  have forward := laid.forward
  have ends := laid.finish_le
  rw [Builder.addBare.eq_def]
  split
  next block items =>
    obtain ⟨own, others⟩ := List.forall_mem_cons.mp row.laid
    have bare : block.BareLaid src := own.own
    have order := row.order
    rw [List.reverse_cons, List.map_append] at order
    obtain ⟨begins, reached⟩ := order.within block.span (by simp [Item.span])
    have whole : block.span.start.offset ≤ block.span.finish.offset :=
      order.inOrder.forward block.span (by simp [Item.span])
    have later : block.span.finish.offset ≤ d.span.start.offset := reached.trans after
    have starts : block.span.start.offset ≤ d.span.start.offset := whole.trans later
    have joined : (block.span.join d.span).start.offset = block.span.start.offset ∧
        (block.span.join d.span).finish.offset = d.span.finish.offset := by
      simp only [Span.join, Position.offset_earlier, Position.offset_later]
      omega
    have semicolon := row.semicolon block rfl
    refine ⟨List.forall_mem_cons.mpr ⟨Item.allLaid ⟨bare.bare, ?_, ?_, ?_⟩ ?_, others⟩, ?_, ?_⟩
    · exact List.forall_mem_append.mpr ⟨bare.declarations, List.forall_mem_singleton.mpr laid⟩
    · rw [List.map_append]
      refine inOrder_append.mpr ⟨bare.order, inOrder_singleton.mpr laid.reach_forward, ?_⟩
      refine List.forall_mem_map.mpr fun e member => List.forall_mem_singleton.mpr ?_
      exact (semicolon e member).trans after
    · have contains : ∀ s : Span, block.span.start.offset ≤ s.start.offset →
          s.finish.offset ≤ d.span.finish.offset → (block.span.join d.span).contains s :=
        fun s _ _ => span_contains_iff.mpr ⟨by omega, by omega⟩
      refine List.forall_mem_append.mpr ⟨fun e member => ?_, List.forall_mem_singleton.mpr ?_⟩
      · obtain ⟨low, high⟩ := span_contains_iff.mp (bare.inside e member)
        exact contains _ low (by omega)
      · exact contains _ starts (Nat.le_refl _)
    · intro child member
      rw [Item.children, bare.bare.2.2.2] at member
      cases member
    · rw [List.reverse_cons, List.map_append]
      have grown := order.init.concat (s := block.span.join d.span) joined.1.ge (by omega)
      exact grown.mono (by omega)
    · intro grown same e member
      obtain rfl := Item.declarations.inj (Option.some.inj same)
      rcases List.mem_append.mp member with earlier | own
      · have reached := semicolon e earlier
        have reach := laid.reach_forward
        omega
      · rw [List.mem_singleton.mp own]
  next =>
    refine ⟨List.forall_mem_cons.mpr ⟨Item.allLaid (bareLaid_singleton laid) (by simp [Item.children]),
      row.laid⟩, ?_, ?_⟩
    · rw [List.reverse_cons, List.map_append]
      exact (row.order.concat (s := d.span) after forward).mono ends
    · intro own same e member
      obtain rfl := Item.declarations.inj (Option.some.inj same)
      rw [List.mem_singleton.mp member]

end Row

/-! ### Weaving -/

theorem Weave.mem {all a b c : List Span} (weave : Weave all a b c) {s : Span}
    (member : s ∈ a ++ (b ++ c)) : s ∈ all := by
  induction weave with
  | nil => exact member
  | first _ ih | second _ ih | third _ ih =>
      simp only [List.mem_append, List.mem_singleton] at member ih ⊢
      tauto

namespace Entries

theorem nil (le : low ≤ high) : Entries src low high [] [] [] :=
  ⟨by simp, by simp, by simp, [], .nil, between_nil le⟩

theorem mono (entries : Entries src low high declarations comments nested) (le : high ≤ next) :
    Entries src low next declarations comments nested where
  laid := entries.laid
  spelled := entries.spelled
  inside := entries.inside
  order := by
    obtain ⟨all, weave, between⟩ := entries.order
    exact ⟨all, weave, between.mono le⟩

theorem declare (entries : Entries src low high declarations comments nested)
    (laid : d.Laid src) (after : high ≤ d.reach.start.offset) :
    Entries src low d.reach.finish.offset (d :: declarations) comments nested where
  laid := List.forall_mem_cons.mpr ⟨laid, entries.laid⟩
  spelled := entries.spelled
  inside := entries.inside
  order := by
    obtain ⟨all, weave, between⟩ := entries.order
    rw [List.reverse_cons, List.map_append]
    exact ⟨_, weave.first, between.concat after laid.reach_forward⟩

theorem annotate (entries : Entries src low high declarations comments nested)
    (spelled : src.slice c.span = c.text) (after : high ≤ c.span.start.offset)
    (forward : c.span.start.offset ≤ c.span.finish.offset) :
    Entries src low c.span.finish.offset declarations (c :: comments) nested where
  laid := entries.laid
  spelled := List.forall_mem_cons.mpr ⟨spelled, entries.spelled⟩
  inside := entries.inside
  order := by
    obtain ⟨all, weave, between⟩ := entries.order
    rw [List.reverse_cons, List.map_append]
    exact ⟨_, weave.second, between.concat after forward⟩

theorem nest (entries : Entries src low high declarations comments nested)
    (laid : item.AllLaid src) (after : high ≤ item.span.start.offset)
    (forward : item.span.start.offset ≤ item.span.finish.offset) :
    Entries src low item.span.finish.offset declarations comments (item :: nested) where
  laid := entries.laid
  spelled := entries.spelled
  inside := List.forall_mem_cons.mpr ⟨laid, entries.inside⟩
  order := by
    obtain ⟨all, weave, between⟩ := entries.order
    rw [List.reverse_cons, List.map_append]
    exact ⟨_, weave.third, between.concat after forward⟩

end Entries

/-! ## What is closed -/

/-- A block that is laid out up to an offset may end there: at its `}`, which comes from there on,
or else where the tokens end. -/
structure Closes (high : Nat) (closing : Option Span) (last : Position) : Prop where
  after : ∀ s ∈ closing, high ≤ s.start.offset ∧ s.start.offset ≤ s.finish.offset
  unclosed : closing = none → high ≤ last.offset

namespace Closes

variable {front spans : List Span}

/-- All that comes before the end, and the `}`, comes before the place where the block ends. -/
theorem reached (closes : Closes high closing last) :
    high ≤ ((closing.map Span.finish).getD last).offset ∧
      ∀ s ∈ closing, s.finish.offset ≤ ((closing.map Span.finish).getD last).offset := by
  cases closing with
  | none => exact ⟨closes.unclosed rfl, by simp⟩
  | some s =>
      obtain ⟨begins, forward⟩ := closes.after s rfl
      exact ⟨begins.trans forward, by simp⟩

/-- What stands before a block, its `{`, what it contains and its `}` are in order. -/
theorem around (closes : Closes high closing last) (before : InOrder (front ++ [opening]))
    (between : Between opening.finish.offset high spans) :
    InOrder (front ++ (opening :: (spans ++ closing.toList))) := by
  have ending : InOrder closing.toList := by
    cases closing with
    | none => exact inOrder_nil
    | some s => exact inOrder_singleton.mpr (closes.after s rfl).2
  have whole := between.around before ending
    (fun s member => before.finish_le_getLast (by simp) member)
    (fun s member => (closes.after s (Option.mem_toList.mp member)).1)
  simpa using whole

end Closes

namespace AtHead

variable {head : AtHead} {after : List Span} {body : Body Item}

theorem Laid.toRule (laid : head.Laid src after) (order : InOrder (head.spans ++ body.spans))
    (bound : ∀ s ∈ head.spans ++ body.spans, s.finish.offset ≤ finish.offset)
    (block : ∀ block, body = .declarations block → block.Laid src) :
    (head.toRule body finish).Laid src where
  name := laid.name
  prelude := laid.prelude
  order := order
  inside := order.contains_through bound
  block := block

/-- An at-rule without a block. -/
theorem Laid.statement (laid : head.Laid src after)
    (bound : ∀ s ∈ head.spans, s.finish.offset ≤ finish.offset) :
    (Item.atRule (head.toRule .statement finish)).AllLaid src := by
  refine Item.allLaid (laid.toRule ?_ ?_ (by simp)) (by simp [Item.children, AtHead.toRule])
  · simpa [Body.spans] using (inOrder_append.mp laid.order).1
  · simpa [Body.spans] using bound

/-- An at-rule with items in it. -/
theorem Laid.rules (laid : head.Laid src [opening]) (row : Row src opening.finish.offset high items)
    (closes : Closes high closing last)
    (bound : ∀ s ∈ opening :: (items.reverse.map Item.span ++ closing.toList),
      s.finish.offset ≤ finish.offset) :
    (Item.atRule (head.toRule (.rules opening closing items.reverse) finish)).AllLaid src := by
  refine Item.allLaid (laid.toRule (closes.around laid.order row.order) ?_ (by simp)) ?_
  · refine List.forall_mem_append.mpr ⟨fun s member => ?_, bound⟩
    have before : s.finish.offset ≤ opening.finish.offset :=
      laid.order.finish_le_getLast (by simp) (List.mem_append_left _ member)
    exact before.trans (bound opening List.mem_cons_self)
  · exact fun child member => row.laid child (List.mem_reverse.mp member)

end AtHead

/-- A block with its entries in it. -/
theorem Entries.block (entries : Entries src opening.finish.offset high declarations comments nested)
    (closes : Closes high closing last)
    (forward : opening.start.offset ≤ opening.finish.offset) :
    Block.Laid src ⟨some opening, closing, declarations.reverse, comments.reverse, nested.reverse,
      ⟨opening.start, (closing.map Span.finish).getD last⟩⟩ := by
  obtain ⟨all, weave, between⟩ := entries.order
  have before : InOrder ([] ++ [opening]) := inOrder_singleton.mpr forward
  have order : InOrder (opening :: (all ++ closing.toList)) := closes.around before between
  obtain ⟨reached, closed⟩ := closes.reached
  have contains := order.contains_through (p := (closing.map Span.finish).getD last) <| by
    refine List.forall_mem_cons.mpr ⟨between.room.trans reached, ?_⟩
    refine List.forall_mem_append.mpr ⟨fun s member => ?_, fun s member => ?_⟩
    · exact (between.within s member).2.trans reached
    · exact closed s (Option.mem_toList.mp member)
  refine ⟨?_, ?_, ⟨all, weave, order⟩, ?_⟩
  · exact fun d member => entries.laid d (List.mem_reverse.mp member)
  · exact fun c member => entries.spelled c (List.mem_reverse.mp member)
  · intro s member
    refine contains s ?_
    have inside := weave.mem (s := s)
    simp only [Option.toList_some, List.singleton_append, List.mem_cons, List.mem_append]
      at member inside ⊢
    tauto

namespace Owner

variable {owner : Owner} {block : Block Item}

/-- The item that a block completes is laid out, and goes from what the block belongs to to the
end of the block. -/
theorem Laid.toItem (laid : owner.Laid src opening) (inside : block.Laid src)
    (nested : ∀ item ∈ block.nested, item.AllLaid src) (begins : block.span.start = opening.start)
    (forward : opening.start.offset ≤ block.span.finish.offset) :
    (owner.toItem block).AllLaid src ∧
      (owner.toItem block).span.start.offset = (owner.start opening).offset ∧
      (owner.toItem block).span.finish.offset = block.span.finish.offset := by
  rw [← begins] at forward
  cases owner with
  | style selectors prelude keyframe =>
      obtain ⟨spelled, ordered, inPrelude, order⟩ := laid
      have order := order.replace (t := block.span) (by rw [begins]) forward
      have stretch : ((prelude.map (·.join block.span)).getD block.span).start.offset =
            (prelude.getD opening).start.offset ∧
          ((prelude.map (·.join block.span)).getD block.span).finish.offset =
            block.span.finish.offset ∧
          ∀ s ∈ prelude.toList ++ [block.span],
            ((prelude.map (·.join block.span)).getD block.span).contains s := by
        cases prelude with
        | none => simp [begins, span_contains_iff]
        | some p =>
            have before : p.finish.offset ≤ block.span.start.offset :=
              List.rel_of_pairwise_cons order.ordered List.mem_cons_self
            have runs := order.forward p List.mem_cons_self
            simp only [Option.map_some, Option.getD_some, Option.toList_some,
              List.singleton_append, List.forall_mem_cons, span_contains_iff, Span.join,
              Position.offset_earlier, Position.offset_later]
            refine ⟨by omega, by omega, ⟨by omega, by omega⟩, ⟨by omega, by omega⟩, by simp⟩
      obtain ⟨start, finish, contains⟩ := stretch
      exact ⟨Item.allLaid ⟨spelled, ordered, inPrelude, order, contains, inside⟩ nested, start,
        finish⟩
  | atRule head =>
      have order := (AtHead.Laid.order laid).replace (t := block.span) (by rw [begins]) forward
      refine ⟨Item.allLaid (AtHead.Laid.toRule laid order ?_ ?_) nested, rfl, rfl⟩
      · exact fun s member => order.finish_le_getLast (by simp) member
      · rintro _ ⟨⟩
        exact inside

theorem Laid.start_le (laid : owner.Laid src opening) :
    (owner.start opening).offset ≤ opening.start.offset := by
  cases owner with
  | style selectors prelude keyframe =>
      have order := laid.2.2.2
      cases prelude with
      | none => exact Nat.le_refl _
      | some p => exact order.start_le (by simp)
  | atRule head => exact (AtHead.Laid.order laid).start_le (by simp)

theorem Laid.forward (laid : owner.Laid src opening) :
    opening.start.offset ≤ opening.finish.offset := by
  cases owner with
  | style selectors prelude keyframe => exact laid.2.2.2.forward opening (by simp)
  | atRule head => exact (AtHead.Laid.order laid).forward opening (by simp)

end Owner

namespace Frame

variable {frame : Frame}

theorem Laid.mono (laid : frame.Laid src high) (le : high ≤ next) : frame.Laid src next := by
  cases frame with
  | rules head opening items => exact ⟨laid.1, laid.2.mono le⟩
  | block owner opening declarations comments nested => exact ⟨laid.1, laid.2.mono le⟩

theorem Laid.start_le (laid : frame.Laid src high) :
    frame.start.offset ≤ frame.opening.start.offset := by
  cases frame with
  | rules head opening items => exact laid.1.order.start_le (by simp [Frame.opening])
  | block owner opening declarations comments nested => exact laid.1.start_le

theorem Laid.forward (laid : frame.Laid src high) :
    frame.opening.start.offset ≤ frame.opening.finish.offset := by
  cases frame with
  | rules head opening items => exact laid.1.order.forward opening (by simp)
  | block owner opening declarations comments nested => exact laid.1.forward

theorem Laid.room (laid : frame.Laid src high) : frame.opening.finish.offset ≤ high := by
  cases frame with
  | rules head opening items => exact laid.2.order.room
  | block owner opening declarations comments nested =>
      obtain ⟨all, weave, between⟩ := laid.2.order
      exact between.room

/-- **What a block becomes when it is closed**: it is laid out, begins where the block began, and
ends no later than the block may end. -/
theorem Laid.close (laid : frame.Laid src high) (closes : Closes high closing last) :
    (frame.close closing last).AllLaid src ∧
      (frame.close closing last).span.start.offset = frame.start.offset ∧
      frame.start.offset ≤ (frame.close closing last).span.finish.offset ∧
      (frame.close closing last).span.finish.offset ≤
        ((closing.map Span.finish).getD last).offset := by
  have start := laid.start_le
  have forward := laid.forward
  have room := laid.room
  obtain ⟨reached, closed⟩ := closes.reached
  cases frame with
  | rules head opening items =>
      obtain ⟨head, row⟩ := laid
      have order := closes.around head.order row.order
      have inside := (inOrder_append.mp order).2.1
      have final : (opening :: (items.reverse.map Item.span ++ closing.toList)).getLast? =
          some ((closing.or (items.head?.map Item.span)).getD opening) := by
        cases closing <;> cases items <;> simp [List.getLast?_cons]
      refine ⟨head.rules row closes fun s member => inside.finish_le_getLast final member, rfl, ?_, ?_⟩
      · have ends := inside.finish_le_getLast final List.mem_cons_self
        exact start.trans (forward.trans ends)
      · have bound : ∀ s ∈ opening :: (items.reverse.map Item.span ++ closing.toList),
            s.finish.offset ≤ ((closing.map Span.finish).getD last).offset := by
          refine List.forall_mem_cons.mpr ⟨room.trans reached, ?_⟩
          refine List.forall_mem_append.mpr ⟨fun s member => ?_, fun s member => ?_⟩
          · exact (row.order.within s member).2.trans reached
          · exact closed s (Option.mem_toList.mp member)
        have ends := bound _ (List.mem_of_getLast? final)
        exact ends
  | block owner opening declarations comments nested =>
      obtain ⟨owner, entries⟩ := laid
      have runs := forward.trans (room.trans reached)
      obtain ⟨laid, begins, ends⟩ := owner.toItem (entries.block closes forward)
        (fun item member => entries.inside item (List.mem_reverse.mp member)) rfl runs
      exact ⟨laid, begins, (start.trans runs).trans ends.ge, ends.le⟩

end Frame

/-! ## What the builder does -/

namespace Builder

variable {b : Builder} {frame : Frame} {t e : Token TokenKind} {ts rest inside : Tokens}
  {cap n : Nat}

theorem laid_empty : Builder.empty.Laid src 0 := Row.nil (Nat.le_refl 0)

theorem Laid.mono (laid : b.Laid src high) (le : high ≤ next) : b.Laid src next := by
  obtain ⟨stack, top⟩ := b
  cases stack with
  | nil => exact Row.mono laid le
  | cons frame outer => exact ⟨laid.1.mono le, laid.2⟩

/-- The items outside all blocks are laid out. -/
theorem Laid.top (laid : b.Laid src high) : ∃ high, Row src 0 high b.top := by
  obtain ⟨stack, top⟩ := b
  induction stack generalizing high with
  | nil => exact ⟨high, laid⟩
  | cons frame outer ih => exact ih laid.2

theorem Laid.addItem (laid : b.Laid src high) (own : item.AllLaid src)
    (whole : ∀ block, item ≠ .declarations block) (after : high ≤ item.span.start.offset)
    (forward : item.span.start.offset ≤ item.span.finish.offset) :
    (b.addItem item).Laid src item.span.finish.offset := by
  obtain ⟨stack, top⟩ := b
  match stack, laid with
  | [], laid => exact Row.cons laid own whole after forward
  | .rules .. :: outer, ⟨⟨head, row⟩, held⟩ =>
      exact ⟨⟨head, row.cons own whole after forward⟩, held⟩
  | .block .. :: outer, ⟨⟨owner, entries⟩, held⟩ =>
      exact ⟨⟨owner, entries.nest own after forward⟩, held⟩

theorem Laid.addComment (laid : b.Laid src high) (own : src.slice c.span = c.text)
    (after : high ≤ c.span.start.offset) (forward : c.span.start.offset ≤ c.span.finish.offset) :
    (b.addComment c).Laid src c.span.finish.offset := by
  rw [Builder.addComment]
  split
  next stack =>
    rw [Builder.Laid, stack] at laid
    obtain ⟨⟨owner, entries⟩, held⟩ := laid
    exact ⟨⟨owner, entries.annotate own after forward⟩, held⟩
  next =>
    have item : (Item.comment c).AllLaid src := Item.allLaid own (by simp [Item.children])
    exact laid.addItem item (by simp) after forward

theorem Laid.addDeclaration (laid : b.Laid src high) (own : d.Laid src)
    (after : high ≤ d.reach.start.offset) :
    (b.addDeclaration d).Laid src d.reach.finish.offset := by
  obtain ⟨stack, top⟩ := b
  match stack, laid with
  | [], laid => exact Row.addBare laid own after
  | .rules .. :: outer, ⟨⟨head, row⟩, held⟩ => exact ⟨⟨head, row.addBare own after⟩, held⟩
  | .block .. :: outer, ⟨⟨owner, entries⟩, held⟩ =>
      exact ⟨⟨owner, entries.declare own after⟩, held⟩

theorem close_ne_declarations (frame : Frame) (closing : Option Span) (last : Position)
    (block : Block Item) : frame.close closing last ≠ .declarations block := by
  cases frame with
  | rules head opening items => nofun
  | block owner opening declarations comments nested => cases owner <;> nofun

theorem Laid.close (laid : b.Laid src high) (closes : Closes high closing last) :
    (b.close closing last).Laid src ((closing.map Span.finish).getD last).offset := by
  obtain ⟨stack, top⟩ := b
  cases stack with
  | nil => exact laid.mono closes.reached.1
  | cons frame outer =>
      obtain ⟨own, start, forward, ends⟩ := laid.1.close closes
      have outer : Builder.Laid src frame.start.offset ⟨outer, top⟩ := laid.2
      have added := outer.addItem own (close_ne_declarations frame closing last) start.ge
        (start.le.trans forward)
      exact added.mono ends

end Builder

/-! ## What a step takes -/

/-- An offset from which on the tokens lie that are left when some number of them has been taken; it
is no earlier than the end of all tokens if none are left. -/
structure Past (last : Position) (ts : Tokens) (n next : Nat) : Prop where
  taken : ∀ t ∈ ts.take n, t.span.finish.offset ≤ next
  left : ts.length ≤ n → last.offset ≤ next

namespace Past

variable {ts : Tokens} {n k : Nat}

theorem fewer (past : Past last ts n next) (le : k ≤ n) :
    ∀ t ∈ ts.take k, t.span.finish.offset ≤ next :=
  fun t member => past.taken t ((List.take_prefix_take_left le).subset member)

theorem drop (past : Past last ts (k + n) next) : Past last (ts.drop k) n next where
  taken t member := by
    refine past.taken t ?_
    rw [List.take_add]
    exact List.mem_append_right _ member
  left none_ := by
    rw [List.length_drop] at none_
    exact past.left (by omega)

end Past

/-- The rest of a block goes through its `}`, or else to the end of the tokens. -/
theorem blockExtent_ends (depth : Nat) (ts : Tokens) :
    (∀ s ∈ (blockExtent depth ts).2, ∃ t ∈ ts.take (blockExtent depth ts).1, t.span = s) ∧
      ((blockExtent depth ts).2 = none → (blockExtent depth ts).1 = ts.length) := by
  induction ts generalizing depth with
  | nil => simp [blockExtent]
  | cons t ts ih =>
      have go : ∀ depth,
          (∀ s ∈ (blockExtent depth ts).2,
            ∃ u ∈ (t :: ts).take ((blockExtent depth ts).1 + 1), u.span = s) ∧
          ((blockExtent depth ts).2 = none →
            (blockExtent depth ts).1 + 1 = (t :: ts).length) := by
        intro depth
        obtain ⟨closed, unclosed⟩ := ih depth
        refine ⟨fun s found => ?_, fun none_ => by rw [unclosed none_, List.length_cons]⟩
        obtain ⟨u, member, same⟩ := closed s found
        exact ⟨u, by simp [member], same⟩
      simp only [blockExtent]
      split
      · exact go _
      split
      · split
        · simp
        · exact go _
      · exact go _

namespace Builder

variable {b : Builder} {frame : Frame} {t e : Token TokenKind} {ts rest inside : Tokens}
  {cap n : Nat}

/-- A block past the cap is laid out, with nothing in it. -/
theorem Laid.openBlock (laid : b.Laid src frame.start.offset)
    (own : frame.Laid src frame.opening.finish.offset)
    (reads : ∀ t ∈ inside, frame.opening.finish.offset ≤ t.span.start.offset ∧
      t.span.start.offset ≤ t.span.finish.offset)
    (room : frame.opening.finish.offset ≤ last.offset)
    (opened : frame.opening.finish.offset ≤ next)
    (past : Past last inside (b.openBlock cap last frame inside).more next) :
    (b.openBlock cap last frame inside).builder.Laid src next := by
  simp only [Builder.openBlock] at past ⊢
  split at past
  next capped =>
    rw [if_pos capped]
    obtain ⟨closed, unclosed⟩ := blockExtent_ends 0 inside
    generalize (blockExtent 0 inside).2 = closing at closed unclosed ⊢
    have closes : Closes frame.opening.finish.offset closing last := by
      refine ⟨fun s found => ?_, fun _ => room⟩
      obtain ⟨t, member, rfl⟩ := closed s found
      exact reads t (List.mem_of_mem_take member)
    have reached : ((closing.map Span.finish).getD last).offset ≤ next := by
      cases closing with
      | none => exact past.left (unclosed rfl).ge
      | some s =>
          obtain ⟨t, member, rfl⟩ := closed s rfl
          exact past.taken t member
    have start := own.start_le
    have forward := own.forward
    cases frame with
    | rules head opening items =>
        have none_ : Row src opening.finish.offset opening.finish.offset [] := .nil (Nat.le_refl _)
        have rule : (Item.atRule (head.toRule (.rules opening closing [])
            ((closing.map Span.finish).getD last))).AllLaid src :=
          own.1.rules none_ closes (by simpa [Frame.opening] using closes.reached)
        have added := laid.addItem rule (by simp) (Nat.le_refl _)
          (start.trans (forward.trans closes.reached.1))
        exact added.mono reached
    | block owner opening declarations comments nested =>
        obtain ⟨item, start, forward, ends⟩ := own.close closes
        have added := laid.addItem item (close_ne_declarations _ _ _) start.ge
          (start.le.trans forward)
        exact added.mono (ends.trans reached)
  next free =>
    rw [if_neg free]
    exact ⟨own.mono opened, laid⟩

end Builder

/-! ## Steps -/

/-- The tokens that are still to be taken stand at an offset or after it, up to the end of all. -/
structure Ahead (cs : List Char) (high : Nat) (last : Position) (ts : Tokens) : Prop where
  spells : (Passage.whole cs).Spells ts
  keyed : Keyed ts
  after : ∀ t ∈ ts, high ≤ t.span.start.offset
  bound : ∀ t ∈ ts, t.span.finish.offset ≤ last.offset

/-- **What a step leaves** is laid out up to where the tokens lie that are left. -/
def Outcome.Laid (src : Source) (last : Position) (ts : Tokens) (o : Outcome) : Prop :=
  ∀ next, Past last ts (o.more + 1) next → o.builder.Laid src next

section Steps

variable {cs : List Char} {b : Builder} {t e : Token TokenKind} {ts rest : Tokens} {cap n : Nat}

namespace Ahead

theorem forward (ahead : Ahead cs high last ts) :
    ∀ t ∈ ts, t.span.start.offset ≤ t.span.finish.offset :=
  fun _ member => (ahead.spells.reads.covers member).offset_le

/-- The tokens after a token lie after it. -/
theorem drop (ahead : Ahead cs high last ts) (found : ts[n]? = some e) :
    Ahead cs e.span.finish.offset last (ts.drop (n + 1)) where
  spells := ahead.spells.within (List.drop_suffix _ _).isInfix
  keyed u member := ahead.keyed u (List.mem_of_mem_drop member)
  after u member := by
    have whole : ts = ts.take n ++ e :: ts.drop (n + 1) := by
      obtain ⟨lt, rfl⟩ := List.getElem?_eq_some_iff.mp found
      simp
    have order := ahead.spells.reads.ordered
    rw [whole] at order
    exact List.rel_of_pairwise_cons (List.pairwise_append.mp order).2.1 member
  bound u member := ahead.bound u (List.mem_of_mem_drop member)

end Ahead

/-- What a style rule begins with is laid out, with the `{` after it. -/
theorem laid_style (ahead : Ahead cs high last ts) (found : ts[n]? = some e) (keyframe : Bool) :
    Owner.Laid ⟨cs⟩ e.span (.style (readSelectors (trimTrivia (ts.take n))).1
      (spanOf? (trimTrivia (ts.take n))) keyframe) := by
  have inside : trimTrivia (ts.take n) <:+: ts :=
    (trimTrivia_within _).trans (List.take_prefix n ts).isInfix
  obtain ⟨spelled, ordered, inPrelude⟩ := readSelectors_laid (ahead.spells.within inside)
  refine ⟨spelled, ordered, inPrelude, ?_⟩
  have tokens : (trimTrivia (ts.take n) ++ [e]).Sublist ts := by
    have whole := List.take_sublist (n + 1) ts
    rw [List.take_add_one, found] at whole
    exact ((trimTrivia_sublist _).append_right _).trans whole
  have order : InOrder ([trimTrivia (ts.take n), [e]].filterMap spanOf?) :=
    inOrder_groups (g := .whole cs) (by simpa using ahead.spells.reads.sublist tokens)
  simp only [List.filterMap_cons, spanOf?_singleton, List.filterMap_nil] at order
  cases span : spanOf? (trimTrivia (ts.take n)) with
  | none => simpa [span] using order
  | some p => simpa [span] using order

namespace Builder

theorem Laid.openStyle (laid : b.Laid ⟨cs⟩ high) (ahead : Ahead cs high last ts)
    (found : ts[n]? = some e) (keyframe : Bool) :
    (b.openStyle cap last keyframe n e.span ts).Laid ⟨cs⟩ last ts := by
  intro next past
  have member := List.mem_of_getElem? found
  have later := ahead.drop found
  have start : high ≤ ((spanOf? (trimTrivia (ts.take n))).getD e.span).start.offset := by
    cases span : spanOf? (trimTrivia (ts.take n)) with
    | none => exact ahead.after e member
    | some p =>
        obtain ⟨first, isFirst, -, -, rfl⟩ := spanOf?_eq_some span
        exact ahead.after first (List.mem_of_mem_take ((trimTrivia_sublist _).subset isFirst))
  simp only [Builder.openStyle, Nat.add_right_comm _ _ 1] at past ⊢
  refine (laid.mono start).openBlock ⟨laid_style ahead found keyframe, Entries.nil (Nat.le_refl _)⟩
    ?_ (ahead.bound e member) ?_ past.drop
  · exact fun t inside => ⟨later.after t inside, later.forward t inside⟩
  · exact past.fewer (Nat.le_add_right _ _) e (mem_take_of_getElem? found)

theorem Laid.takeAtRule (laid : b.Laid ⟨cs⟩ high) (ahead : Ahead cs high last (t :: rest))
    (kind : t.kind = .atKeyword) :
    (b.takeAtRule cap last t rest).Laid ⟨cs⟩ last (t :: rest) := by
  have start := ahead.after t List.mem_cons_self
  have forward := ahead.forward t List.mem_cons_self
  have laidHead := laid_head (n := preludeExtent 0 rest) ahead.spells ahead.keyed kind
  have prelude : (trimTrivia (rest.take (preludeExtent 0 rest))).Sublist
      (rest.take (preludeExtent 0 rest)) := trimTrivia_sublist _
  simp only [Builder.takeAtRule]
  generalize preludeExtent 0 rest = n at laidHead prelude ⊢
  generalize shape : (⟨lowerAscii (t.text.drop 1), t.span, trimTrivia (rest.take n)⟩ : AtHead) =
    head at laidHead ⊢
  have name : head.nameSpan = t.span := by rw [← shape]
  have statement : ∀ next, ∀ finish : Position,
      (∀ s ∈ head.spans, s.finish.offset ≤ finish.offset) → finish.offset ≤ next →
      (b.addItem (.atRule (head.toRule .statement finish))).Laid ⟨cs⟩ next := by
    intro next finish bound le
    have own : head.nameSpan.finish.offset ≤ finish.offset := bound _ List.mem_cons_self
    rw [← name] at start forward
    exact (laid.addItem (laidHead.statement bound) (by simp) start (forward.trans own)).mono le
  have broken : ∀ next, Past last (t :: rest) (n + 1) next →
      (b.addItem (.atRule (head.toRule .statement head.finish))).Laid ⟨cs⟩ next := by
    intro next past
    have final : head.spans.getLast? = some ((spanOf? head.prelude).getD head.nameSpan) := by
      rw [AtHead.spans]
      cases spanOf? head.prelude <;> rfl
    refine statement next _ (fun s member => ?_) ?_
    · exact (inOrder_append.mp laidHead.order).1.finish_le_getLast final member
    · rw [AtHead.finish]
      cases span : spanOf? head.prelude with
      | none => exact name ▸ past.taken t List.mem_cons_self
      | some s =>
          obtain ⟨-, -, u, isLast, rfl⟩ := spanOf?_eq_some span
          rw [← shape] at isLast
          exact past.taken u (List.mem_cons_of_mem _ (prelude.subset isLast))
  split
  · exact broken
  next e found =>
    rw [found] at laidHead
    have here : (t :: rest)[n + 1]? = some e := found
    have later := ahead.drop here
    have opens : ∀ frame : Frame, frame.start = t.span.start → frame.opening = e.span →
        frame.Laid ⟨cs⟩ e.span.finish.offset → ∀ next, Past last (t :: rest)
          (n + 1 + (b.openBlock cap last frame (rest.drop (n + 1))).more + 1) next →
        (b.openBlock cap last frame (rest.drop (n + 1))).builder.Laid ⟨cs⟩ next := by
      intro frame begins opening own next past
      rw [Nat.add_right_comm] at past
      have taken := past.fewer (Nat.le_add_right _ _) e (mem_take_of_getElem? here)
      rw [← opening] at taken own later
      refine (laid.mono (begins ▸ start)).openBlock own ?_ ?_ taken past.drop
      · exact fun t inside => ⟨later.after t inside, later.forward t inside⟩
      · exact opening ▸ ahead.bound e (List.mem_of_getElem? here)
    split
    · intro next past
      refine statement next _ (fun s member => ?_) (past.taken e (mem_take_of_getElem? here))
      exact laidHead.order.finish_le_getLast (by simp) (List.mem_append_left _ member)
    split
    · split
      · exact opens _ (congrArg Span.start name) rfl ⟨laidHead, Entries.nil (Nat.le_refl _)⟩
      · exact opens _ (congrArg Span.start name) rfl ⟨laidHead, Row.nil (Nat.le_refl _)⟩
    · exact broken

/-- Nothing is built, and tokens are passed over. -/
theorem Laid.skip (laid : b.Laid ⟨cs⟩ high) (ahead : Ahead cs high last (t :: rest))
    (issues : List Issue) (n : Nat) : Outcome.Laid ⟨cs⟩ last (t :: rest) ⟨b, issues, n⟩ := by
  intro next past
  have start := ahead.after t List.mem_cons_self
  have forward := ahead.forward t List.mem_cons_self
  exact laid.mono (start.trans (forward.trans (past.taken t List.mem_cons_self)))

/-- A declaration is built of the tokens that it takes. -/
theorem Laid.read (laid : b.Laid ⟨cs⟩ high) (ahead : Ahead cs high last (t :: rest))
    (read : Declaration.read? t rest = some (d, n)) :
    Outcome.Laid ⟨cs⟩ last (t :: rest) ⟨b.addDeclaration d, [], n - 1⟩ := by
  intro next past
  obtain ⟨own, start, u, taken, finish⟩ := read?_laid ahead.spells read
  have after := ahead.after t List.mem_cons_self
  rw [← start] at after
  refine (laid.addDeclaration own after).mono ?_
  rw [finish]
  exact past.fewer (by dsimp only; omega) u taken

theorem Laid.takeRule (laid : b.Laid ⟨cs⟩ high) (ahead : Ahead cs high last (t :: rest)) :
    (b.takeRule cap last t rest).Laid ⟨cs⟩ last (t :: rest) := by
  simp only [Builder.takeRule]
  split
  next brace =>
    obtain ⟨e, found, -⟩ := (Option.any_eq_true _ _).mp brace
    rw [found]
    exact laid.openStyle ahead found _
  split
  next read => exact laid.read ahead read
  next =>
    split
    · exact laid.skip ahead _ _
    · exact laid.skip ahead _ _

theorem Laid.takeEntry (laid : b.Laid ⟨cs⟩ high) (ahead : Ahead cs high last (t :: rest)) :
    (b.takeEntry cap last t rest).Laid ⟨cs⟩ last (t :: rest) := by
  simp only [Builder.takeEntry]
  split
  next nested =>
    rw [startsNestedRule, Bool.and_eq_true] at nested
    obtain ⟨e, found, -⟩ := (Option.any_eq_true _ _).mp nested.2
    rw [found]
    exact laid.openStyle ahead found _
  split
  next read => exact laid.read ahead read
  next =>
    split
    · exact laid.skip ahead _ _
    · exact laid.skip ahead _ _

theorem step_laid (laid : b.Laid ⟨cs⟩ high) (ahead : Ahead cs high last (t :: rest)) :
    (b.step cap last t rest).Laid ⟨cs⟩ last (t :: rest) := by
  have start := ahead.after t List.mem_cons_self
  have forward := ahead.forward t List.mem_cons_self
  rw [Builder.step]
  split
  next => exact laid.skip ahead _ _
  next => exact laid.skip ahead _ _
  next =>
    intro next past
    have spelled := Source.slice_of_shows (ahead.spells.reads.shows t List.mem_cons_self)
    exact (laid.addComment (c := ⟨t.text, t.span⟩) spelled start forward).mono
      (past.taken t List.mem_cons_self)
  next =>
    split
    · exact laid.skip ahead _ _
    · intro next past
      have closes : Closes high (some t.span) last := ⟨by simpa using ⟨start, forward⟩, by simp⟩
      exact (laid.close closes).mono (past.taken t List.mem_cons_self)
  next kind => exact laid.takeAtRule ahead kind
  next =>
    split
    · exact laid.takeEntry ahead
    split
    · exact laid.skip ahead _ _
    · exact laid.takeRule ahead

/-- **What a run keeps**: at its end all is laid out up to the end of the tokens. -/
theorem run_laid (cap : Nat) (last : Position) (b : Builder) (ts : Tokens)
    (laid : b.Laid ⟨cs⟩ high) (ahead : Ahead cs high last ts) (le : high ≤ last.offset) :
    (b.run cap last ts).1.Laid ⟨cs⟩ last.offset := by
  revert high
  fun_induction Builder.run cap last b ts with
  | case1 b => exact fun laid _ le => laid.mono le
  | case2 b t rest s done issues run =>
      rename_i ih
      intro high laid ahead le
      have step : s.Laid ⟨cs⟩ last (t :: rest) := step_laid laid ahead
      rw [run] at ih
      cases left : rest.drop s.more with
      | nil =>
          rw [left] at ih
          have end_ : s.builder.Laid ⟨cs⟩ last.offset := step last.offset
            ⟨fun u member => ahead.bound u (List.mem_of_mem_take member), fun _ => Nat.le_refl _⟩
          exact ih end_ ⟨⟨Passage.reads_nil, .nil⟩, by simp [Keyed], by simp, by simp⟩ (Nat.le_refl _)
      | cons u later =>
          rw [left] at ih
          have whole : t :: rest = (t :: rest).take (s.more + 1) ++ u :: later := by
            rw [← left, List.take_succ_cons, List.cons_append, List.take_append_drop]
          have spells := ahead.spells
          rw [whole] at spells
          have order := List.pairwise_append.mp spells.reads.ordered
          have tail := spells.within (List.suffix_append _ _).isInfix
          have suffix : u :: later ⊆ t :: rest := by
            rw [whole]
            exact List.subset_append_right _ _
          refine ih (step u.span.start.offset ⟨fun v member => ?_, fun none_ => ?_⟩)
            ⟨tail, fun v member => ahead.keyed v (suffix member), fun v member => ?_,
              fun v member => ahead.bound v (suffix member)⟩ ?_
          · exact order.2.2 v member u List.mem_cons_self
          · have length := congrArg List.length left
            simp only [List.length_drop, List.length_cons] at length none_
            omega
          · rcases List.mem_cons.mp member with rfl | member
            · exact Nat.le_refl _
            · exact (tail.reads.covers List.mem_cons_self).offset_le.trans
                (List.rel_of_pairwise_cons tail.reads.ordered member)
          · exact (tail.reads.covers List.mem_cons_self).offset_le.trans
              (ahead.bound u (suffix List.mem_cons_self))

theorem closeMany_laid (n : Nat) (laid : b.Laid src last.offset) :
    (closeMany last n b).Laid src last.offset := by
  induction n generalizing b with
  | zero => exact laid
  | succ n ih => exact ih (laid.close ⟨nofun, fun _ => Nat.le_refl _⟩)

end Builder

end Steps

/-! ## Stylesheets -/

namespace Sheet

theorem spells_tokenize (cs : List Char) : (Passage.whole cs).Spells (tokenize cs .start) where
  reads := reads_tokenize (Passage.holds_origin (.whole cs))
  adjacent := (run_cut scans_turn true .start cs).tiles.contiguous

/-- All tokens end where the last one ends. -/
theorem finish_le_last (cs : List Char) : ∀ t ∈ tokenize cs .start, t.span.finish.offset ≤
    (((tokenize cs .start).getLast?.map Token.span).getD (.emptyAt .start)).finish.offset := by
  have spells := spells_tokenize cs
  have inOrder : InOrder ((tokenize cs .start).map Token.span) :=
    ⟨List.forall_mem_map.mpr fun u inside => (spells.reads.covers inside).offset_le,
      List.pairwise_map.mpr spells.reads.ordered⟩
  intro t member
  cases final : (tokenize cs .start).getLast? with
  | none =>
      rw [List.getLast?_eq_none_iff.mp final] at member
      cases member
  | some u =>
      refine inOrder.finish_le_getLast ?_ (List.mem_map_of_mem member)
      rw [List.getLast?_map, final]
      rfl

/-- **Stylesheets are laid out**, however broken they are: their items lie one after the other, and
each item, however deep, has the texts that stand in its stretches, its parts in the order in which
they are written, and takes in all of its parts. -/
theorem laid_out (cs : List Char) :
    InOrder ((Sheet.ofText cs .start).items.map Item.span) ∧
      ∀ n, ∀ item ∈ itemsAt n (Sheet.ofText cs .start).items, item.Laid ⟨cs⟩ := by
  have bound := finish_le_last cs
  simp only [Sheet.ofText, buildItems, Builder.finish]
  generalize (((tokenize cs .start).getLast?.map Token.span).getD (.emptyAt .start)).finish = last
    at bound ⊢
  have run := Builder.run_laid depthCap last .empty (tokenize cs .start) Builder.laid_empty
    ⟨spells_tokenize cs, keyed_tokenize .start, fun _ _ => Nat.zero_le _, bound⟩ (Nat.zero_le _)
  obtain ⟨high, row⟩ := (Builder.closeMany_laid
    (Builder.empty.run depthCap last (tokenize cs .start)).1.stack.length run).top
  refine ⟨row.order.inOrder, fun n item member => ?_⟩
  obtain ⟨root, isRoot, inside⟩ := mem_itemsAt.mp member
  exact row.laid root (List.mem_reverse.mp isRoot) n item inside

end Sheet

end PageLint.Css
