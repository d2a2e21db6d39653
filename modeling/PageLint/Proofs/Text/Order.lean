/-
# PageLint.Proofs.Text.Order — stretches one after the other

Stretches are `InOrder` when each runs forward and ends before the next ones begin, and they lie
`Between` two offsets when they also have all their places there. What is read from left to right
grows at its end: `Between.concat` puts one more stretch in, and moves the second offset on.

Tokens that follow each other without a gap spell the stretch from the first to the last
(`Spells.shows`). If tokens in order are taken apart into groups, the stretches of the groups are in
order (`inOrder_groups`).
-/
import PageLint.Proofs.Text.Tiling

namespace PageLint

set_option autoImplicit false

open Text

/-! ## Stretches in order -/

/-- Stretches that run forward, each one ending before the next ones begin. -/
structure InOrder (spans : List Span) : Prop where
  forward : ∀ s ∈ spans, s.start.offset ≤ s.finish.offset
  ordered : spans.Pairwise fun s t => s.finish.offset ≤ t.start.offset

/-- Stretches in order that lie between two offsets. -/
structure Between (low high : Nat) (spans : List Span) : Prop where
  room : low ≤ high
  inOrder : InOrder spans
  within : ∀ s ∈ spans, low ≤ s.start.offset ∧ s.finish.offset ≤ high

section Stretches

variable {low high next : Nat} {s t : Span} {spans front back : List Span}

theorem inOrder_nil : InOrder [] := ⟨by simp, .nil⟩

theorem inOrder_singleton : InOrder [s] ↔ s.start.offset ≤ s.finish.offset :=
  ⟨fun inOrder => inOrder.forward s List.mem_cons_self,
    fun forward => ⟨by simpa using forward, List.pairwise_singleton _ _⟩⟩

theorem inOrder_append : InOrder (front ++ back) ↔
    InOrder front ∧ InOrder back ∧ ∀ s ∈ front, ∀ t ∈ back, s.finish.offset ≤ t.start.offset := by
  constructor
  · rintro ⟨forward, ordered⟩
    obtain ⟨first, second, apart⟩ := List.pairwise_append.mp ordered
    rw [List.forall_mem_append] at forward
    exact ⟨⟨forward.1, first⟩, ⟨forward.2, second⟩, apart⟩
  · rintro ⟨first, second, apart⟩
    exact ⟨List.forall_mem_append.mpr ⟨first.forward, second.forward⟩,
      List.pairwise_append.mpr ⟨first.ordered, second.ordered, apart⟩⟩

theorem InOrder.sublist (inOrder : InOrder spans) (fewer : front.Sublist spans) : InOrder front :=
  ⟨fun s member => inOrder.forward s (fewer.subset member), inOrder.ordered.sublist fewer⟩

/-- No stretch in order ends after the last one. -/
theorem InOrder.finish_le_getLast (inOrder : InOrder spans) (last : spans.getLast? = some t)
    (member : s ∈ spans) : s.finish.offset ≤ t.finish.offset := by
  obtain ⟨front, rfl⟩ := List.getLast?_eq_some_iff.mp last
  rcases List.mem_append.mp member with before | same
  · have ahead := (inOrder_append.mp inOrder).2.2 s before t List.mem_cons_self
    have forward := inOrder.forward t (by simp)
    omega
  · rw [List.mem_singleton.mp same]

theorem between_nil (le : low ≤ high) : Between low high [] := ⟨le, inOrder_nil, by simp⟩

theorem Between.mono (between : Between low high spans) (le : high ≤ next) :
    Between low next spans where
  room := between.room.trans le
  inOrder := between.inOrder
  within s member :=
    ⟨(between.within s member).1, (between.within s member).2.trans le⟩

/-- **One more stretch**, at the second offset or after it. -/
theorem Between.concat (between : Between low high spans) (after : high ≤ s.start.offset)
    (forward : s.start.offset ≤ s.finish.offset) : Between low s.finish.offset (spans ++ [s]) where
  room := by
    have room := between.room
    omega
  inOrder := by
    refine inOrder_append.mpr ⟨between.inOrder, inOrder_singleton.mpr forward, ?_⟩
    intro t member u last
    rw [List.mem_singleton.mp last]
    exact (between.within t member).2.trans after
  within := by
    intro t member
    rcases List.mem_append.mp member with earlier | last
    · obtain ⟨begins, ends⟩ := between.within t earlier
      exact ⟨begins, by omega⟩
    · rw [List.mem_singleton.mp last]
      have room := between.room
      exact ⟨by omega, Nat.le_refl _⟩

/-- Stretches between two others are in order with them. -/
theorem Between.around (between : Between low high spans) (before : InOrder front)
    (after : InOrder back) (first : ∀ s ∈ front, s.finish.offset ≤ low)
    (last : ∀ s ∈ back, high ≤ s.start.offset) : InOrder (front ++ (spans ++ back)) := by
  refine inOrder_append.mpr ⟨before, inOrder_append.mpr ⟨between.inOrder, after, ?_⟩, ?_⟩
  · exact fun s member t inBack => (between.within s member).2.trans (last t inBack)
  · intro s inFront t member
    rcases List.mem_append.mp member with inside | inBack
    · exact (first s inFront).trans (between.within t inside).1
    · exact (first s inFront).trans (between.room.trans (last t inBack))

theorem span_contains_iff : s.contains t ↔
    s.start.offset ≤ t.start.offset ∧ t.finish.offset ≤ s.finish.offset := by
  simp [Span.contains]

/-- A last stretch that begins where another one did. -/
theorem InOrder.replace (inOrder : InOrder (front ++ [s])) (start : t.start.offset = s.start.offset)
    (forward : t.start.offset ≤ t.finish.offset) : InOrder (front ++ [t]) := by
  obtain ⟨before, -, apart⟩ := inOrder_append.mp inOrder
  refine inOrder_append.mpr ⟨before, inOrder_singleton.mpr forward, ?_⟩
  intro u member v last
  rw [List.mem_singleton.mp last, start]
  exact apart u member s List.mem_cons_self

/-- All stretches before the last one lie before it. -/
theorem Between.init (between : Between low high (front ++ [s])) :
    Between low s.start.offset front where
  room := (between.within s (by simp)).1
  inOrder := (inOrder_append.mp between.inOrder).1
  within t member := ⟨(between.within t (List.mem_append_left _ member)).1,
    (inOrder_append.mp between.inOrder).2.2 t member s List.mem_cons_self⟩

/-- The first stretch, and all the others after it. -/
theorem Between.tail (between : Between low high (s :: spans)) :
    low ≤ s.start.offset ∧ s.start.offset ≤ s.finish.offset ∧
      Between s.finish.offset high spans := by
  obtain ⟨-, inOrder, within⟩ := between
  obtain ⟨follows, later⟩ := List.pairwise_cons.mp inOrder.ordered
  refine ⟨(within s List.mem_cons_self).1, inOrder.forward s List.mem_cons_self,
    (within s List.mem_cons_self).2, inOrder.sublist (List.sublist_cons_self s spans), ?_⟩
  exact fun t member => ⟨follows t member, (within t (List.mem_cons_of_mem s member)).2⟩

/-- Of two stretches in order that are not the same, the one does not begin inside the other. -/
theorem InOrder.apart (inOrder : InOrder spans) (one : s ∈ spans) (other : t ∈ spans) :
    s.start.offset ≤ t.start.offset ∨ t.finish.offset ≤ s.start.offset := by
  by_cases same : s = t
  · exact .inl (by rw [same])
  · exact (rel_or_rel_of_mem inOrder.ordered one other same).imp
      (inOrder.forward s one).trans id

/-- No stretch in order begins before the first one. -/
theorem InOrder.start_le (inOrder : InOrder (s :: spans)) (member : t ∈ s :: spans) :
    s.start.offset ≤ t.start.offset := by
  rcases List.mem_cons.mp member with rfl | later
  · exact Nat.le_refl _
  · exact (inOrder.forward s List.mem_cons_self).trans
      (List.rel_of_pairwise_cons inOrder.ordered later)

/-- From the first of some stretches in order to an offset after all of them, all are taken in. -/
theorem InOrder.contains_through {p : Position} (inOrder : InOrder (s :: spans))
    (bound : ∀ u ∈ s :: spans, u.finish.offset ≤ p.offset) :
    ∀ u ∈ s :: spans, (⟨s.start, p⟩ : Span).contains u :=
  fun u member => span_contains_iff.mpr ⟨inOrder.start_le member, bound u member⟩

/-- From the first to the last of some stretches in order, all of them are taken in. -/
theorem InOrder.contains_ends (inOrder : InOrder (s :: spans))
    (last : (s :: spans).getLast? = some t) :
    ∀ u ∈ s :: spans, (⟨s.start, t.finish⟩ : Span).contains u :=
  inOrder.contains_through fun _ member => inOrder.finish_le_getLast last member

end Stretches

/-! ## Tokens without a gap -/

namespace Passage

variable {κ : Type} {g : Passage} {ts us : List (Token κ)} {s : Span} {p : Position}
  {part more : List Char}

/-- What stands somewhere and what stands right after it stand there together. -/
theorem Holds.append (holds : g.Holds p part) (next : g.Holds (p.after part) more) :
    g.Holds p (part ++ more) := by
  obtain ⟨passed, standing, rfl⟩ := holds
  obtain ⟨passed', standing', place⟩ := next
  have size : bytes (passed ++ part) = bytes passed' := by
    have offsets := congrArg Position.offset place
    rw [← Position.after_append, Position.offset_after, Position.offset_after] at offsets
    omega
  have same : passed' = passed ++ part := by
    have leads := (List.prefix_append passed' more).trans standing'
    rcases List.prefix_or_prefix_of_prefix standing leads with ⟨rest, whole⟩ | ⟨rest, whole⟩
    · by_cases none_ : rest = []
      · rw [← whole, none_, List.append_nil]
      · have some_ := bytes_pos none_
        simp only [← whole, bytes_append] at size
        omega
    · by_cases none_ : rest = []
      · rw [← whole, none_, List.append_nil]
      · have some_ := bytes_pos none_
        simp only [← whole, bytes_append] at size
        omega
  exact ⟨passed, by rwa [← List.append_assoc, ← same], rfl⟩

/-- Tokens stand in the passage, each one right after the one before it. -/
structure Spells (g : Passage) (ts : List (Token κ)) : Prop where
  reads : g.Reads ts
  adjacent : ts.IsChain fun t u => t.span.finish = u.span.start

theorem Spells.within (spells : g.Spells ts) (inside : us <:+: ts) : g.Spells us :=
  ⟨spells.reads.sublist inside.sublist, spells.adjacent.infix inside⟩

/-- **Tokens without a gap spell the stretch from the first to the last.** -/
theorem Spells.shows (spells : g.Spells ts) (span : spanOf? ts = some s) :
    g.Shows s (textOf ts) := by
  induction ts generalizing s with
  | nil => simp [spanOf?] at span
  | cons t ts ih =>
      have own := spells.reads.shows t List.mem_cons_self
      cases ts with
      | nil =>
          obtain rfl := Option.some.inj span
          simpa [textOf] using own
      | cons u ts =>
          have later := ih (s := ⟨u.span.start, s.finish⟩)
            (spells.within (List.suffix_cons t (u :: ts)).isInfix) <| by
              obtain rfl := Option.some.inj span
              rfl
          have touches : t.span.finish = u.span.start := (List.isChain_cons_cons.mp spells.adjacent).1
          obtain ⟨standing, finish⟩ := later
          obtain ⟨standing', finish'⟩ := own
          have start : s.start = t.span.start := by
            obtain rfl := Option.some.inj span
            rfl
          have whole : textOf (t :: u :: ts) = t.text ++ textOf (u :: ts) := rfl
          rw [whole]
          constructor
          · rw [start]
            refine standing'.append ?_
            rwa [← finish', touches]
          · rw [start, Position.after_append, ← finish', touches]
            exact finish

/-- The stretch of tokens takes in the stretch of some of them. -/
theorem Reads.contains_spanOf? (reads : g.Reads ts) (fewer : us.Sublist ts) {t : Span}
    (whole : spanOf? ts = some s) (span : spanOf? us = some t) : s.contains t := by
  obtain ⟨first, isFirst, last, isLast, rfl⟩ := spanOf?_eq_some span
  have inOrder : InOrder (ts.map Token.span) :=
    ⟨List.forall_mem_map.mpr fun u member => (reads.covers member).offset_le,
      List.pairwise_map.mpr reads.ordered⟩
  cases ts with
  | nil => simp [spanOf?] at whole
  | cons u ts =>
      obtain rfl := Option.some.inj whole
      refine span_contains_iff.mpr ⟨?_, ?_⟩
      · have forward := (reads.covers List.mem_cons_self).offset_le
        rcases List.mem_cons.mp (fewer.subset isFirst) with rfl | later
        · exact Nat.le_refl _
        · exact forward.trans (List.rel_of_pairwise_cons reads.ordered later)
      · refine inOrder.finish_le_getLast (s := last.span)
          (t := ((u :: ts).getLast (List.cons_ne_nil u ts)).span) ?_
          (List.mem_map_of_mem (fewer.subset isLast))
        rw [List.getLast?_map, List.getLast?_eq_some_getLast (List.cons_ne_nil u ts)]
        rfl

end Passage

/-- A shown text is what is cut out. -/
theorem Source.slice_of_shows {cs text : List Char} {s : Span}
    (shown : (Passage.whole cs).Shows s text) : slice ⟨cs⟩ s = text := by
  have same : s = .covering s.start text := by rw [Span.covering, ← shown.2]
  rw [same]
  exact slice_of_holds shown.1

/-! ## Groups of tokens -/

section Groups

variable {κ : Type} {g : Passage} {ts : List (Token κ)} {s : Span}

theorem spanOf?_eq_none {ts : List (Token κ)} : spanOf? ts = none ↔ ts = [] := by
  cases ts with
  | nil => simp [spanOf?]
  | cons t ts => simp [spanOf?, List.getLast?_cons]

@[simp] theorem spanOf?_singleton (t : Token κ) : spanOf? [t] = some t.span := rfl

/-- **Groups of tokens in order have stretches in order.** -/
theorem inOrder_groups {groups : List (List (Token κ))} (reads : g.Reads groups.flatten) :
    InOrder (groups.filterMap spanOf?) := by
  constructor
  · intro s member
    obtain ⟨group, inside, span⟩ := List.mem_filterMap.mp member
    have own := reads.sublist (List.infix_of_mem_flatten inside).sublist
    exact (own.covers_spanOf? span).offset_le
  · refine List.pairwise_filterMap.mpr ((List.pairwise_flatten.mp reads.ordered).2.imp ?_)
    intro group later apart s span t span'
    obtain ⟨first, isFirst, last, isLast, rfl⟩ := spanOf?_eq_some span
    obtain ⟨first', isFirst', last', isLast', rfl⟩ := spanOf?_eq_some span'
    exact apart last isLast first' isFirst'

end Groups

end PageLint
