/-
# PageLint.Proofs.Css.Walk — the pieces of a stylesheet in the order of their visit

The rules are handed the pieces of a stylesheet one by one. A run `Visits` a piece when it begins
with it and then goes over its `parts`, each once and in one go, in whatever order. The parts of a
block are its declarations, comments and nested items, which are kept in three lists; the run takes
them by where they begin (`visits_block`).

No piece begins before one that was visited earlier. The pieces of an item begin within its stretch
(`Spread`), and the stretches of a sheet's items lie one after the other. In a block the sorting
decides: of two entries that begin at the same place the one in front in the three lists stays in
front (`pairwise_mergeSort_of_stable`). A declaration or a comment is a single piece, so it may go
before whatever begins with it, and nested items are in order already.
-/
import PageLint.Lint.Rule
import PageLint.Proofs.Css.Depth
import PageLint.Proofs.Css.Nesting
import PageLint.Proofs.Css.Shift

namespace PageLint

set_option autoImplicit false

open Text

/-! ## Parts of a piece -/

/-- What an item is for the rules. -/
def Css.Item.subject : Css.Item → Subject
  | .style rule => .cssStyleRule rule
  | .atRule rule => .cssAtRule rule
  | .declarations block => .cssBlock block
  | .comment c => .cssComment c

namespace Subject

/-- The pieces that lie directly in a piece of a stylesheet: the items of a list, the block of a
style rule, the block or the list of items of an at-rule, and the entries of a block. -/
def parts : Subject → List Subject
  | cssRuleList items _ => items.map Css.Item.subject
  | cssStyleRule rule => [.cssBlock rule.block]
  | cssAtRule rule =>
    match rule.body with
    | .statement => []
    | .declarations block => [.cssBlock block]
    | .rules _ _ items => [.cssRuleList items (some rule)]
  | cssBlock block =>
    block.declarations.map .cssDeclaration ++ block.comments.map .cssComment ++
      block.nested.map Css.Item.subject
  | _ => []

mutual

/-- **A run visits a piece**: it begins with the piece, and goes on with each of its parts once. -/
inductive Visits : Subject → List Subject → Prop
  | mk {s : Subject} {order run : List Subject} :
    order.Perm s.parts → VisitsEach order run → Visits s (s :: run)

/-- A run visits some pieces one after the other. -/
inductive VisitsEach : List Subject → List Subject → Prop
  | nil : VisitsEach [] []
  | cons {s : Subject} {ss run more : List Subject} :
    Visits s run → VisitsEach ss more → VisitsEach (s :: ss) (run ++ more)

end

mutual

/-- **What a piece hands down to its parts** holds of all that is visited with it. -/
theorem Visits.forall {P : Subject → Prop} (inherits : ∀ s, P s → ∀ part ∈ s.parts, P part)
    {s : Subject} {run : List Subject} : Visits s run → P s → ∀ piece ∈ run, P piece
  | .mk same each, own => List.forall_mem_cons.mpr
    ⟨own, each.forall inherits fun part member => inherits s own part (same.subset member)⟩

theorem VisitsEach.forall {P : Subject → Prop} (inherits : ∀ s, P s → ∀ part ∈ s.parts, P part)
    {ss run : List Subject} : VisitsEach ss run → (∀ s ∈ ss, P s) → ∀ piece ∈ run, P piece
  | .nil, _ => by simp
  | .cons one more, each => by
      obtain ⟨first, others⟩ := List.forall_mem_cons.mp each
      exact List.forall_mem_append.mpr ⟨one.forall inherits first, more.forall inherits others⟩

end

/-- A piece of a stylesheet. -/
def IsCss (s : Subject) : Prop := s.target.language? = some .css

theorem isCss_subject (item : Css.Item) : item.subject.IsCss := by
  cases item <;> rfl

/-- The parts of a piece of a stylesheet are pieces of it. -/
theorem IsCss.parts {s : Subject} (css : s.IsCss) : ∀ part ∈ s.parts, part.IsCss := by
  intro part member
  cases s with
  | cssRuleList items parent =>
      obtain ⟨item, -, rfl⟩ := List.mem_map.mp member
      exact isCss_subject item
  | cssStyleRule rule =>
      rw [List.mem_singleton.mp member]
      rfl
  | cssAtRule rule =>
      rw [Subject.parts] at member
      split at member
      · cases member
      · rw [List.mem_singleton.mp member]
        rfl
      · rw [List.mem_singleton.mp member]
        rfl
  | cssBlock block =>
      simp only [Subject.parts, List.mem_append, List.mem_map] at member
      rcases member with (⟨d, -, rfl⟩ | ⟨c, -, rfl⟩) | ⟨item, -, rfl⟩
      · rfl
      · rfl
      · exact isCss_subject item
  | _ => cases member

/-- The offset at which a piece begins, if it has a stretch. -/
def start? (s : Subject) : Option Nat := s.span?.map (·.start.offset)

end Subject

/-- The offsets at which some pieces begin, in their order. -/
def starts (ss : List Subject) : List Nat := ss.filterMap Subject.start?

open Subject

/-! ## Sorting by place -/

/-- **What sorting leaves in order**: a relation holds between any entry and the later ones if it
holds between any two in the order in which the sorting leaves them. The induction is on the list: its
first entry goes in front of the first one that it may precede. -/
theorem pairwise_mergeSort_of_stable {α : Type} {le : α → α → Bool} {R : α → α → Prop}
    (trans : ∀ a b c, le a b → le b c → le a c) (total : ∀ a b, le a b || le b a) {xs : List α}
    (settled : xs.Pairwise fun a b => if le a b then R a b else R b a) :
    (xs.mergeSort le).Pairwise R := by
  induction xs with
  | nil => simp
  | cons a xs ih =>
      obtain ⟨first, others⟩ := List.pairwise_cons.mp settled
      obtain ⟨front, back, sorted, rest, before⟩ := List.mergeSort_cons trans total a xs
      have ascending := List.pairwise_mergeSort trans total (a :: xs)
      have ordered := ih others
      have member : ∀ b, b ∈ front ++ back → b ∈ xs := by
        intro b inside
        rwa [← rest, List.mem_mergeSort] at inside
      rw [sorted] at ascending ⊢
      rw [rest] at ordered
      obtain ⟨inFront, inBack, across⟩ := List.pairwise_append.mp ordered
      refine List.pairwise_append.mpr ⟨inFront, List.pairwise_cons.mpr ⟨?_, inBack⟩, ?_⟩
      · intro b later
        have goes := first b (member b (List.mem_append_right _ later))
        rwa [if_pos (List.rel_of_pairwise_cons (List.pairwise_append.mp ascending).2.1 later)] at goes
      · intro b earlier c inside
        rcases List.mem_cons.mp inside with rfl | later
        · have goes := first b (member b (List.mem_append_left _ earlier))
          rwa [if_neg (by simpa using before b earlier)] at goes
        · exact across b earlier c later

/-! ## Pieces that begin between two offsets -/

/-- Pieces that begin between two offsets, none before an earlier one. -/
structure Spread (low high : Nat) (ss : List Subject) : Prop where
  room : low ≤ high
  within : ∀ n ∈ starts ss, low ≤ n ∧ n ≤ high
  ascending : (starts ss).Pairwise (· ≤ ·)

section Spreads

variable {low middle high n : Nat} {s : Subject} {ss more : List Subject}

@[simp] theorem starts_append (ss more : List Subject) : starts (ss ++ more) = starts ss ++ starts more :=
  List.filterMap_append

@[simp] theorem starts_flatMap {α : Type} (xs : List α) (f : α → List Subject) :
    starts (xs.flatMap f) = xs.flatMap fun x => starts (f x) :=
  List.filterMap_flatMap

theorem starts_cons (start : s.start? = some n) : starts (s :: ss) = n :: starts ss :=
  List.filterMap_cons_some start

namespace Spread

theorem nil (le : low ≤ high) : Spread low high [] := ⟨le, by simp [starts], .nil⟩

theorem widen (spread : Spread low high ss) {low' high' : Nat} (below : low' ≤ low)
    (above : high ≤ high') : Spread low' high' ss where
  room := below.trans (spread.room.trans above)
  within m member :=
    ⟨below.trans (spread.within m member).1, (spread.within m member).2.trans above⟩
  ascending := spread.ascending

/-- A piece that begins first. -/
theorem cons (spread : Spread low high ss) (start : s.start? = some low) :
    Spread low high (s :: ss) where
  room := spread.room
  within := by
    rw [starts_cons start]
    exact List.forall_mem_cons.mpr ⟨⟨Nat.le_refl _, spread.room⟩, spread.within⟩
  ascending := by
    rw [starts_cons start]
    exact List.pairwise_cons.mpr ⟨fun m member => (spread.within m member).1, spread.ascending⟩

theorem append (first : Spread low middle ss) (second : Spread middle high more) :
    Spread low high (ss ++ more) where
  room := first.room.trans second.room
  within := by
    rw [starts_append, List.forall_mem_append]
    exact ⟨(first.widen (Nat.le_refl _) second.room).within,
      (second.widen first.room (Nat.le_refl _)).within⟩
  ascending := by
    rw [starts_append]
    exact List.pairwise_append.mpr ⟨first.ascending, second.ascending, fun m earlier k later =>
      (first.within m earlier).2.trans (second.within k later).1⟩

end Spread

/-! ### Pieces that are shifted -/

variable {o : Position}

theorem span?_shift (origin : o.Counted) (css : s.IsCss) :
    (s.shift o).span? = s.span?.map (Span.shift o) := by
  cases s with
  | cssRuleList items parent =>
      simp only [Subject.shift, span?, List.head?_map, List.getLast?_map]
      cases items.head? <;> cases items.getLast? <;> simp [Span.shift_join origin]
  | cssStyleRule rule =>
      obtain ⟨selectors, prelude, keyframe, block, span⟩ := rule
      rfl
  | cssAtRule rule =>
      obtain ⟨name, nameSpan, prelude, preludeSpan, preludeTokens, body, span⟩ := rule
      rfl
  | cssBlock block => simp [Subject.shift, span?]
  | cssDeclaration d => rfl
  | cssComment c => rfl
  | _ => cases css

theorem starts_shift (origin : o.Counted) (css : ∀ s ∈ ss, s.IsCss) :
    starts (ss.map (Subject.shift o)) = (starts ss).map (· + o.offset) := by
  rw [starts, starts, List.filterMap_map, List.map_filterMap]
  refine List.filterMap_congr fun s member => ?_
  simp only [Function.comp, start?, span?_shift origin (css s member), Option.map_map]
  rfl

theorem Spread.shift (spread : Spread low high ss) (origin : o.Counted) (css : ∀ s ∈ ss, s.IsCss) :
    Spread (low + o.offset) (high + o.offset) (ss.map (Subject.shift o)) where
  room := Nat.add_le_add_right spread.room _
  within := by
    rw [starts_shift origin css]
    refine List.forall_mem_map.mpr fun n member => ?_
    exact (spread.within n member).imp (Nat.add_le_add_right · _) (Nat.add_le_add_right · _)
  ascending := by
    rw [starts_shift origin css]
    exact List.pairwise_map.mpr (spread.ascending.imp (Nat.add_le_add_right · _))

end Spreads

namespace Css

/-! ## Every piece once -/

section Items

variable {P : Item → Prop}

mutual

/-- **Induction over items**: what holds of an item as soon as it holds of the items inside it holds
of all items. -/
theorem Item.of_children (step : ∀ item : Item, (∀ child ∈ item.children, P child) → P item) :
    (item : Item) → P item
  | .style ⟨_, _, _, ⟨_, _, _, _, nested, _⟩, _⟩ => step _ (items_of_children step nested)
  | .atRule ⟨_, _, _, _, _, .statement, _⟩ => step _ (by simp [Item.children])
  | .atRule ⟨_, _, _, _, _, .declarations ⟨_, _, _, _, nested, _⟩, _⟩ =>
    step _ (items_of_children step nested)
  | .atRule ⟨_, _, _, _, _, .rules _ _ items, _⟩ => step _ (items_of_children step items)
  | .declarations ⟨_, _, _, _, nested, _⟩ => step _ (items_of_children step nested)
  | .comment _ => step _ (by simp [Item.children])

theorem items_of_children (step : ∀ item : Item, (∀ child ∈ item.children, P child) → P item) :
    (items : List Item) → ∀ child ∈ items, P child
  | [] => by simp
  | item :: items =>
    List.forall_mem_cons.mpr ⟨Item.of_children step item, items_of_children step items⟩

end

end Items

/-- The declarations and the comments of a block, each with the offset at which it begins. -/
def Block.singles (block : Block Item) : List (Nat × List Subject) :=
  (block.declarations.map fun d => (d.span.start.offset, [Subject.cssDeclaration d])) ++
    block.comments.map fun c => (c.span.start.offset, [Subject.cssComment c])

/-- The entries of a block, each with the offset at which it begins. -/
def Block.entries (block : Block Item) : List (Nat × List Subject) :=
  block.singles ++ block.nested.map fun item => (item.span.start.offset, item.subjects)

theorem nestedEntries_eq (items : List Item) :
    nestedEntries items = items.map fun item => (item.span.start.offset, item.subjects) := by
  induction items with
  | nil => rfl
  | cons item items ih => rw [nestedEntries, ih, List.map_cons]

theorem itemsSubjects_eq (items : List Item) : itemsSubjects items = items.flatMap Item.subjects := by
  induction items with
  | nil => rfl
  | cons item items ih => rw [itemsSubjects, ih, List.flatMap_cons]

theorem blockSubjects_eq (block : Block Item) : blockSubjects block =
    .cssBlock block :: (block.entries.mergeSort fun a b => a.1 ≤ b.1).flatMap Prod.snd := by
  obtain ⟨opening, closing, declarations, comments, nested, span⟩ := block
  rw [blockSubjects, nestedEntries_eq]
  rfl

section Visit

variable {block : Block Item} {items : List Item}

theorem visits_leaf {s : Subject} (leaf : s.parts = []) : Visits s [s] :=
  have none_ : [].Perm s.parts := .of_eq leaf.symm
  .mk none_ .nil

/-- Runs that visit one piece each, put together. -/
theorem visitsEach_flatMap {α : Type} {xs : List α} {ss : List Subject} {f : α → List Subject}
    (each : List.Forall₂ (fun x s => Visits s (f x)) xs ss) : VisitsEach ss (xs.flatMap f) := by
  induction each with
  | nil => exact .nil
  | cons one _ ih => exact .cons one ih

theorem visitsEach_singleton {s : Subject} {run : List Subject} (visits : Visits s run) :
    VisitsEach [s] run := by
  simpa using VisitsEach.cons visits .nil

/-- **A block is visited**: sorting puts its entries in another order, and loses none. -/
theorem visits_block (nested : ∀ item ∈ block.nested, Visits item.subject item.subjects) :
    Visits (.cssBlock block) (blockSubjects block) := by
  have entries : List.Forall₂ (fun (entry : Nat × List Subject) s => Visits s entry.2) block.entries
      (parts (.cssBlock block)) := by
    refine List.rel_append (List.rel_append ?_ ?_) ?_
    · exact List.forall₂_map_left_iff.mpr (List.forall₂_map_right_iff.mpr
        (List.forall₂_same.mpr fun d _ => visits_leaf rfl))
    · exact List.forall₂_map_left_iff.mpr (List.forall₂_map_right_iff.mpr
        (List.forall₂_same.mpr fun c _ => visits_leaf rfl))
    · exact List.forall₂_map_left_iff.mpr (List.forall₂_map_right_iff.mpr
        (List.forall₂_same.mpr nested))
  obtain ⟨order, visited, same⟩ :=
    List.perm_comp_forall₂ (List.mergeSort_perm block.entries fun a b => a.1 ≤ b.1) entries
  rw [blockSubjects_eq]
  exact .mk same (visitsEach_flatMap visited)

theorem visits_items (each : ∀ item ∈ items, Visits item.subject item.subjects)
    (parent : Option (AtRule Item)) :
    Visits (.cssRuleList items parent) (.cssRuleList items parent :: itemsSubjects items) := by
  rw [itemsSubjects_eq]
  refine .mk (List.Perm.refl _) (visitsEach_flatMap ?_)
  exact List.forall₂_map_right_iff.mpr (List.forall₂_same.mpr each)

/-- **Every item is visited.** -/
theorem visits_item (item : Item) : Visits item.subject item.subjects := by
  refine Item.of_children (P := fun item => Visits item.subject item.subjects) ?_ item
  intro item children
  cases item with
  | style rule =>
      rw [Item.subjects]
      exact .mk (List.Perm.refl _) (visitsEach_singleton (visits_block children))
  | atRule rule =>
      obtain ⟨name, nameSpan, prelude, preludeSpan, preludeTokens, body, span⟩ := rule
      rw [Item.subjects]
      refine .mk (List.Perm.refl _) ?_
      cases body with
      | statement =>
          rw [bodySubjects]
          exact .nil
      | declarations block =>
          rw [bodySubjects]
          exact visitsEach_singleton (visits_block children)
      | rules opening closing items =>
          rw [bodySubjects]
          exact visitsEach_singleton (visits_items children _)
  | declarations block =>
      rw [Item.subjects]
      exact visits_block children
  | comment c =>
      rw [Item.subjects]
      exact visits_leaf rfl

end Visit

/-! ## In the order of the text -/

section Order

variable {src : Source} {item : Item} {items : List Item} {block : Block Item} {low high : Nat}

/-- The pieces of an item begin within its stretch. -/
def Item.Spread (item : Item) : Prop :=
  PageLint.Spread item.span.start.offset item.span.finish.offset item.subjects

/-! ### Entries of a block -/

/-- Entries of which the first one comes with nothing that begins after what the other one comes
with. -/
def GoesBefore (a b : Nat × List Subject) : Prop := ∀ m ∈ starts a.2, ∀ n ∈ starts b.2, m ≤ n

/-- The stretches of the declarations, with their `;`, and of the comments of a block. -/
def Block.reaches (block : Block Item) : List Span :=
  block.declarations.map Declaration.reach ++ block.comments.map Comment.span

/-- The entries of a block lie within it, no declaration and no comment begins inside a nested item,
and nested items are in order. -/
structure Block.Apart (block : Block Item) : Prop where
  forward : block.span.start.offset ≤ block.span.finish.offset
  singles : ∀ s ∈ block.reaches,
    block.span.start.offset ≤ s.start.offset ∧ s.start.offset ≤ block.span.finish.offset
  nested : ∀ item ∈ block.nested, block.span.contains item.span
  apart : ∀ s ∈ block.reaches, ∀ item ∈ block.nested,
    s.start.offset ≤ item.span.start.offset ∨ item.span.finish.offset ≤ s.start.offset
  order : block.nested.Pairwise fun item next => item.span.finish.offset ≤ next.span.start.offset

theorem Block.mem_singles {entry : Nat × List Subject} (member : entry ∈ block.singles) :
    ∃ s ∈ block.reaches, entry.1 = s.start.offset ∧ starts entry.2 = [s.start.offset] := by
  rcases List.mem_append.mp member with declared | annotated
  · obtain ⟨d, found, rfl⟩ := List.mem_map.mp declared
    exact ⟨d.reach, List.mem_append_left _ (List.mem_map_of_mem found), rfl, rfl⟩
  · obtain ⟨c, found, rfl⟩ := List.mem_map.mp annotated
    exact ⟨c.span, List.mem_append_right _ (List.mem_map_of_mem found), rfl, rfl⟩

/-- **Sorting the entries of a block** leaves them in order. -/
theorem Block.Apart.goesBefore (apart : block.Apart) (spread : ∀ item ∈ block.nested, item.Spread) :
    (block.entries.mergeSort fun a b => a.1 ≤ b.1).Pairwise GoesBefore := by
  refine pairwise_mergeSort_of_stable (by simpa using fun a b c => Nat.le_trans)
    (by simpa using fun a b => Nat.le_total a b) ?_
  refine List.pairwise_append.mpr ⟨?_, List.pairwise_map.mpr ?_, ?_⟩
  · refine List.pairwise_of_forall_mem_list fun a inFront b inBack => ?_
    obtain ⟨s, -, start, own⟩ := Block.mem_singles inFront
    obtain ⟨t, -, start', own'⟩ := Block.mem_singles inBack
    simp only [GoesBefore, start, start', own, own', decide_eq_true_eq, List.mem_singleton, forall_eq]
    split <;> omega
  · refine apart.order.imp_of_mem fun {item next} isItem isNext follows => ?_
    have first := spread item isItem
    have second := spread next isNext
    rw [if_pos (by simpa using first.room.trans follows)]
    exact fun m earlier n later =>
      (first.within m earlier).2.trans (follows.trans (second.within n later).1)
  · intro a single b nested
    obtain ⟨s, isReach, start, own⟩ := Block.mem_singles single
    obtain ⟨item, isItem, rfl⟩ := List.mem_map.mp nested
    have inside := spread item isItem
    have away := apart.apart s isReach item isItem
    simp only [GoesBefore, start, own, decide_eq_true_eq, List.mem_singleton, forall_eq]
    split
    next before => exact fun n later => before.trans (inside.within n later).1
    next after => exact fun m earlier => (inside.within m earlier).2.trans (by omega)

/-- **The pieces of a block begin within it**, and none before one that is visited earlier. -/
theorem Block.Apart.spread (apart : block.Apart) (spread : ∀ item ∈ block.nested, item.Spread) :
    PageLint.Spread block.span.start.offset block.span.finish.offset (blockSubjects block) := by
  have each : ∀ entry ∈ block.entries,
      PageLint.Spread block.span.start.offset block.span.finish.offset entry.2 := by
    intro entry member
    rcases List.mem_append.mp member with single | nested
    · obtain ⟨s, isReach, -, own⟩ := Block.mem_singles single
      refine ⟨apart.forward, ?_, ?_⟩ <;> rw [own]
      · exact List.forall_mem_singleton.mpr (apart.singles s isReach)
      · exact List.pairwise_singleton _ _
    · obtain ⟨item, isItem, rfl⟩ := List.mem_map.mp nested
      obtain ⟨starts, ends⟩ := span_contains_iff.mp (apart.nested item isItem)
      exact (spread item isItem).widen starts ends
  have sorted : ∀ entry ∈ block.entries.mergeSort fun a b => a.1 ≤ b.1,
      PageLint.Spread block.span.start.offset block.span.finish.offset entry.2 :=
    fun entry member => each entry (List.mem_mergeSort.mp member)
  rw [blockSubjects_eq]
  refine Spread.cons ⟨apart.forward, ?_, ?_⟩ rfl <;> rw [starts_flatMap]
  · intro n member
    obtain ⟨entry, isEntry, inside⟩ := List.mem_flatMap.mp member
    exact (sorted entry isEntry).within n inside
  · exact List.pairwise_flatMap.mpr
      ⟨fun entry isEntry => (sorted entry isEntry).ascending, apart.goesBefore spread⟩

/-! ### Items that are laid out -/

theorem Weave.third_sublist {all a b c : List Span} (weave : Weave all a b c) : c.Sublist all := by
  induction weave with
  | nil => exact .slnil
  | first _ ih | second _ ih => exact ih.trans (List.sublist_append_left _ _)
  | third _ ih => exact ih.append_right _

/-- The entries of a block that is laid out are in order. -/
theorem Block.Laid.order (laid : block.Laid src) : ∃ all, InOrder all ∧
    (∀ s ∈ block.reaches, s ∈ all) ∧ (block.nested.map Item.span).Sublist all := by
  obtain ⟨all, weave, order⟩ := laid.entries
  refine ⟨all, (inOrder_append.mp (inOrder_append.mp order).2.1).1, fun s member => ?_,
    weave.third_sublist⟩
  exact weave.mem (by rw [← List.append_assoc]; exact List.mem_append_left _ member)

theorem Block.Laid.forward (laid : block.Laid src) (member : item ∈ block.nested) :
    item.span.start.offset ≤ item.span.finish.offset := by
  obtain ⟨all, order, -, nested⟩ := laid.order
  exact order.forward _ (nested.subset (List.mem_map_of_mem member))

theorem Block.Laid.apart (laid : block.Laid src)
    (forward : block.span.start.offset ≤ block.span.finish.offset) : block.Apart := by
  obtain ⟨all, order, singles, nested⟩ := laid.order
  have inside : ∀ s ∈ block.reaches ++ block.nested.map Item.span, block.span.contains s := by
    refine fun s member => laid.inside s (List.mem_append_right _ ?_)
    rw [← List.append_assoc, ← List.append_assoc]
    exact List.mem_append_left _ member
  refine ⟨forward, fun s member => ?_, fun item member => ?_, fun s single item member => ?_, ?_⟩
  · obtain ⟨begins, ends⟩ := span_contains_iff.mp (inside s (List.mem_append_left _ member))
    exact ⟨begins, (order.forward s (singles s member)).trans ends⟩
  · exact inside _ (List.mem_append_right _ (List.mem_map_of_mem member))
  · exact order.apart (singles s single) (nested.subset (List.mem_map_of_mem member))
  · exact List.pairwise_map.mp (order.ordered.sublist nested)

theorem Block.BareLaid.apart (laid : block.BareLaid src)
    (forward : block.span.start.offset ≤ block.span.finish.offset) : block.Apart := by
  obtain ⟨-, -, uncommented, flat⟩ := laid.bare
  refine ⟨forward, fun s member => ?_, by simp [flat], by simp [flat], by simp [flat]⟩
  rw [Block.reaches, uncommented, List.map_nil, List.append_nil] at member
  obtain ⟨d, found, rfl⟩ := List.mem_map.mp member
  obtain ⟨begins, ends⟩ := span_contains_iff.mp (laid.inside d found)
  exact ⟨begins, (laid.declarations d found).forward.trans ends⟩

theorem Item.AllLaid.children (laid : item.AllLaid src) :
    ∀ child ∈ item.children, child.AllLaid src := by
  intro child member n sub inside
  refine laid (n + 1) sub ?_
  rw [itemsAt_singleton]
  exact mem_itemsAt.mpr ⟨child, member, inside⟩

/-- A list of items begins where the first one does. -/
theorem start_ruleList {parent : Option (AtRule Item)}
    (inOrder : InOrder ((item :: items).map Item.span)) :
    (Subject.cssRuleList (item :: items) parent).start? = some item.span.start.offset := by
  have last := List.getLast?_eq_some_getLast (List.cons_ne_nil item items)
  have later := inOrder.start_le
    (List.mem_map_of_mem (f := Item.span) (List.getLast_mem (List.cons_ne_nil item items)))
  simp only [start?, span?, List.head?_cons, last, Option.map_some, Span.join,
    Position.offset_earlier, Nat.min_eq_left later]

/-- **Items one after the other** are visited in order, and so is the list that they make. -/
theorem spread_items {parent : Option (AtRule Item)} (between : Between low high (items.map Item.span))
    (each : ∀ item ∈ items, item.Spread) :
    PageLint.Spread low high (.cssRuleList items parent :: itemsSubjects items) := by
  have spread : ∀ {low} {items : List Item}, Between low high (items.map Item.span) →
      (∀ item ∈ items, item.Spread) → PageLint.Spread low high (itemsSubjects items) := by
    intro low items between each
    induction items generalizing low with
    | nil => exact .nil between.room
    | cons item items ih =>
        obtain ⟨begins, -, later⟩ := between.tail
        obtain ⟨own, others⟩ := List.forall_mem_cons.mp each
        rw [itemsSubjects]
        exact (own.widen begins (Nat.le_refl _)).append (ih later others)
  cases items with
  | nil => exact ⟨between.room, by simp [starts, start?, span?, itemsSubjects], .nil⟩
  | cons item items =>
      obtain ⟨begins, forward, later⟩ := between.tail
      have own : Between item.span.start.offset high ((item :: items).map Item.span) :=
        ⟨forward.trans later.room, between.inOrder, fun s member =>
          ⟨between.inOrder.start_le member, (between.within s member).2⟩⟩
      exact ((spread own each).cons (start_ruleList between.inOrder)).widen begins (Nat.le_refl _)

/-- **The pieces of an item that is laid out begin within it**, and none before one that is visited
earlier. -/
theorem Item.AllLaid.spread (laid : item.AllLaid src)
    (forward : item.span.start.offset ≤ item.span.finish.offset) : item.Spread := by
  revert laid forward
  refine Item.of_children (P := fun item => item.AllLaid src →
    item.span.start.offset ≤ item.span.finish.offset → item.Spread) ?_ item
  intro item step laid forward
  have own := laid.own
  have nested : ∀ {block : Block Item}, block.Laid src → block.nested = item.children →
      block.span.start.offset ≤ block.span.finish.offset →
      PageLint.Spread block.span.start.offset block.span.finish.offset (blockSubjects block) := by
    intro block laidBlock same forward
    refine (laidBlock.apart forward).spread fun child member => ?_
    have isChild := same ▸ member
    exact step child isChild (laid.children child isChild) (laidBlock.forward member)
  cases item with
  | style rule =>
      have rule_ : rule.Laid src := own
      obtain ⟨begins, ends⟩ := span_contains_iff.mp (rule_.inside rule.block.span (by simp))
      have block := nested rule_.block rfl (rule_.order.forward rule.block.span (by simp))
      rw [Item.Spread, Item.subjects]
      exact (block.widen begins ends).cons rfl
  | atRule rule =>
      have rule_ : rule.Laid src := own
      obtain ⟨name, nameSpan, prelude, preludeSpan, preludeTokens, body, span⟩ := rule
      rw [Item.Spread, Item.subjects]
      refine Spread.cons ?_ rfl
      cases body with
      | statement =>
          rw [bodySubjects]
          exact .nil forward
      | declarations block =>
          obtain ⟨begins, ends⟩ := span_contains_iff.mp (rule_.inside block.span (by simp [Body.spans]))
          have inside := nested (rule_.block block rfl) rfl
            (rule_.order.forward block.span (by simp [Body.spans]))
          rw [bodySubjects]
          exact inside.widen begins ends
      | rules opening closing items =>
          have among : (items.map Item.span).Sublist (nameSpan :: (preludeSpan.toList ++
              Body.spans (.rules opening closing items))) := by
            refine .cons _ ((List.Sublist.cons _ ?_).trans (List.sublist_append_right _ _))
            exact List.sublist_append_left _ _
          have order := rule_.order.sublist among
          rw [bodySubjects]
          refine spread_items ⟨forward, order, fun s member => ?_⟩ fun child member => ?_
          · exact span_contains_iff.mp (rule_.inside s (among.subset member))
          · exact step child member (laid.children child member)
              (order.forward _ (List.mem_map_of_mem member))
  | declarations block =>
      have bare : block.BareLaid src := own
      rw [Item.Spread, Item.subjects]
      exact (bare.apart forward).spread (by simp [bare.bare.2.2.2])
  | comment c =>
      rw [Item.Spread, Item.subjects]
      exact (Spread.nil forward).cons rfl

end Order

/-! ## Stylesheets -/

namespace Sheet

/-- The items of a stylesheet are laid out, one after the other, up to the end of the text. -/
theorem row_ofText (cs : List Char) : Row ⟨cs⟩ 0 (bytes cs) (Sheet.ofText cs .start).items.reverse := by
  have bound := finish_le_last cs
  have room : (((tokenize cs .start).getLast?.map Token.span).getD (.emptyAt .start)).finish.offset ≤
      bytes cs := by
    cases final : (tokenize cs .start).getLast? with
    | none => exact Nat.zero_le _
    | some t =>
        have covered := (spells_tokenize cs).reads.covers (List.mem_of_getLast? final)
        simpa [Passage.whole, Position.start] using covered.finish.offset_le
  simp only [Sheet.ofText, buildItems, Builder.finish, List.reverse_reverse]
  generalize (((tokenize cs .start).getLast?.map Token.span).getD (.emptyAt .start)).finish = last
    at bound room ⊢
  have run := Builder.run_laid depthCap last .empty (tokenize cs .start) Builder.laid_empty
    ⟨spells_tokenize cs, keyed_tokenize .start, fun _ _ => Nat.zero_le _, bound⟩ (Nat.zero_le _)
  generalize (Builder.empty.run depthCap last (tokenize cs .start)).1 = done at run ⊢
  have closed := Builder.closeMany_laid done.stack.length run
  rw [Builder.Laid, (Builder.closeMany_all last _ rfl (Nat.le_refl _)).1] at closed
  exact Row.mono closed room

/-- The pieces of a stylesheet begin within the text, and none before one that is visited earlier. -/
theorem spread (cs : List Char) : Spread 0 (bytes cs) (Sheet.ofText cs .start).subjects := by
  have row := row_ofText cs
  have order := row.order
  rw [List.reverse_reverse] at order
  refine spread_items order fun item member => ?_
  exact (row.laid item (List.mem_reverse.mpr member)).spread
    (order.inOrder.forward _ (List.mem_map_of_mem member))

/-- All pieces of a stylesheet are pieces of one. -/
theorem isCss_subjects (sheet : Sheet) : ∀ s ∈ sheet.subjects, s.IsCss :=
  (visits_items (fun item _ => visits_item item) none).forall (fun _ css => css.parts) rfl

/-- The same goes for a stylesheet that is read where it stands. -/
theorem spread_from {o : Position} (origin : o.Counted) (cs : List Char) :
    Spread o.offset (o.offset + bytes cs) (Sheet.ofText cs o).subjects := by
  have alone := (spread cs).shift origin (isCss_subjects _)
  rwa [← subjects_shift, ← ofText_shift origin, Nat.zero_add, Nat.add_comm] at alone

/-- **A stylesheet is visited in the order of its text**, however broken it is: first the list of its
items, then every rule, block, declaration and comment once, each after what it lies in, with one list
of items for each at-rule that holds items; and no piece begins before one that was visited earlier. -/
theorem visited_in_order (cs : List Char) :
    Visits (.cssRuleList (Sheet.ofText cs .start).items none) (Sheet.ofText cs .start).subjects ∧
      (starts (Sheet.ofText cs .start).subjects).Pairwise (· ≤ ·) := by
  refine ⟨visits_items (fun item _ => visits_item item) none, ?_⟩
  exact (spread cs).ascending

end Sheet

end Css

end PageLint
