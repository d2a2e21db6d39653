/-
# PageLint.Proofs.Css.Building — what the builder keeps in place

Every stretch of a stylesheet is made from its tokens: it is the stretch of one, it runs
from the first to the last of some, or it runs from one to a later one. The tokens of a
declaration, of a prelude and of a selector are picked out of those that follow each other,
in order (`trimTrivia_sublist`, `flatMap_splitAtCommas`), so what is made from them is in
its place.

`Builder.Placed` is what one step keeps, given that the tokens from there on are read in
the passage (`step_placed`), and so what a whole run keeps (`run_placed`). A stylesheet that
stands in a passage therefore has all its subjects placed there, and all its faults covered
(`Sheet.placed_ofText`, `Sheet.covers_issue`).
-/
import PageLint.Proofs.Lint.Placed

namespace PageLint.Css

set_option autoImplicit false

open Text

variable {g : Passage} {ts : Tokens} {t : Token TokenKind}

/-! ## Picking tokens out -/

theorem trimTriviaEnd_leads (ts : Tokens) : trimTriviaEnd ts <+: ts := by
  induction ts with
  | nil => exact List.prefix_rfl
  | cons t ts ih =>
      rw [trimTriviaEnd]
      split
      · split
        · exact List.nil_prefix
        · exact ⟨ts, rfl⟩
      · exact List.cons_prefix_cons.mpr ⟨rfl, ih⟩

theorem trimTrivia_within (ts : Tokens) : trimTrivia ts <:+: ts :=
  (trimTriviaEnd_leads _).isInfix.trans (List.dropWhile_suffix isTrivia).isInfix

theorem trimTrivia_sublist (ts : Tokens) : (trimTrivia ts).Sublist ts :=
  (trimTrivia_within ts).sublist

theorem mem_take_of_getElem? {n : Nat} (found : ts[n]? = some t) : t ∈ ts.take (n + 1) := by
  rw [List.take_add_one, found]
  simp

/-- **Cutting at commas loses nothing.** -/
theorem flatMap_splitAtCommas (depth : Nat) (ts : Tokens) :
    (splitAtCommas depth ts).flatMap (fun part => part.1 ++ part.2.toList) = ts := by
  induction ts generalizing depth with
  | nil => rfl
  | cons t ts ih =>
      rw [splitAtCommas]
      split
      · simp [ih]
      · dsimp only
        generalize (if opensBracket t then depth + 1 else if closesBracket t then depth - 1
          else depth) = depth'
        have whole := ih depth'
        split
        next part comma parts parted =>
          rw [parted] at whole
          simpa using whole
        next parted =>
          rw [parted] at whole
          rw [← whole]
          rfl

/-! ## Selectors -/

/-- What one part of a prelude adds to the selectors and to the faults. -/
def addPart (last : Token TokenKind) (part : Tokens × Option (Token TokenKind))
    (read : List Selector × List Issue) : List Selector × List Issue :=
  match spanOf? (trimTrivia part.1) with
  | some span => (⟨textOf (trimTrivia part.1), span, trimTrivia part.1⟩ :: read.1, read.2)
  | none => (read.1, ⟨.emptySelector, (part.2.getD last).span⟩ :: read.2)

theorem readSelectors_eq (prelude : Tokens) : readSelectors prelude =
    match prelude.getLast? with
    | none => ([], [])
    | some last => (splitAtCommas 0 prelude).foldr (addPart last) ([], []) := rfl

/-- The induction is on the parts; that later selectors begin at later tokens carries it. -/
theorem addParts_placed {last : Token TokenKind} (covered : g.Covers last.span)
    (parts : List (Tokens × Option (Token TokenKind)))
    (reads : g.Reads (parts.flatMap fun part => part.1 ++ part.2.toList)) :
    SelectorsPlaced g (parts.foldr (addPart last) ([], [])).1 ∧
      (∀ s ∈ (parts.foldr (addPart last) ([], [])).1,
        ∃ t ∈ parts.flatMap (fun part => part.1 ++ part.2.toList), s.span.start = t.span.start) ∧
      ∀ issue ∈ (parts.foldr (addPart last) ([], [])).2, g.Covers issue.span := by
  induction parts with
  | nil => exact ⟨⟨by simp, .nil⟩, by simp, by simp⟩
  | cons part parts ih =>
      rw [List.flatMap_cons] at reads
      have later := reads.sublist (List.sublist_append_right _ _)
      obtain ⟨placed, starts, issues⟩ := ih later
      have own : g.Reads (trimTrivia part.1) := reads.sublist <|
        (trimTrivia_sublist part.1).trans <| (List.sublist_append_left _ _).trans
          (List.sublist_append_left _ _)
      rw [List.foldr_cons, addPart]
      split
      next span found =>
        obtain ⟨first, isFirst, final, isFinal, rfl⟩ := spanOf?_eq_some found
        have inPart : ∀ u ∈ trimTrivia part.1, u ∈ part.1 ++ part.2.toList := fun u member =>
          List.mem_append_left _ ((trimTrivia_sublist part.1).subset member)
        refine ⟨⟨?_, List.pairwise_cons.mpr ⟨?_, placed.ordered⟩⟩, ?_, issues⟩
        · intro s member
          rcases List.mem_cons.mp member with rfl | member
          · exact ⟨own.covers_spanOf? found, own⟩
          · exact placed.each s member
        · intro s member
          obtain ⟨u, isLater, start⟩ := starts s member
          rw [start]
          exact (List.pairwise_append.mp reads.ordered).2.2 final (inPart final isFinal) u isLater
        · intro s member
          rcases List.mem_cons.mp member with rfl | member
          · exact ⟨first, List.mem_append_left _ (inPart first isFirst), rfl⟩
          · obtain ⟨u, isLater, start⟩ := starts s member
            exact ⟨u, List.mem_append_right _ isLater, start⟩
      next =>
        refine ⟨placed, ?_, ?_⟩
        · intro s member
          obtain ⟨u, isLater, start⟩ := starts s member
          exact ⟨u, List.mem_append_right _ isLater, start⟩
        · intro issue member
          rcases List.mem_cons.mp member with rfl | member
          · cases comma : part.2 with
            | none => exact covered
            | some u =>
                apply reads.covers
                exact List.mem_append_left _ (List.mem_append_right _ (by simp [comma]))
          · exact issues issue member

theorem readSelectors_placed {prelude : Tokens} (reads : g.Reads prelude) :
    SelectorsPlaced g (readSelectors prelude).1 ∧
      ∀ issue ∈ (readSelectors prelude).2, g.Covers issue.span := by
  rw [readSelectors_eq]
  cases final : prelude.getLast? with
  | none => exact ⟨⟨by simp, .nil⟩, by simp⟩
  | some last =>
      have covered := reads.covers (List.mem_of_getLast? final)
      obtain ⟨placed, -, issues⟩ := addParts_placed covered (splitAtCommas 0 prelude)
        (by rwa [flatMap_splitAtCommas])
      exact ⟨placed, issues⟩

/-! ## Declarations -/

/-- What is kept of a value comes before the tokens of its mark of importance, without a gap in
itself. -/
theorem splitImportant_parts (value : Tokens) : ∃ mark : Tokens,
    (splitImportant value).2 = spanOf? mark ∧ ((splitImportant value).1 ++ mark).Sublist value ∧
      (splitImportant value).1 <:+: value := by
  have whole : value.reverse.reverse = value := List.reverse_reverse value
  have nothing : ∃ mark : Tokens, (none : Option Span) = spanOf? mark ∧
      (value ++ mark).Sublist value ∧ value <:+: value := ⟨[], rfl, by simp, List.infix_rfl⟩
  rw [splitImportant]
  split
  · exact nothing
  next word before reversed =>
    rw [reversed] at whole
    split
    · exact nothing
    split
    · exact nothing
    next bang front =>
      simp only [List.reverse_cons, List.append_assoc, List.singleton_append] at whole
      split
      · rw [← whole]
        refine ⟨[bang, word], rfl, (trimTrivia_sublist _).append_right _, ?_⟩
        exact (trimTrivia_within _).trans (List.prefix_append _ _).isInfix
      split
      · exact nothing
      next sign front =>
        simp only [List.reverse_cons, List.append_assoc, List.singleton_append] at whole
        split
        · rw [← whole]
          refine ⟨[sign, bang, word], rfl, (trimTrivia_sublist _).append_right _, ?_⟩
          exact (trimTrivia_within _).trans (List.prefix_append _ _).isInfix
        · exact nothing

theorem splitImportant_placed {value : Tokens} (reads : g.Reads value) :
    (splitImportant value).1.Sublist value ∧
      ∀ s ∈ (splitImportant value).2, g.Covers s ∧ ∃ u ∈ value, s.finish = u.span.finish := by
  obtain ⟨mark, span, both, kept⟩ := splitImportant_parts value
  have inside := (List.sublist_append_right _ mark).trans both
  refine ⟨kept.sublist, ?_⟩
  intro s found
  rw [span] at found
  obtain ⟨first, -, last, isLast, same⟩ := spanOf?_eq_some found
  exact ⟨(reads.sublist inside).covers_spanOf? found, last, inside.subset isLast, by rw [same]⟩

/-- From the property to the last thing read of a declaration. -/
theorem covers_through {property : Token TokenKind} {rest value : Tokens} {s : Option Span}
    {colon : Token TokenKind} (reads : g.Reads (property :: rest)) (isColon : colon ∈ rest)
    (inside : ∀ u ∈ value, u ∈ rest) (mark : ∀ i ∈ s, ∃ u ∈ rest, i.finish = u.span.finish) :
    g.Covers ⟨property.span.start, ((s.or (spanOf? value)).getD colon.span).finish⟩ := by
  have through : ∃ u ∈ rest, ((s.or (spanOf? value)).getD colon.span).finish = u.span.finish := by
    cases s with
    | some i => exact mark i rfl
    | none =>
        rw [Option.none_or]
        cases found : spanOf? value with
        | none => exact ⟨colon, isColon, rfl⟩
        | some v =>
            obtain ⟨first, -, last, isLast, rfl⟩ := spanOf?_eq_some found
            exact ⟨last, inside last isLast, rfl⟩
  obtain ⟨u, member, same⟩ := through
  rw [same]
  exact reads.covers_between (List.mem_cons_of_mem _ member)

theorem read?_placed {property : Token TokenKind} {rest : Tokens} {d : Declaration} {n : Nat}
    (reads : g.Reads (property :: rest)) (read : Declaration.read? property rest = some (d, n)) :
    d.Placed g := by
  simp only [Declaration.read?] at read
  split at read
  · simp at read
  next colon after left =>
    split at read
    · have within : (colon :: after).Sublist rest := by
        rw [← left]
        exact List.drop_sublist _ _
      have isColon : colon ∈ rest := within.subset List.mem_cons_self
      have tail : g.Reads rest := reads.sublist (List.sublist_cons_self _ _)
      have inner : (trimTrivia (after.take (valueExtent 0 after))).Sublist rest :=
        (trimTrivia_sublist _).trans <| (List.take_sublist _ _).trans <|
          (List.sublist_cons_self _ _).trans within
      have value := tail.sublist inner
      obtain ⟨kept, mark⟩ := splitImportant_placed value
      obtain ⟨rfl, -⟩ := Prod.mk.inj (Option.some.inj read)
      exact
        { property := reads.covers List.mem_cons_self
          colon := tail.covers isColon
          value := fun s found => (value.sublist kept).covers_spanOf? found
          tokens := value.sublist kept
          important := fun s found => (mark s found).1
          span := by
            refine covers_through reads isColon (fun u member => inner.subset (kept.subset member)) ?_
            intro i found
            obtain ⟨-, u, member, same⟩ := mark i found
            exact ⟨u, inner.subset member, same⟩ }
    · simp at read

/-! ## Open blocks -/

structure AtHead.Placed (g : Passage) (head : AtHead) : Prop where
  name : g.Covers head.nameSpan
  tokens : g.Reads head.prelude

def Owner.Placed (g : Passage) : Owner → Prop
  | .style selectors prelude _ => SelectorsPlaced g selectors ∧ ∀ s ∈ prelude, g.Covers s
  | .atRule head => head.Placed g

/-- An open block and all that it contains so far are in their places. -/
def Frame.Placed (g : Passage) : Frame → Prop
  | .rules head opening items =>
    head.Placed g ∧ g.Covers opening ∧ ∀ item ∈ items, item.Placed g
  | .block owner opening declarations comments nested =>
    owner.Placed g ∧ g.Covers opening ∧ (∀ d ∈ declarations, d.Placed g) ∧
      (∀ c ∈ comments, c.Placed g) ∧ ∀ item ∈ nested, item.Placed g

/-- **What every step keeps**: all that is built so far is in its place. -/
structure Builder.Placed (g : Passage) (b : Builder) : Prop where
  stack : ∀ frame ∈ b.stack, frame.Placed g
  top : ∀ item ∈ b.top, item.Placed g

/-- A step's state is placed, and what it says is wrong is covered. -/
structure Outcome.Placed (g : Passage) (o : Outcome) : Prop where
  builder : o.builder.Placed g
  issues : ∀ issue ∈ o.issues, g.Covers issue.span

theorem AtHead.Placed.toRule {head : AtHead} (placed : head.Placed g) {body : Body Item}
    (finish : Position) (inside : body.Placed g)
    (opening : ∀ s ∈ (head.toRule body finish).opening?, g.Covers s) :
    (Item.atRule (head.toRule body finish)).Placed g := by
  refine placed_atRule ⟨placed.name, ?_, placed.tokens, opening⟩ inside
  intro s found
  exact placed.tokens.covers_spanOf? found

theorem Owner.Placed.toItem {owner : Owner} {block : Block Item} (placed : owner.Placed g)
    (inside : Block.Placed g block) (opening : ∃ s ∈ block.opening, g.Covers s) :
    (owner.toItem block).Placed g := by
  cases owner with
  | style selectors prelude keyframe =>
      obtain ⟨selectors, prelude⟩ := placed
      exact placed_style ⟨selectors, prelude, opening⟩ inside
  | atRule head =>
      refine AtHead.Placed.toRule placed _ inside ?_
      intro s found
      obtain ⟨s', found', covered⟩ := opening
      have same : s' = s := Option.some.inj (found'.symm.trans found)
      rwa [← same]

theorem Frame.Placed.close {frame : Frame} (placed : frame.Placed g) (closing : Option Span)
    (last : Position) : (frame.close closing last).Placed g := by
  cases frame with
  | rules head opening items =>
      obtain ⟨head, opening, items⟩ := placed
      refine head.toRule _ (fun item member => items item (List.mem_reverse.mp member)) ?_
      rintro s ⟨⟩
      exact opening
  | block owner opening declarations comments nested =>
      obtain ⟨owner, covered, declarations, comments, nested⟩ := placed
      refine owner.toItem ⟨?_, ?_, ?_⟩ ⟨opening, rfl, covered⟩
      · exact fun d member => declarations d (List.mem_reverse.mp member)
      · exact fun c member => comments c (List.mem_reverse.mp member)
      · exact fun item member => nested item (List.mem_reverse.mp member)

theorem Frame.Placed.opening {frame : Frame} (placed : frame.Placed g) : g.Covers frame.opening := by
  cases frame with
  | rules head opening items => exact placed.2.1
  | block owner opening declarations comments nested => exact placed.2.1

/-! ## What the builder does to its open blocks -/

namespace Builder

variable {b : Builder} {item : Item} {d : Declaration} {c : Comment}

theorem placed_empty : Builder.empty.Placed g := ⟨by simp [empty], by simp [empty]⟩

theorem Placed.addItem (placed : b.Placed g) (own : item.Placed g) : (b.addItem item).Placed g := by
  obtain ⟨stack, top⟩ := placed
  rw [Builder.addItem]
  split
  next => exact ⟨stack, List.forall_mem_cons.mpr ⟨own, top⟩⟩
  next head opening items outer held =>
    rw [held, List.forall_mem_cons] at stack
    obtain ⟨⟨head, opening, items⟩, outer⟩ := stack
    exact ⟨List.forall_mem_cons.mpr
      ⟨⟨head, opening, List.forall_mem_cons.mpr ⟨own, items⟩⟩, outer⟩, top⟩
  next owner opening declarations comments nested outer held =>
    rw [held, List.forall_mem_cons] at stack
    obtain ⟨⟨owner, opening, declarations, comments, nested⟩, outer⟩ := stack
    exact ⟨List.forall_mem_cons.mpr
      ⟨⟨owner, opening, declarations, comments, List.forall_mem_cons.mpr ⟨own, nested⟩⟩, outer⟩, top⟩

theorem Placed.addComment (placed : b.Placed g) (own : c.Placed g) : (b.addComment c).Placed g := by
  rw [Builder.addComment]
  split
  next owner opening declarations comments nested outer held =>
    obtain ⟨stack, top⟩ := placed
    rw [held, List.forall_mem_cons] at stack
    obtain ⟨⟨owner, opening, declarations, comments, nested⟩, outer⟩ := stack
    exact ⟨List.forall_mem_cons.mpr
      ⟨⟨owner, opening, declarations, List.forall_mem_cons.mpr ⟨own, comments⟩, nested⟩, outer⟩, top⟩
  next => exact placed.addItem (placed_comment own)

theorem addBare_placed {items : List Item} (placed : ∀ item ∈ items, item.Placed g)
    (own : d.Placed g) : ∀ item ∈ addBare d items, item.Placed g := by
  rw [addBare.eq_def]
  split
  next block items =>
    rw [List.forall_mem_cons] at placed ⊢
    obtain ⟨first, others⟩ := placed
    refine ⟨placed_declarations ⟨?_, ?_, ?_⟩, others⟩
    · intro e member
      rcases List.mem_append.mp member with member | member
      · refine first (.cssDeclaration e) ?_
        rw [Item.subjects, mem_blockSubjects]
        exact .inr (.inl ⟨e, member, rfl⟩)
      · rw [List.mem_singleton.mp member]
        exact own
    · intro c member
      refine first (.cssComment c) ?_
      rw [Item.subjects, mem_blockSubjects]
      exact .inr (.inr (.inl ⟨c, member, rfl⟩))
    · intro item member s inside
      refine first s ?_
      rw [Item.subjects, mem_blockSubjects]
      exact .inr (.inr (.inr ⟨item, member, inside⟩))
  next =>
    refine List.forall_mem_cons.mpr ⟨placed_declarations ⟨?_, by simp, by simp⟩, placed⟩
    intro e member
    rw [List.mem_singleton.mp member]
    exact own

theorem Placed.addDeclaration (placed : b.Placed g) (own : d.Placed g) :
    (b.addDeclaration d).Placed g := by
  obtain ⟨stack, top⟩ := placed
  rw [Builder.addDeclaration]
  split
  next => exact ⟨stack, addBare_placed top own⟩
  next head opening items outer held =>
    rw [held, List.forall_mem_cons] at stack
    obtain ⟨⟨head, opening, items⟩, outer⟩ := stack
    exact ⟨List.forall_mem_cons.mpr ⟨⟨head, opening, addBare_placed items own⟩, outer⟩, top⟩
  next owner opening declarations comments nested outer held =>
    rw [held, List.forall_mem_cons] at stack
    obtain ⟨⟨owner, opening, declarations, comments, nested⟩, outer⟩ := stack
    exact ⟨List.forall_mem_cons.mpr
      ⟨⟨owner, opening, List.forall_mem_cons.mpr ⟨own, declarations⟩, comments, nested⟩, outer⟩, top⟩

theorem Placed.close (placed : b.Placed g) (closing : Option Span) (last : Position) :
    (b.close closing last).Placed g := by
  rw [Builder.close]
  split
  next => exact placed
  next frame outer held =>
    obtain ⟨stack, top⟩ := placed
    rw [held, List.forall_mem_cons] at stack
    exact Placed.addItem ⟨stack.2, top⟩ (stack.1.close closing last)

theorem Placed.openBlock {frame : Frame} (placed : b.Placed g) (own : frame.Placed g) (cap : Nat)
    (last : Position) (inside : Tokens) : (b.openBlock cap last frame inside).Placed g := by
  simp only [Builder.openBlock]
  split
  · refine ⟨placed.addItem ?_, ?_⟩
    · cases frame with
      | rules head opening items =>
          obtain ⟨head, opening, -⟩ := own
          refine head.toRule _ (fun item none_ => absurd none_ (by simp)) ?_
          rintro s ⟨⟩
          exact opening
      | block owner opening declarations comments nested => exact own.close _ _
    · intro issue member
      rcases List.mem_cons.mp member with rfl | member
      · exact own.opening
      · split at member
        · rw [List.mem_singleton.mp member]
          exact own.opening
        · simp at member
  · exact ⟨⟨List.forall_mem_cons.mpr ⟨own, placed.stack⟩, placed.top⟩, by simp⟩

/-! ## Steps -/

variable {rest here : Tokens} {opening : Span}

theorem Placed.openStyle (placed : b.Placed g) (reads : g.Reads here) (covered : g.Covers opening)
    (cap : Nat) (last : Position) (keyframe : Bool) (n : Nat) :
    (b.openStyle cap last keyframe n opening here).Placed g := by
  have prelude : g.Reads (trimTrivia (here.take n)) :=
    reads.sublist ((trimTrivia_sublist _).trans (List.take_sublist _ _))
  obtain ⟨selectors, issues⟩ := readSelectors_placed prelude
  have own : Frame.Placed g (.block (.style (readSelectors (trimTrivia (here.take n))).1
      (spanOf? (trimTrivia (here.take n))) keyframe) opening [] [] []) :=
    ⟨⟨selectors, fun s found => prelude.covers_spanOf? found⟩, covered, by simp, by simp, by simp⟩
  have opened := placed.openBlock own cap last (here.drop (n + 1))
  refine ⟨opened.builder, ?_⟩
  intro issue member
  rcases List.mem_append.mp member with member | member
  · exact issues issue member
  · exact opened.issues issue member

theorem covers_getElem (reads : g.Reads (t :: rest)) (n : Nat) :
    g.Covers ((((t :: rest)[n]?).map Token.span).getD t.span) := by
  cases found : (t :: rest)[n]? with
  | none => exact reads.covers List.mem_cons_self
  | some u => exact reads.covers (List.mem_of_getElem? found)

theorem Placed.takeAtRule (placed : b.Placed g) (reads : g.Reads (t :: rest)) (cap : Nat)
    (last : Position) : (b.takeAtRule cap last t rest).Placed g := by
  have tail : g.Reads rest := reads.sublist (List.sublist_cons_self _ _)
  have inner : (trimTrivia (rest.take (preludeExtent 0 rest))).Sublist rest :=
    (trimTrivia_sublist _).trans (List.take_sublist _ _)
  have name := reads.covers List.mem_cons_self
  have head : AtHead.Placed g ⟨lowerAscii (t.text.drop 1), t.span,
      trimTrivia (rest.take (preludeExtent 0 rest))⟩ := ⟨name, tail.sublist inner⟩
  have statement : ∀ finish, (Item.atRule (AtHead.toRule ⟨lowerAscii (t.text.drop 1), t.span,
      trimTrivia (rest.take (preludeExtent 0 rest))⟩ .statement finish)).Placed g := fun finish =>
    head.toRule finish trivial (by rintro s ⟨⟩)
  have broken : g.Covers ⟨t.span.start, AtHead.finish ⟨lowerAscii (t.text.drop 1), t.span,
      trimTrivia (rest.take (preludeExtent 0 rest))⟩⟩ := by
    rw [AtHead.finish]
    cases found : spanOf? (trimTrivia (rest.take (preludeExtent 0 rest))) with
    | none => exact name
    | some s =>
        obtain ⟨first, -, final, isFinal, rfl⟩ := spanOf?_eq_some found
        exact reads.covers_between (List.mem_cons_of_mem _ (inner.subset isFinal))
  simp only [Builder.takeAtRule]
  split
  next => exact ⟨placed.addItem (statement _), List.forall_mem_singleton.mpr broken⟩
  next e found =>
    have ending := tail.covers (List.mem_of_getElem? found)
    split
    · exact ⟨placed.addItem (statement _), by simp⟩
    split
    · have own : Frame.Placed g (if declarationAtRules.contains (lowerAscii (t.text.drop 1)) then
          .block (.atRule ⟨lowerAscii (t.text.drop 1), t.span,
            trimTrivia (rest.take (preludeExtent 0 rest))⟩) e.span [] [] []
          else .rules ⟨lowerAscii (t.text.drop 1), t.span,
            trimTrivia (rest.take (preludeExtent 0 rest))⟩ e.span []) := by
        split
        · exact ⟨head, ending, by simp, by simp, by simp⟩
        · exact ⟨head, ending, by simp⟩
      have opened := placed.openBlock own cap last (rest.drop (preludeExtent 0 rest + 1))
      exact ⟨opened.builder, opened.issues⟩
    · exact ⟨placed.addItem (statement _), List.forall_mem_singleton.mpr broken⟩

theorem Placed.takeRule (placed : b.Placed g) (reads : g.Reads (t :: rest)) (cap : Nat)
    (last : Position) : (b.takeRule cap last t rest).Placed g := by
  simp only [Builder.takeRule]
  split
  · exact placed.openStyle reads (covers_getElem reads _) cap last _ _
  split
  next d taken read => exact ⟨placed.addDeclaration (read?_placed reads read), by simp⟩
  next =>
    split
    next span found =>
      have skipped : g.Reads (trimTrivia ((t :: rest).take (preludeExtent 0 (t :: rest)))) :=
        reads.sublist ((trimTrivia_sublist _).trans (List.take_sublist _ _))
      exact ⟨placed, List.forall_mem_singleton.mpr (skipped.covers_spanOf? found)⟩
    next => exact ⟨placed, by simp⟩

theorem Placed.takeEntry (placed : b.Placed g) (reads : g.Reads (t :: rest)) (cap : Nat)
    (last : Position) : (b.takeEntry cap last t rest).Placed g := by
  simp only [Builder.takeEntry]
  split
  · exact placed.openStyle reads (covers_getElem reads _) cap last _ _
  split
  next d taken read => exact ⟨placed.addDeclaration (read?_placed reads read), by simp⟩
  next =>
    split
    next first span _ found =>
      have skipped : g.Reads (trimTrivia ((t :: rest).take (entryExtent 0 (t :: rest)))) :=
        reads.sublist ((trimTrivia_sublist _).trans (List.take_sublist _ _))
      exact ⟨placed, List.forall_mem_singleton.mpr (skipped.covers_spanOf? found)⟩
    next => exact ⟨placed, by simp⟩

theorem step_placed (placed : b.Placed g) (reads : g.Reads (t :: rest)) (cap : Nat)
    (last : Position) : (b.step cap last t rest).Placed g := by
  have own := reads.shows t List.mem_cons_self
  rw [Builder.step]
  split
  · exact ⟨placed, by simp⟩
  · exact ⟨placed, by simp⟩
  · exact ⟨placed.addComment own, by simp⟩
  · split
    · exact ⟨placed, List.forall_mem_singleton.mpr own.covers⟩
    · exact ⟨placed.close _ _, by simp⟩
  · exact placed.takeAtRule reads cap last
  · split
    · exact placed.takeEntry reads cap last
    split
    · exact ⟨placed, by simp⟩
    · exact placed.takeRule reads cap last

/-- **What a run keeps.** -/
theorem run_placed (cap : Nat) (last : Position) (b : Builder) (ts : Tokens) (placed : b.Placed g)
    (reads : g.Reads ts) :
    (b.run cap last ts).1.Placed g ∧ ∀ issue ∈ (b.run cap last ts).2, g.Covers issue.span := by
  fun_induction Builder.run cap last b ts with
  | case1 b => exact ⟨placed, by simp⟩
  | case2 b t rest s done issues run ih =>
      have step := step_placed placed reads cap last
      have later : g.Reads (rest.drop s.more) :=
        reads.sublist ((List.drop_sublist _ _).trans (List.sublist_cons_self _ _))
      obtain ⟨builder, further⟩ := ih step.builder later
      rw [run] at builder further
      refine ⟨builder, ?_⟩
      intro issue member
      rcases List.mem_append.mp member with member | member
      · exact step.issues issue member
      · exact further issue member

theorem closeMany_placed (last : Position) (n : Nat) (placed : b.Placed g) :
    (closeMany last n b).Placed g := by
  induction n generalizing b with
  | zero => exact placed
  | succ n ih => exact ih (placed.close none last)

end Builder

/-! ## Stylesheets -/

theorem covers_tokenIssue {ts : Tokens} (reads : g.Reads ts) :
    ∀ issue ∈ tokenIssues ts, g.Covers issue.span := by
  intro issue member
  obtain ⟨t, found, fault⟩ := List.mem_filterMap.mp member
  obtain ⟨f, -, rfl⟩ := Option.map_eq_some_iff.mp fault
  exact reads.covers found

theorem buildItems_placed (cap : Nat) (reads : g.Reads ts) :
    (∀ item ∈ (buildItems cap ts).1, item.Placed g) ∧
      ∀ issue ∈ (buildItems cap ts).2, g.Covers issue.span := by
  simp only [buildItems, Builder.finish]
  generalize ((ts.getLast?.map Token.span).getD (.emptyAt .start)).finish = last
  obtain ⟨built, issues⟩ := Builder.run_placed cap last .empty ts Builder.placed_empty reads
  constructor
  · intro item member
    exact (Builder.closeMany_placed last _ built).top item (List.mem_reverse.mp member)
  · intro issue member
    simp only [List.append_assoc, List.mem_append, List.mem_map] at member
    rcases member with member | member | ⟨frame, open_, rfl⟩
    · exact covers_tokenIssue reads issue member
    · exact issues issue member
    · exact (built.stack frame open_).opening

namespace Sheet

variable {cs : List Char} {origin : Position}

theorem reads_tokenize (inside : g.Holds origin cs) : g.Reads (tokenize cs origin) := by
  have own : Passage.Reads ⟨cs, origin⟩ (tokenize cs origin) :=
    Passage.reads_cut scan true ⟨cs, origin⟩
  exact ⟨fun t member => (own.shows t member).within inside, own.ordered⟩

/-- **A stylesheet is where it stands**: so are all its subjects. -/
theorem placed_ofText (inside : g.Holds origin cs) :
    ∀ s ∈ (Sheet.ofText cs origin).subjects, s.Placed g :=
  items_placed_subjects (buildItems_placed depthCap (reads_tokenize inside)).1 none

theorem covers_issue (inside : g.Holds origin cs) :
    ∀ issue ∈ (Sheet.ofText cs origin).issues, g.Covers issue.span :=
  (buildItems_placed depthCap (reads_tokenize inside)).2

end Sheet

end PageLint.Css
