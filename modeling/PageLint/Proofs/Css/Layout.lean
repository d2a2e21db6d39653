/-
# PageLint.Proofs.Css.Layout — where the parts of a stylesheet lie

An item is `Laid` out in a source when its texts are what stands in their stretches, when its parts
come in the order in which they are written, and when its own stretch takes them in. In a block the
declarations, the comments and the nested items are kept apart, but together they are the entries of
the block, one after the other (`Weave`).

What is made of single tokens is laid out because of where the tokens come from: a value, a selector
and a prelude are cut out of the tokens without a gap, so their texts are what stands there; and the
parts of a declaration, or of the head of a rule, are groups of tokens in order
(`read?_laid`, `mem_readSelectors`, `laid_head`).
-/
import PageLint.Proofs.Css.Building
import PageLint.Proofs.Css.Kinds
import PageLint.Proofs.Css.Lexer
import PageLint.Proofs.Text.Order

namespace PageLint.Css

set_option autoImplicit false

open Text

/-! ## Items inside items -/

/-- The items that lie directly inside an item. -/
def Item.children : Item → List Item
  | .style rule => rule.block.nested
  | .atRule rule =>
    match rule.body with
    | .statement => []
    | .declarations block => block.nested
    | .rules _ _ items => items
  | .declarations block => block.nested
  | .comment _ => []

/-- The items that lie inside `n` others, in their order. -/
def itemsAt : Nat → List Item → List Item
  | 0, items => items
  | n + 1, items => itemsAt n (items.flatMap Item.children)

@[simp] theorem itemsAt_nil (n : Nat) : itemsAt n [] = [] := by
  induction n with
  | zero => rfl
  | succ n ih => exact ih

@[simp] theorem itemsAt_append (n : Nat) (items more : List Item) :
    itemsAt n (items ++ more) = itemsAt n items ++ itemsAt n more := by
  induction n generalizing items more with
  | zero => rfl
  | succ n ih => rw [itemsAt, List.flatMap_append, ih]; rfl

theorem itemsAt_singleton (n : Nat) (item : Item) : itemsAt (n + 1) [item] = itemsAt n item.children := by
  rw [itemsAt, List.flatMap_singleton]

/-- One level deeper lie the items inside those of a level. -/
theorem itemsAt_succ (n : Nat) (items : List Item) :
    itemsAt (n + 1) items = (itemsAt n items).flatMap Item.children := by
  induction n generalizing items with
  | zero => rfl
  | succ n ih => exact ih (items.flatMap Item.children)

/-- What lies at a level lies below one of the items. -/
theorem mem_itemsAt {n : Nat} {items : List Item} {sub : Item} :
    sub ∈ itemsAt n items ↔ ∃ item ∈ items, sub ∈ itemsAt n [item] := by
  induction items with
  | nil => simp
  | cons item items ih =>
      rw [← List.singleton_append, itemsAt_append, List.mem_append, ih]
      simp

/-! ## Laid out items -/

section Laid

variable (src : Source)

/-- A text is what stands in its stretch; without a stretch it is empty. -/
def Spelled (text : List Char) (span : Option Span) : Prop := text = (span.map src.slice).getD []

namespace Declaration

/-- The stretches of the parts of a declaration, as far as it has them. -/
def parts (d : Declaration) : List Span :=
  d.propertySpan :: d.colon :: (d.valueSpan.toList ++ (d.important.toList ++ d.semicolon.toList))

/-- The stretch of a declaration with its `;`. -/
def reach (d : Declaration) : Span := ⟨d.span.start, (d.semicolon.getD d.span).finish⟩

/-- The texts of a declaration are what stands there, its parts come one after the other, and its
stretch takes them in, but for the `;` after it. -/
structure Laid (d : Declaration) : Prop where
  property : src.slice d.propertySpan = d.property
  value : Spelled src d.value d.valueSpan
  order : InOrder d.parts
  inside : ∀ s ∈ d.propertySpan :: d.colon :: (d.valueSpan.toList ++ d.important.toList),
    d.span.contains s
  reach : d.reach.contains d.span ∧ ∀ s ∈ d.semicolon, d.reach.contains s

variable {src} {d : Declaration}

theorem Laid.forward (laid : d.Laid src) : d.span.start.offset ≤ d.span.finish.offset := by
  obtain ⟨starts, ends⟩ := span_contains_iff.mp (laid.inside d.propertySpan List.mem_cons_self)
  exact starts.trans ((laid.order.forward d.propertySpan List.mem_cons_self).trans ends)

theorem Laid.finish_le (laid : d.Laid src) :
    d.span.finish.offset ≤ d.reach.finish.offset := (span_contains_iff.mp laid.reach.1).2

theorem Laid.reach_forward (laid : d.Laid src) :
    d.reach.start.offset ≤ d.reach.finish.offset := laid.forward.trans laid.finish_le

end Declaration

/-- Three lists of stretches are put together to one, each in its order. -/
inductive Weave : List Span → List Span → List Span → List Span → Prop
  | nil : Weave [] [] [] []
  | first {all a b c : List Span} {s : Span} : Weave all a b c → Weave (all ++ [s]) (a ++ [s]) b c
  | second {all a b c : List Span} {s : Span} : Weave all a b c → Weave (all ++ [s]) a (b ++ [s]) c
  | third {all a b c : List Span} {s : Span} : Weave all a b c → Weave (all ++ [s]) a b (c ++ [s])

/-- The entries of a block lie one after the other between its braces, and its stretch takes all of
them in. -/
structure Block.Laid (block : Block Item) : Prop where
  declarations : ∀ d ∈ block.declarations, d.Laid src
  comments : ∀ c ∈ block.comments, src.slice c.span = c.text
  entries : ∃ entries, Weave entries (block.declarations.map Declaration.reach)
    (block.comments.map Comment.span) (block.nested.map Item.span) ∧
      InOrder (block.opening.toList ++ (entries ++ block.closing.toList))
  inside : ∀ s ∈ block.opening.toList ++ (block.declarations.map Declaration.reach ++
    (block.comments.map Comment.span ++ (block.nested.map Item.span ++ block.closing.toList))),
      block.span.contains s

/-- A bare list of declarations has no braces and holds nothing else, and its stretch takes in all
declarations, but for the `;` after the last one. -/
structure Block.BareLaid (block : Block Item) : Prop where
  bare : block.opening = none ∧ block.closing = none ∧ block.comments = [] ∧ block.nested = []
  declarations : ∀ d ∈ block.declarations, d.Laid src
  order : InOrder (block.declarations.map Declaration.reach)
  inside : ∀ d ∈ block.declarations, block.span.contains d.span

/-- The selectors of a style rule lie one after the other inside its prelude, the block comes after
that, and the stretch of the rule takes in both. -/
structure StyleRule.Laid (rule : StyleRule Item) : Prop where
  selectors : ∀ s ∈ rule.selectors, src.slice s.span = s.text
  ordered : InOrder (rule.selectors.map Selector.span)
  inPrelude : ∀ s ∈ rule.selectors, ∃ p ∈ rule.prelude, p.contains s.span
  order : InOrder (rule.prelude.toList ++ [rule.block.span])
  inside : ∀ s ∈ rule.prelude.toList ++ [rule.block.span], rule.span.contains s
  block : rule.block.Laid src

/-- The stretches of what follows the prelude of an at-rule: a block, or its braces with the items
between them. -/
def Body.spans : Body Item → List Span
  | .statement => []
  | .declarations block => [block.span]
  | .rules opening closing items => opening :: (items.map Item.span ++ closing.toList)

/-- The name of an at-rule is what stands after its `@`, in small letters, its prelude is what
stands there, what follows comes after that, and its stretch takes in all of it. -/
structure AtRule.Laid (rule : AtRule Item) : Prop where
  name : ∃ written, src.slice rule.nameSpan = '@' :: written ∧ lowerAscii written = rule.name
  prelude : Spelled src rule.prelude rule.preludeSpan
  order : InOrder (rule.nameSpan :: (rule.preludeSpan.toList ++ rule.body.spans))
  inside : ∀ s ∈ rule.nameSpan :: (rule.preludeSpan.toList ++ rule.body.spans), rule.span.contains s
  block : ∀ block, rule.body = .declarations block → block.Laid src

/-- **An item is laid out** in a source. -/
def Item.Laid : Item → Prop
  | .style rule => rule.Laid src
  | .atRule rule => rule.Laid src
  | .declarations block => block.BareLaid src
  | .comment c => src.slice c.span = c.text

/-- An item is laid out, and so is all inside it, however deep. -/
def Item.AllLaid (item : Item) : Prop := ∀ n, ∀ sub ∈ itemsAt n [item], sub.Laid src

end Laid

/-! ## Declarations -/

section Declarations

variable {cs : List Char} {property : Token TokenKind} {rest : Tokens} {d : Declaration} {n : Nat}

theorem spelled_spanOf? {ts : Tokens} (spells : (Passage.whole cs).Spells ts) :
    Spelled ⟨cs⟩ (textOf ts) (spanOf? ts) := by
  rw [Spelled]
  cases span : spanOf? ts with
  | none =>
      rw [spanOf?_eq_none.mp span]
      rfl
  | some s => exact (Source.slice_of_shows (spells.shows span)).symm

/-- A declaration is made of a property, a colon, a value, a mark of importance and a `;`. -/
structure Declaration.MadeOf (d : Declaration) (first sign : Token TokenKind) (kept mark : Tokens)
    (ending : Option (Token TokenKind)) : Prop where
  property : d.property = first.text
  propertySpan : d.propertySpan = first.span
  colon : d.colon = sign.span
  value : d.value = textOf kept
  valueSpan : d.valueSpan = spanOf? kept
  important : d.important = spanOf? mark
  semicolon : d.semicolon = ending.map Token.span
  span : d.span = ⟨first.span.start, ((d.important.or d.valueSpan).getD d.colon).finish⟩

/-- A token at a place, if it is of some sort, goes with those before it. -/
theorem take_append_filter (ts : Tokens) (n : Nat) (p : Token TokenKind → Bool) :
    ts.take n ++ (ts[n]?.filter p).toList = ts.take (n + (ts[n]?.filter p).toList.length) := by
  cases found : ts[n]?.filter p with
  | none => simp
  | some t =>
      have here : ts[n]? = some t := (Option.filter_eq_some_iff.mp found).1
      rw [Option.toList_some, List.length_singleton, List.take_add_one, here]
      rfl

/-- **A declaration takes** its property, trivia, a colon, a value, and the `;` that may follow. What
it keeps of the value lies in one go; its mark of importance comes after that. -/
theorem read?_takes_parts (read : Declaration.read? property rest = some (d, n)) :
    ∃ gap colon value kept mark semicolon, d.MadeOf property colon kept mark semicolon ∧
      (property :: rest).take n = property :: (gap ++ colon :: (value ++ semicolon.toList)) ∧
      (property.kind = .ident ∧ (∀ t ∈ gap, isTrivia t) ∧ colon.kind = .colon ∧
        ∀ t ∈ semicolon, t.kind = .semicolon) ∧
      kept <:+: value ∧ (kept ++ mark).Sublist value := by
  simp only [Declaration.read?] at read
  split at read
  · cases read
  next colon after left =>
    split at read
    next kinds =>
      obtain ⟨mark, span, both, kept⟩ :=
        splitImportant_parts (trimTrivia (after.take (valueExtent 0 after)))
      obtain ⟨rfl, rfl⟩ := Prod.mk.inj (Option.some.inj read)
      generalize valueExtent 0 after = n at both kept span ⊢
      have semicolon := take_append_filter after n (·.kind == .semicolon)
      have gap : rest.take (rest.takeWhile isTrivia).length = rest.takeWhile isTrivia :=
        List.prefix_iff_eq_take.mp (List.takeWhile_prefix _) |>.symm
      refine ⟨rest.takeWhile isTrivia, colon, after.take n, _, mark,
        after[n]?.filter (·.kind == .semicolon), ⟨rfl, rfl, rfl, rfl, rfl, span, rfl, rfl⟩, ?_,
        ⟨kinds.1, fun t member => List.mem_takeWhile_imp member, kinds.2, fun t found => ?_⟩,
        kept.trans (trimTrivia_within _), both.trans (trimTrivia_sublist _)⟩
      · rw [show 1 + (rest.takeWhile isTrivia).length + 1 + n +
            (after[n]?.filter (·.kind == .semicolon)).toList.length =
          (rest.takeWhile isTrivia).length +
            (n + (after[n]?.filter (·.kind == .semicolon)).toList.length + 1) + 1 by omega,
          List.take_succ_cons, List.take_add, left, gap, List.take_succ_cons, semicolon]
      · exact eq_of_beq (Option.filter_eq_some_iff.mp found).2
    · cases read

/-- A declaration is made of the tokens that it takes, in their order. -/
theorem read?_madeOf (read : Declaration.read? property rest = some (d, n)) :
    ∃ colon kept mark semicolon, d.MadeOf property colon kept mark semicolon ∧
      (property :: colon :: (kept ++ (mark ++ semicolon.toList))).Sublist
        ((property :: rest).take n) ∧ kept <:+: property :: rest := by
  obtain ⟨gap, colon, value, kept, mark, semicolon, made, taken, -, within, both⟩ :=
    read?_takes_parts read
  refine ⟨colon, kept, mark, semicolon, made, ?_, ?_⟩
  · rw [taken, ← List.append_assoc]
    refine .cons_cons _ ((List.Sublist.cons_cons _ ?_).trans (List.sublist_append_right _ _))
    exact both.append_right _
  · refine within.trans (List.IsInfix.trans ?_ (List.take_prefix n _).isInfix)
    rw [taken]
    exact ⟨property :: (gap ++ [colon]), semicolon.toList, by simp⟩

/-- **A declaration is laid out**, and ends where the tokens that it takes end. -/
theorem read?_laid (spells : (Passage.whole cs).Spells (property :: rest))
    (read : Declaration.read? property rest = some (d, n)) :
    d.Laid ⟨cs⟩ ∧ d.reach.start = property.span.start ∧
      ∃ last ∈ (property :: rest).take n, d.reach.finish = last.span.finish := by
  obtain ⟨colon, kept, mark, semicolon, made, tokens, gapless⟩ := read?_madeOf read
  have reads := spells.reads.sublist (tokens.trans (List.take_sublist _ _))
  have ending : spanOf? semicolon.toList = semicolon.map Token.span := by
    cases semicolon <;> rfl
  have parts : d.parts =
      [[property], [colon], kept, mark, semicolon.toList].filterMap spanOf? := by
    rw [Declaration.parts, made.propertySpan, made.colon, made.valueSpan, made.important,
      made.semicolon, ← ending]
    simp only [List.filterMap_cons, spanOf?_singleton, List.filterMap_nil]
    cases spanOf? kept <;> cases spanOf? mark <;> cases spanOf? semicolon.toList <;> rfl
  have order : InOrder d.parts := by
    rw [parts]
    refine inOrder_groups (g := .whole cs) ?_
    simpa using reads
  have front : (d.propertySpan :: d.colon :: (d.valueSpan.toList ++ d.important.toList)).Sublist
      d.parts := by
    rw [Declaration.parts, ← List.append_assoc]
    exact .cons_cons _ (.cons_cons _ (List.sublist_append_left _ _))
  have last : (d.propertySpan :: d.colon ::
      (d.valueSpan.toList ++ d.important.toList)).getLast? =
        some ((d.important.or d.valueSpan).getD d.colon) := by
    cases d.important <;> cases d.valueSpan <;> rfl
  have whole : d.span =
      ⟨d.propertySpan.start, ((d.important.or d.valueSpan).getD d.colon).finish⟩ := by
    rw [made.span, made.propertySpan]
  have inside := (order.sublist front).contains_ends last
  rw [← whole] at inside
  have final : d.parts.getLast? =
      some (d.semicolon.getD ((d.important.or d.valueSpan).getD d.colon)) := by
    rw [Declaration.parts]
    cases d.semicolon <;> cases d.important <;> cases d.valueSpan <;> rfl
  have reach : d.reach = ⟨d.propertySpan.start,
      (d.semicolon.getD ((d.important.or d.valueSpan).getD d.colon)).finish⟩ := by
    rw [Declaration.reach, whole]
    cases d.semicolon <;> rfl
  have within := order.contains_ends final
  rw [← reach] at within
  refine ⟨⟨?_, ?_, order, inside, ?_, ?_⟩, ?_, ?_⟩
  · rw [made.property, made.propertySpan]
    exact Source.slice_of_shows (spells.reads.shows property List.mem_cons_self)
  · rw [made.value, made.valueSpan]
    exact spelled_spanOf? (spells.within gapless)
  · have ends := span_contains_iff.mp (within _ (front.subset (List.mem_of_getLast? last)))
    have starts := span_contains_iff.mp (within d.propertySpan List.mem_cons_self)
    rw [whole]
    exact span_contains_iff.mpr ⟨starts.1, ends.2⟩
  · intro s found
    refine within s (List.mem_cons_of_mem _ (List.mem_cons_of_mem _ ?_))
    simp [Option.mem_def.mp found]
  · rw [reach, made.propertySpan]
  · have member := List.mem_of_getLast? final
    rw [parts] at member
    obtain ⟨group, inGroups, span⟩ := List.mem_filterMap.mp member
    obtain ⟨first, -, token, isLast, same⟩ := spanOf?_eq_some span
    refine ⟨token, tokens.subset ?_, ?_⟩
    · have inside : token ∈ [[property], [colon], kept, mark, semicolon.toList].flatten :=
        List.mem_flatten.mpr ⟨group, inGroups, isLast⟩
      simpa using inside
    · rw [reach]
      dsimp only
      rw [same]

end Declarations

/-! ## Selectors and heads -/

section Heads

variable {cs : List Char} {prelude : Tokens}

theorem mem_addParts {last : Token TokenKind} {parts : List (Tokens × Option (Token TokenKind))}
    {s : Selector} (member : s ∈ (parts.foldr (addPart last) ([], [])).1) :
    ∃ part ∈ parts, spanOf? (trimTrivia part.1) = some s.span ∧
      s.text = textOf (trimTrivia part.1) := by
  induction parts with
  | nil => cases member
  | cons part parts ih =>
      rw [List.foldr_cons, addPart] at member
      cases span : spanOf? (trimTrivia part.1) with
      | none =>
          rw [span] at member
          obtain ⟨other, inParts, made⟩ := ih member
          exact ⟨other, List.mem_cons_of_mem _ inParts, made⟩
      | some own =>
          rw [span] at member
          rcases List.mem_cons.mp member with rfl | later
          · exact ⟨part, List.mem_cons_self, span, rfl⟩
          · obtain ⟨other, inParts, made⟩ := ih later
            exact ⟨other, List.mem_cons_of_mem _ inParts, made⟩

/-- A selector is cut out of the prelude without a gap. -/
theorem mem_readSelectors {s : Selector} (member : s ∈ (readSelectors prelude).1) :
    ∃ ts, ts <:+: prelude ∧ spanOf? ts = some s.span ∧ s.text = textOf ts := by
  rw [readSelectors_eq] at member
  split at member
  · cases member
  next last _ =>
    obtain ⟨part, inParts, span, text⟩ := mem_addParts member
    have own : part.1 ++ part.2.toList <:+: prelude := by
      rw [← flatMap_splitAtCommas 0 prelude, List.flatMap_def]
      exact List.infix_of_mem_flatten (List.mem_map_of_mem inParts)
    have inside : part.1 <:+: prelude := (List.prefix_append _ _).isInfix.trans own
    exact ⟨_, (trimTrivia_within _).trans inside, span, text⟩

/-- Selectors are laid out: each text is what stands there, they are in order, and the prelude takes
them in. -/
theorem readSelectors_laid (spells : (Passage.whole cs).Spells prelude) :
    (∀ s ∈ (readSelectors prelude).1, Source.slice ⟨cs⟩ s.span = s.text) ∧
      InOrder ((readSelectors prelude).1.map Selector.span) ∧
      ∀ s ∈ (readSelectors prelude).1, ∃ p ∈ spanOf? prelude, p.contains s.span := by
  obtain ⟨placed, -⟩ := readSelectors_placed spells.reads
  refine ⟨?_, ⟨?_, ?_⟩, ?_⟩
  · intro s member
    obtain ⟨ts, inside, span, text⟩ := mem_readSelectors member
    rw [text]
    exact Source.slice_of_shows ((spells.within inside).shows span)
  · exact List.forall_mem_map.mpr fun s member => (placed.each s member).span.offset_le
  · exact List.pairwise_map.mpr placed.ordered
  · intro s member
    obtain ⟨ts, inside, span, -⟩ := mem_readSelectors member
    cases whole : spanOf? prelude with
    | none =>
        rw [spanOf?_eq_none.mp whole, List.infix_nil] at inside
        rw [inside] at span
        cases span
    | some p => exact ⟨p, rfl, spells.reads.contains_spanOf? inside.sublist whole span⟩

theorem cut_atKeyword (atHead : Bool) (text : List Char) :
    ∀ piece ∈ cut scan atHead text, piece.kind = .atKeyword →
      ∃ word, piece.text = '@' :: word := by
  intro piece member kind
  rcases exists_lexemeAt atHead text piece member with rfl | ⟨c, rest, n, measured, text, some_⟩
  · cases kind
  · obtain ⟨n, rfl⟩ := Nat.exists_eq_succ_of_ne_zero some_.ne'
    rw [kind] at measured
    obtain rfl := eq_at_of_atKeyword measured
    exact ⟨rest.take n, text⟩

/-- At-keywords begin with `@`. -/
def Keyed (ts : Tokens) : Prop :=
  ∀ t ∈ ts, t.kind = .atKeyword → ∃ word, t.text = '@' :: word

theorem keyed_tokenize (origin : Position) : Keyed (tokenize cs origin) :=
  fun _ member kind => cut_atKeyword true cs _ (mem_of_mem_locate member) kind

/-- The stretches of the beginning of an at-rule. -/
def AtHead.spans (head : AtHead) : List Span := head.nameSpan :: (spanOf? head.prelude).toList

/-- The beginning of an at-rule is laid out, and what follows comes after it. -/
structure AtHead.Laid (src : Source) (head : AtHead) (after : List Span) : Prop where
  name : ∃ written, src.slice head.nameSpan = '@' :: written ∧ lowerAscii written = head.name
  prelude : Spelled src (textOf head.prelude) (spanOf? head.prelude)
  order : InOrder (head.spans ++ after)

/-- The beginning of an at-rule is laid out, with the token that ends its prelude. -/
theorem laid_head {keyword : Token TokenKind} {rest : Tokens} {n : Nat}
    (spells : (Passage.whole cs).Spells (keyword :: rest)) (keyed : Keyed (keyword :: rest))
    (kind : keyword.kind = .atKeyword) :
    AtHead.Laid ⟨cs⟩ ⟨lowerAscii (keyword.text.drop 1), keyword.span, trimTrivia (rest.take n)⟩
      ((rest[n]?).map Token.span).toList := by
  obtain ⟨word, text⟩ := keyed keyword List.mem_cons_self kind
  have inside : trimTrivia (rest.take n) <:+: keyword :: rest :=
    (trimTrivia_within _).trans ((List.take_prefix n rest).isInfix.trans
      (List.suffix_cons keyword rest).isInfix)
  refine ⟨⟨word, ?_, ?_⟩, spelled_spanOf? (spells.within inside), ?_⟩
  · rw [← text]
    exact Source.slice_of_shows (spells.reads.shows keyword List.mem_cons_self)
  · rw [text]
    rfl
  · have tokens : (rest.take n ++ rest[n]?.toList).Sublist rest := by
      rw [← List.take_add_one]
      exact List.take_sublist _ _
    have reads := spells.reads.sublist <| List.Sublist.cons_cons keyword <|
      ((trimTrivia_sublist (rest.take n)).append_right rest[n]?.toList).trans tokens
    have order : InOrder ([[keyword], trimTrivia (rest.take n), rest[n]?.toList].filterMap spanOf?) :=
      inOrder_groups (g := .whole cs) (by simpa using reads)
    have ending : spanOf? rest[n]?.toList = rest[n]?.map Token.span := by
      cases rest[n]? <;> rfl
    have same : AtHead.spans ⟨lowerAscii (keyword.text.drop 1), keyword.span,
        trimTrivia (rest.take n)⟩ ++ (rest[n]?.map Token.span).toList =
          [[keyword], trimTrivia (rest.take n), rest[n]?.toList].filterMap spanOf? := by
      rw [AtHead.spans, ← ending]
      simp only [List.filterMap_cons, spanOf?_singleton, List.filterMap_nil]
      cases spanOf? (trimTrivia (rest.take n)) <;> cases spanOf? rest[n]?.toList <;> rfl
    rw [same]
    exact order

end Heads

end PageLint.Css
