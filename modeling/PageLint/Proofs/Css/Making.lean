/-
# PageLint.Proofs.Css.Making — what the pieces of a stylesheet are made of

The builder makes the pieces of a stylesheet in few places: a comment of a token, a declaration
where one can be read, the head of a rule of the tokens before its `{`. `Makes` asks of a property
of pieces that it holds where one is made, and that a block has it if its declarations do. Then
all pieces have it (`Sheet.forall_subjects`): the builder only moves what is made, and closes
blocks around it (`Builder.holds_step`).

So every token of a piece is one of the stylesheet, and every property of a declaration is an
identifier of it (`Sheet.subjects_from`). What is told of an at-rule that does not end is told at
its keyword (`Sheet.keyword_of_unterminated`).
-/
import PageLint.Proofs.Css.Constructs

namespace PageLint

set_option autoImplicit false

open Text

namespace Css

/-- The style rule that some tokens begin. -/
def styleRuleOf (prelude : Tokens) (keyframe : Bool) (block : Block Item) (span : Span) :
    StyleRule Item where
  selectors := (readSelectors (trimTrivia prelude)).1
  prelude := spanOf? (trimTrivia prelude)
  keyframe
  block
  span

/-- A property of pieces that holds wherever a piece is made of tokens, if what is wrong with the
selectors of a rule is told. -/
structure Makes (ts : Tokens) (told : List Issue) (Q : Subject → Prop) : Prop where
  comment : ∀ t ∈ ts, t.kind = .comment → Q (.cssComment ⟨t.text, t.span⟩)
  declaration : ∀ property rest d n, property :: rest <:+ ts →
    Declaration.read? property rest = some (d, n) → Q (.cssDeclaration d)
  style : ∀ here n keyframe block span, here <:+ ts →
    (readSelectors (trimTrivia (here.take n))).2 ⊆ told →
      Q (.cssStyleRule (styleRuleOf (here.take n) keyframe block span))
  atRule : ∀ keyword rest n body finish, keyword :: rest <:+ ts → keyword.kind = .atKeyword →
    Q (.cssAtRule ((AtHead.ofTokens keyword (rest.take n)).toRule body finish))
  block : ∀ block, (∀ d ∈ block.declarations, Q (.cssDeclaration d)) → Q (.cssBlock block)
  items : ∀ items parent, Q (.cssRuleList items parent)

variable {ts : Tokens} {told : List Issue} {Q : Subject → Prop}

/-! ## Items -/

/-- All pieces of an item have the property. -/
def Item.Holds (Q : Subject → Prop) (item : Item) : Prop := ∀ s ∈ item.subjects, Q s

/-- So have the pieces of a block. -/
structure Block.Holds (Q : Subject → Prop) (block : Block Item) : Prop where
  declarations : ∀ d ∈ block.declarations, Q (.cssDeclaration d)
  comments : ∀ c ∈ block.comments, Q (.cssComment c)
  nested : ∀ item ∈ block.nested, item.Holds Q

/-- So have those of what follows the prelude of an at-rule. -/
def Body.Holds (Q : Subject → Prop) : Body Item → Prop
  | .statement => True
  | .declarations block => Block.Holds Q block
  | .rules _ _ items => ∀ item ∈ items, item.Holds Q

theorem Block.Holds.subjects {block : Block Item} (makes : Makes ts told Q)
    (holds : Block.Holds Q block) : ∀ s ∈ blockSubjects block, Q s := by
  intro s member
  rcases mem_blockSubjects.mp member with
    rfl | ⟨d, found, rfl⟩ | ⟨c, found, rfl⟩ | ⟨item, found, inside⟩
  · exact makes.block block holds.declarations
  · exact holds.declarations d found
  · exact holds.comments c found
  · exact holds.nested item found s inside

theorem Body.Holds.subjects {rule : AtRule Item} {body : Body Item} (makes : Makes ts told Q)
    (holds : body.Holds Q) : ∀ s ∈ bodySubjects rule body, Q s := by
  cases body with
  | statement => simp [bodySubjects]
  | declarations block =>
      rw [bodySubjects]
      exact Block.Holds.subjects makes holds
  | rules opening closing items =>
      rw [bodySubjects]
      refine List.forall_mem_cons.mpr ⟨makes.items _ _, fun s member => ?_⟩
      obtain ⟨item, found, inside⟩ := mem_itemsSubjects.mp member
      exact holds item found s inside

theorem holds_style {rule : StyleRule Item} (makes : Makes ts told Q) (own : Q (.cssStyleRule rule))
    (inside : Block.Holds Q rule.block) : (Item.style rule).Holds Q := by
  intro s member
  rw [Item.subjects] at member
  rcases List.mem_cons.mp member with rfl | member
  · exact own
  · exact inside.subjects makes s member

theorem holds_declarations {block : Block Item} (makes : Makes ts told Q) (inside : Block.Holds Q block) :
    (Item.declarations block).Holds Q := by
  intro s member
  rw [Item.subjects] at member
  exact inside.subjects makes s member

theorem holds_comment {c : Comment} (own : Q (.cssComment c)) : (Item.comment c).Holds Q := by
  intro s member
  rw [Item.subjects, List.mem_singleton] at member
  rwa [member]

/-! ## Open blocks -/

/-- An at-rule has the property, whatever its head is followed by. -/
def AtHead.Holds (Q : Subject → Prop) (head : AtHead) : Prop :=
  ∀ body finish, Q (.cssAtRule (head.toRule body finish))

/-- So has what a block of declarations belongs to. -/
def Owner.Holds (Q : Subject → Prop) : Owner → Prop
  | .style selectors prelude keyframe =>
    ∀ block span, Q (.cssStyleRule ⟨selectors, prelude, keyframe, block, span⟩)
  | .atRule head => head.Holds Q

/-- An open block, and all that it contains so far. -/
def Frame.Holds (Q : Subject → Prop) : Frame → Prop
  | .rules head _ items => head.Holds Q ∧ ∀ item ∈ items, item.Holds Q
  | .block owner _ declarations comments nested =>
    owner.Holds Q ∧ (∀ d ∈ declarations, Q (.cssDeclaration d)) ∧
      (∀ c ∈ comments, Q (.cssComment c)) ∧ ∀ item ∈ nested, item.Holds Q

theorem AtHead.Holds.toRule {head : AtHead} (makes : Makes ts told Q) (holds : head.Holds Q)
    (body : Body Item) (inside : body.Holds Q) (finish : Position) :
    (Item.atRule (head.toRule body finish)).Holds Q := by
  intro s member
  rw [AtHead.toRule, Item.subjects] at member
  rcases List.mem_cons.mp member with rfl | member
  · exact holds body finish
  · exact inside.subjects makes s member

theorem Owner.Holds.toItem {owner : Owner} {block : Block Item} (makes : Makes ts told Q)
    (holds : owner.Holds Q) (inside : Block.Holds Q block) : (owner.toItem block).Holds Q := by
  cases owner with
  | style selectors prelude keyframe => exact holds_style makes (holds block _) inside
  | atRule head => exact AtHead.Holds.toRule makes holds (.declarations block) inside _

theorem Frame.Holds.close {frame : Frame} (makes : Makes ts told Q) (holds : frame.Holds Q)
    (closing : Option Span) (last : Position) : (frame.close closing last).Holds Q := by
  cases frame with
  | rules head opening items =>
      obtain ⟨head, items⟩ := holds
      refine head.toRule makes (.rules opening closing _) ?_ _
      exact fun item member => items item (List.mem_reverse.mp member)
  | block owner opening declarations comments nested =>
      obtain ⟨owner, declarations, comments, nested⟩ := holds
      refine owner.toItem makes ⟨?_, ?_, ?_⟩
      · exact fun d member => declarations d (List.mem_reverse.mp member)
      · exact fun c member => comments c (List.mem_reverse.mp member)
      · exact fun item member => nested item (List.mem_reverse.mp member)

namespace Builder

variable {b : Builder} {t : Token TokenKind} {rest here : Tokens}

/-- **What every step keeps**: all that is built so far has the property. -/
structure Holds (Q : Subject → Prop) (b : Builder) : Prop where
  stack : ∀ frame ∈ b.stack, frame.Holds Q
  top : ∀ item ∈ b.top, item.Holds Q

theorem holds_empty : Holds Q .empty := ⟨by simp [empty], by simp [empty]⟩

theorem Holds.addItem {item : Item} (holds : b.Holds Q) (own : item.Holds Q) :
    (b.addItem item).Holds Q := by
  obtain ⟨stack, top⟩ := holds
  rw [Builder.addItem]
  split
  next => exact ⟨stack, List.forall_mem_cons.mpr ⟨own, top⟩⟩
  next head opening items outer held =>
    rw [held, List.forall_mem_cons] at stack
    obtain ⟨⟨head, items⟩, outer⟩ := stack
    exact ⟨List.forall_mem_cons.mpr ⟨⟨head, List.forall_mem_cons.mpr ⟨own, items⟩⟩, outer⟩, top⟩
  next owner opening declarations comments nested outer held =>
    rw [held, List.forall_mem_cons] at stack
    obtain ⟨⟨owner, declarations, comments, nested⟩, outer⟩ := stack
    exact ⟨List.forall_mem_cons.mpr
      ⟨⟨owner, declarations, comments, List.forall_mem_cons.mpr ⟨own, nested⟩⟩, outer⟩, top⟩

theorem Holds.addComment {c : Comment} (holds : b.Holds Q) (own : Q (.cssComment c)) :
    (b.addComment c).Holds Q := by
  rw [Builder.addComment]
  split
  next owner opening declarations comments nested outer held =>
    obtain ⟨stack, top⟩ := holds
    rw [held, List.forall_mem_cons] at stack
    obtain ⟨⟨owner, declarations, comments, nested⟩, outer⟩ := stack
    exact ⟨List.forall_mem_cons.mpr
      ⟨⟨owner, declarations, List.forall_mem_cons.mpr ⟨own, comments⟩, nested⟩, outer⟩, top⟩
  next => exact holds.addItem (holds_comment own)

/-- A bare declaration that joins the block before it leaves in it what was there. -/
theorem holds_addBare {items : List Item} {d : Declaration} (makes : Makes ts told Q)
    (holds : ∀ item ∈ items, item.Holds Q) (own : Q (.cssDeclaration d)) :
    ∀ item ∈ addBare d items, item.Holds Q := by
  rw [addBare.eq_def]
  split
  next block items =>
    rw [List.forall_mem_cons] at holds ⊢
    obtain ⟨first, others⟩ := holds
    have before : ∀ s ∈ blockSubjects block, Q s := by
      rwa [Item.Holds, Item.subjects] at first
    refine ⟨holds_declarations makes ⟨?_, ?_, ?_⟩, others⟩
    · refine List.forall_mem_append.mpr ⟨fun e member => ?_, List.forall_mem_singleton.mpr own⟩
      exact before _ (mem_blockSubjects.mpr (.inr (.inl ⟨e, member, rfl⟩)))
    · exact fun c member => before _ (mem_blockSubjects.mpr (.inr (.inr (.inl ⟨c, member, rfl⟩))))
    · exact fun item member s inside =>
        before s (mem_blockSubjects.mpr (.inr (.inr (.inr ⟨item, member, inside⟩))))
  next =>
    refine List.forall_mem_cons.mpr ⟨holds_declarations makes ⟨?_, by simp, by simp⟩, holds⟩
    exact List.forall_mem_singleton.mpr own

theorem Holds.addDeclaration {d : Declaration} (makes : Makes ts told Q) (holds : b.Holds Q)
    (own : Q (.cssDeclaration d)) : (b.addDeclaration d).Holds Q := by
  obtain ⟨stack, top⟩ := holds
  rw [Builder.addDeclaration]
  split
  next => exact ⟨stack, holds_addBare makes top own⟩
  next head opening items outer held =>
    rw [held, List.forall_mem_cons] at stack
    obtain ⟨⟨head, items⟩, outer⟩ := stack
    exact ⟨List.forall_mem_cons.mpr ⟨⟨head, holds_addBare makes items own⟩, outer⟩, top⟩
  next owner opening declarations comments nested outer held =>
    rw [held, List.forall_mem_cons] at stack
    obtain ⟨⟨owner, declarations, comments, nested⟩, outer⟩ := stack
    exact ⟨List.forall_mem_cons.mpr
      ⟨⟨owner, List.forall_mem_cons.mpr ⟨own, declarations⟩, comments, nested⟩, outer⟩, top⟩

theorem Holds.close (makes : Makes ts told Q) (holds : b.Holds Q) (closing : Option Span)
    (last : Position) : (b.close closing last).Holds Q := by
  rw [Builder.close]
  split
  next => exact holds
  next frame outer held =>
    obtain ⟨stack, top⟩ := holds
    rw [held, List.forall_mem_cons] at stack
    exact Holds.addItem ⟨stack.2, top⟩ (stack.1.close makes closing last)

theorem Holds.closeMany (makes : Makes ts told Q) (last : Position) (n : Nat) (holds : b.Holds Q) :
    (closeMany last n b).Holds Q := by
  induction n generalizing b with
  | zero => exact holds
  | succ n ih => exact ih (holds.close makes none last)

theorem Holds.openBlock {frame : Frame} (makes : Makes ts told Q) (holds : b.Holds Q)
    (own : frame.Holds Q) (cap : Nat) (last : Position) (inside : Tokens) :
    (b.openBlock cap last frame inside).builder.Holds Q := by
  simp only [Builder.openBlock]
  split
  · refine holds.addItem ?_
    cases frame with
    | rules head opening items =>
        exact own.1.toRule makes (.rules _ _ []) (fun item none_ => absurd none_ List.not_mem_nil) _
    | block owner opening declarations comments nested => exact own.close makes _ _
  · exact ⟨List.forall_mem_cons.mpr ⟨own, holds.stack⟩, holds.top⟩

/-! ## Steps -/

theorem Holds.openStyle (makes : Makes ts told Q) (holds : b.Holds Q) (within : here <:+ ts)
    {cap : Nat} {last : Position} {keyframe : Bool} {n : Nat} {opening : Span}
    (issues : (b.openStyle cap last keyframe n opening here).issues ⊆ told) :
    (b.openStyle cap last keyframe n opening here).builder.Holds Q :=
  have owner : Owner.Holds Q (.style (readSelectors (trimTrivia (here.take n))).1
      (spanOf? (trimTrivia (here.take n))) keyframe) :=
    fun block span => makes.style here n keyframe block span within
      (List.Subset.trans (List.subset_append_left _ _) issues)
  have frame : Frame.Holds Q (.block (.style (readSelectors (trimTrivia (here.take n))).1
      (spanOf? (trimTrivia (here.take n))) keyframe) opening [] [] []) :=
    ⟨owner, by simp, by simp, by simp⟩
  holds.openBlock makes frame cap last _

theorem Holds.takeAtRule (makes : Makes ts told Q) (holds : b.Holds Q) (within : t :: rest <:+ ts)
    (kind : t.kind = .atKeyword) (cap : Nat) (last : Position) :
    (b.takeAtRule cap last t rest).builder.Holds Q := by
  have head : AtHead.Holds Q (.ofTokens t (rest.take (preludeExtent 0 rest))) :=
    fun body finish => makes.atRule t rest _ body finish within kind
  have statement : ∀ finish,
      (b.addItem (.atRule (AtHead.toRule (.ofTokens t (rest.take (preludeExtent 0 rest)))
        .statement finish))).Holds Q :=
    fun finish => holds.addItem (head.toRule makes .statement trivial finish)
  simp only [Builder.takeAtRule]
  split
  · exact statement _
  split
  · exact statement _
  split
  · refine holds.openBlock makes ?_ _ _ _
    split
    · exact ⟨head, by simp, by simp, by simp⟩
    · exact ⟨head, by simp⟩
  · exact statement _

theorem Holds.takeRule (makes : Makes ts told Q) (holds : b.Holds Q) (within : t :: rest <:+ ts)
    {cap : Nat} {last : Position} (issues : (b.takeRule cap last t rest).issues ⊆ told) :
    (b.takeRule cap last t rest).builder.Holds Q := by
  revert issues
  simp only [Builder.takeRule]
  split
  · exact fun issues => holds.openStyle makes within issues
  intro _
  split
  next d taken read =>
    exact holds.addDeclaration makes (makes.declaration t rest d taken within read)
  next => split <;> exact holds

theorem Holds.takeEntry (makes : Makes ts told Q) (holds : b.Holds Q) (within : t :: rest <:+ ts)
    {cap : Nat} {last : Position} (issues : (b.takeEntry cap last t rest).issues ⊆ told) :
    (b.takeEntry cap last t rest).builder.Holds Q := by
  revert issues
  simp only [Builder.takeEntry]
  split
  · exact fun issues => holds.openStyle makes within issues
  intro _
  split
  next d taken read =>
    exact holds.addDeclaration makes (makes.declaration t rest d taken within read)
  next => split <;> exact holds

theorem holds_step (makes : Makes ts told Q) (holds : b.Holds Q) (within : t :: rest <:+ ts)
    {cap : Nat} {last : Position} (issues : (b.step cap last t rest).issues ⊆ told) :
    (b.step cap last t rest).builder.Holds Q := by
  revert issues
  rw [Builder.step]
  split
  · exact fun _ => holds
  · exact fun _ => holds
  next kind =>
    exact fun _ => holds.addComment (makes.comment t (within.subset List.mem_cons_self) kind)
  · intro _
    split
    · exact holds
    · exact holds.close makes _ _
  next kind => exact fun _ => holds.takeAtRule makes within kind cap last
  · split
    · exact fun issues => holds.takeEntry makes within issues
    split
    · exact fun _ => holds
    · exact fun issues => holds.takeRule makes within issues

theorem holds_run (makes : Makes ts told Q) (cap : Nat) (last : Position) (b : Builder)
    (left : Tokens) (holds : b.Holds Q) (within : left <:+ ts) (issues : (b.run cap last left).2 ⊆ told) :
    (b.run cap last left).1.Holds Q := by
  fun_induction Builder.run cap last b left with
  | case1 b => exact holds
  | case2 b t rest s done found run ih =>
      have later : rest.drop s.more <:+ ts :=
        (List.drop_suffix _ _).trans ((List.suffix_cons t rest).trans within)
      have own := List.Subset.trans (List.subset_append_left _ _) issues
      have others := List.Subset.trans (List.subset_append_right _ _) issues
      rw [run] at ih
      exact ih (holds_step makes holds within own) later others

end Builder

/-- **All pieces of a stylesheet have what each has as it is made.** -/
theorem Sheet.forall_subjects {cs : List Char} {origin : Position}
    (makes : Makes (tokenize cs origin) (Sheet.ofText cs origin).issues Q) :
    ∀ s ∈ (Sheet.ofText cs origin).subjects, Q s := by
  refine List.forall_mem_cons.mpr ⟨makes.items _ _, fun s member => ?_⟩
  obtain ⟨item, found, inside⟩ := mem_itemsSubjects.mp member
  have run := Builder.holds_run makes depthCap
    (((tokenize cs origin).getLast?.map Token.span).getD (.emptyAt .start)).finish .empty _
    Builder.holds_empty List.suffix_rfl
    (List.Subset.trans (List.subset_append_right _ _) (List.subset_append_left _ _))
  exact (run.closeMany makes _ _).top item (List.mem_reverse.mp found) s inside

/-! ## Tokens of a piece -/

/-- The property and the value of a declaration are tokens of a stylesheet. -/
structure Declaration.From (ts : Tokens) (d : Declaration) : Prop where
  property : ∃ t ∈ ts, t.kind = .ident ∧ d.property = t.text
  value : d.valueTokens ⊆ ts

end Css

/-- The tokens that a rule reads off a piece are tokens of a stylesheet. -/
def Subject.From (ts : Css.Tokens) : Subject → Prop
  | cssStyleRule r => ∀ s ∈ r.selectors, s.tokens ⊆ ts
  | cssAtRule r => r.preludeTokens ⊆ ts
  | cssBlock b => ∀ d ∈ b.declarations, d.From ts
  | cssDeclaration d => d.From ts
  | _ => True

namespace Css

variable {ts : Tokens}

theorem trimTrivia_leads {us : Tokens} (leads : ts <+: us) : trimTrivia ts <+: us.dropWhile isTrivia := by
  obtain ⟨more, rfl⟩ := leads
  refine (trimTriviaEnd_leads (ts.dropWhile isTrivia)).trans ?_
  rw [List.dropWhile_append]
  split
  next none_ =>
    rw [List.isEmpty_iff.mp none_]
    exact List.nil_prefix
  next => exact List.prefix_append _ _

/-- What is kept of a value comes first in it. -/
theorem splitImportant_leads (value : Tokens) : (splitImportant value).1 = value ∨
    ∃ front, front <+: value ∧ (splitImportant value).1 = trimTrivia front := by
  have whole : value.reverse.reverse = value := List.reverse_reverse value
  rw [splitImportant]
  split
  · exact .inl rfl
  next word before reversed =>
    rw [reversed] at whole
    split
    · exact .inl rfl
    split
    · exact .inl rfl
    next bang front =>
      simp only [List.reverse_cons, List.append_assoc, List.singleton_append] at whole
      split
      · exact .inr ⟨front.reverse, ⟨_, whole⟩, rfl⟩
      split
      · exact .inl rfl
      next sign front =>
        simp only [List.reverse_cons, List.append_assoc, List.singleton_append] at whole
        split
        · exact .inr ⟨front.reverse, ⟨_, whole⟩, rfl⟩
        · exact .inl rfl

/-- The tokens that a declaration is read off: its property, trivia, a colon, and behind that the value,
which more trivia may lead up to. -/
structure Declaration.ReadFrom (d : Declaration) (first : Token TokenKind) (gap : Tokens)
    (sign : Token TokenKind) (after : Tokens) : Prop where
  trivia : ∀ t ∈ gap, isTrivia t
  ident : first.kind = .ident
  isColon : sign.kind = .colon
  property : d.property = first.text
  propertySpan : d.propertySpan = first.span
  colon : d.colon = sign.span
  valueSpan : d.valueSpan = spanOf? d.valueTokens
  value : d.valueTokens <+: after.dropWhile isTrivia

theorem Declaration.exists_readFrom {property : Token TokenKind} {rest : Tokens} {d : Declaration}
    {n : Nat} (read : read? property rest = some (d, n)) :
    ∃ gap colon after, rest = gap ++ colon :: after ∧ d.ReadFrom property gap colon after := by
  simp only [read?] at read
  split at read
  · cases read
  next colon after left =>
    split at read
    next kinds =>
      obtain ⟨rfl, -⟩ := Prod.mk.inj (Option.some.inj read)
      rw [drop_length_takeWhile] at left
      refine ⟨rest.takeWhile isTrivia, colon, after, ?_, fun t member => List.mem_takeWhile_imp member,
        kinds.1, kinds.2, rfl, rfl, rfl, rfl, ?_⟩
      · rw [← left, List.takeWhile_append_dropWhile]
      · have leads := trimTrivia_leads (List.take_prefix (valueExtent 0 after) after)
        rcases splitImportant_leads (trimTrivia (after.take (valueExtent 0 after))) with
          same | ⟨front, first, same⟩
        · rwa [same]
        · rw [same, ← List.dropWhile_idempotent (p := isTrivia) after]
          exact trimTrivia_leads (first.trans leads)
    · cases read

/-- The tokens of a value stand next to each other behind the property. -/
theorem Declaration.ReadFrom.infix {d : Declaration} {property colon : Token TokenKind}
    {gap after : Tokens} (from_ : d.ReadFrom property gap colon after) :
    d.valueTokens <:+: gap ++ colon :: after :=
  calc d.valueTokens
      <:+: after.dropWhile isTrivia := from_.value.isInfix
    _ <:+: after := (List.dropWhile_suffix _).isInfix
    _ <:+: gap ++ colon :: after :=
      ((List.suffix_cons colon after).trans (List.suffix_append gap _)).isInfix

theorem Declaration.from_of_read {property : Token TokenKind} {rest : Tokens} {d : Declaration}
    {n : Nat} (within : property :: rest <:+ ts) (read : read? property rest = some (d, n)) :
    d.From ts := by
  obtain ⟨gap, colon, after, rfl, from_⟩ := exists_readFrom read
  refine ⟨⟨property, within.subset List.mem_cons_self, from_.ident, from_.property⟩, ?_⟩
  calc d.valueTokens
      ⊆ gap ++ colon :: after := from_.infix.subset
    _ ⊆ property :: (gap ++ colon :: after) := List.subset_cons_self property _
    _ ⊆ ts := within.subset

/-- The tokens of a selector are among those of the parts that the prelude is cut into. -/
theorem tokens_addParts (last : Token TokenKind) (parts : List (Tokens × Option (Token TokenKind))) :
    ∀ s ∈ (parts.foldr (addPart last) ([], [])).1,
      s.tokens ⊆ parts.flatMap fun part => part.1 ++ part.2.toList := by
  induction parts with
  | nil => simp
  | cons part parts ih =>
      rw [List.foldr_cons, List.flatMap_cons, addPart]
      have later : ∀ s ∈ (parts.foldr (addPart last) ([], [])).1, s.tokens ⊆
          (part.1 ++ part.2.toList) ++ parts.flatMap fun part => part.1 ++ part.2.toList :=
        fun s member => List.subset_append_of_subset_right _ (ih s member)
      split
      · refine List.forall_mem_cons.mpr ⟨?_, later⟩
        refine List.subset_append_of_subset_left _ (List.subset_append_of_subset_left _ ?_)
        exact (trimTrivia_sublist _).subset
      · exact later

theorem tokens_readSelectors (prelude : Tokens) :
    ∀ s ∈ (readSelectors prelude).1, s.tokens ⊆ prelude := by
  rw [readSelectors_eq]
  split
  · simp
  next last _ =>
    have parts := tokens_addParts last (splitAtCommas 0 prelude)
    rwa [flatMap_splitAtCommas] at parts

/-- To be made of tokens of the stylesheet holds wherever a piece is made. -/
theorem makes_from (ts : Tokens) (told : List Issue) : Makes ts told (Subject.From ts) where
  comment _ _ _ := trivial
  declaration _ _ _ _ within read := Declaration.from_of_read within read
  style here n _ _ _ within _ s member := by
    calc s.tokens ⊆ trimTrivia (here.take n) := tokens_readSelectors _ s member
      _ ⊆ here.take n := (trimTrivia_sublist _).subset
      _ ⊆ here := List.take_subset _ _
      _ ⊆ ts := within.subset
  atRule keyword rest n _ _ within _ := by
    calc trimTrivia (rest.take n) ⊆ rest.take n := (trimTrivia_sublist _).subset
      _ ⊆ rest := List.take_subset _ _
      _ ⊆ ts := List.Subset.trans (List.subset_cons_self keyword rest) within.subset
  block _ declarations := declarations
  items _ _ := trivial

/-- **Every token of a piece is a token of the stylesheet.** -/
theorem Sheet.subjects_from (cs : List Char) (origin : Position) :
    ∀ s ∈ (Sheet.ofText cs origin).subjects, s.From (tokenize cs origin) :=
  forall_subjects (makes_from _ _)

/-- **Every declaration is read off tokens that stand next to each other**, from its property on. -/
theorem Sheet.exists_read {cs : List Char} {origin : Position} {d : Declaration}
    (member : .cssDeclaration d ∈ (Sheet.ofText cs origin).subjects) :
    ∃ property rest n, property :: rest <:+ tokenize cs origin ∧
      Declaration.read? property rest = some (d, n) := by
  let Q (s : Subject) : Prop := ∀ d, s = .cssDeclaration d → ∃ property rest n,
    property :: rest <:+ tokenize cs origin ∧ Declaration.read? property rest = some (d, n)
  have makes : Makes (tokenize cs origin) (ofText cs origin).issues Q :=
    { comment := by simp [Q]
      declaration := by
        rintro property rest d n within read _ ⟨⟩
        exact ⟨property, rest, n, within, read⟩
      style := by simp [Q]
      atRule := by simp [Q]
      block := by simp [Q]
      items := by simp [Q] }
  exact forall_subjects makes _ member d rfl

theorem Sheet.valueTokens_infix {cs : List Char} {origin : Position} {d : Declaration}
    (member : .cssDeclaration d ∈ (Sheet.ofText cs origin).subjects) :
    d.valueTokens <:+: tokenize cs origin := by
  obtain ⟨property, rest, n, within, read⟩ := exists_read member
  obtain ⟨gap, colon, after, rfl, from_⟩ := Declaration.exists_readFrom read
  exact from_.infix.trans ((List.suffix_cons property _).trans within).isInfix

/-- **Every at-rule has its keyword**, and its prelude stands behind it. -/
theorem Sheet.exists_keyword {cs : List Char} {origin : Position} {rule : AtRule Item}
    (member : .cssAtRule rule ∈ (Sheet.ofText cs origin).subjects) :
    ∃ keyword rest n, keyword :: rest <:+ tokenize cs origin ∧ keyword.kind = .atKeyword ∧
      rule.nameSpan = keyword.span ∧ rule.preludeTokens = trimTrivia (rest.take n) ∧
      rule.preludeSpan = spanOf? rule.preludeTokens := by
  let Q (s : Subject) : Prop := ∀ rule, s = .cssAtRule rule → ∃ keyword rest n,
    keyword :: rest <:+ tokenize cs origin ∧ keyword.kind = .atKeyword ∧
      rule.nameSpan = keyword.span ∧ rule.preludeTokens = trimTrivia (rest.take n) ∧
      rule.preludeSpan = spanOf? rule.preludeTokens
  have makes : Makes (tokenize cs origin) (ofText cs origin).issues Q :=
    { comment := by simp [Q]
      declaration := by simp [Q]
      style := by simp [Q]
      atRule := by
        rintro keyword rest n body finish within kind _ ⟨⟩
        exact ⟨keyword, rest, n, within, kind, rfl, rfl, rfl⟩
      block := by simp [Q]
      items := by simp [Q] }
  exact forall_subjects makes _ member rule rfl

/-- **Every style rule has the selectors of its prelude**, and what is wrong with these is told. -/
theorem Sheet.exists_prelude {cs : List Char} {origin : Position} {rule : StyleRule Item}
    (member : .cssStyleRule rule ∈ (Sheet.ofText cs origin).subjects) :
    ∃ prelude, prelude <:+: tokenize cs origin ∧ rule.selectors = (readSelectors prelude).1 ∧
      (readSelectors prelude).2 ⊆ (Sheet.ofText cs origin).issues := by
  let Q (s : Subject) : Prop := ∀ rule, s = .cssStyleRule rule → ∃ prelude,
    prelude <:+: tokenize cs origin ∧ rule.selectors = (readSelectors prelude).1 ∧
      (readSelectors prelude).2 ⊆ (Sheet.ofText cs origin).issues
  have makes : Makes (tokenize cs origin) (ofText cs origin).issues Q :=
    { comment := by simp [Q]
      declaration := by simp [Q]
      style := by
        rintro here n keyframe block span within told _ ⟨⟩
        refine ⟨_, ?_, rfl, told⟩
        exact (trimTrivia_within _).trans ((List.take_prefix n here).isInfix.trans within.isInfix)
      atRule := by simp [Q]
      block := by simp [Q]
      items := by simp [Q] }
  exact forall_subjects makes _ member rule rfl

/-! ## At-rules that do not end -/

/-- A fault is told of an at-rule at its keyword only, and by a step none of a single token. -/
def Fault.At (t : Token TokenKind) : Fault → Prop
  | .unterminatedAtRule name => t.kind = .atKeyword ∧ name = lowerAscii (t.text.drop 1)
  | .unterminatedString | .unterminatedComment | .unterminatedUrl => False
  | _ => True

namespace Builder

variable {b : Builder} {t : Token TokenKind} {rest here : Tokens} {cap : Nat} {last : Position}

theorem at_openBlock (frame : Frame) (inside : Tokens) :
    ∀ issue ∈ (b.openBlock cap last frame inside).issues, issue.fault.At t := by
  simp only [openBlock]
  split
  · refine List.forall_mem_cons.mpr ⟨trivial, ?_⟩
    split
    · exact List.forall_mem_singleton.mpr trivial
    · simp
  · simp

theorem at_addParts (last : Token TokenKind) (parts : List (Tokens × Option (Token TokenKind))) :
    ∀ issue ∈ (parts.foldr (addPart last) ([], [])).2, issue.fault.At t := by
  induction parts with
  | nil => simp
  | cons part parts ih =>
      rw [List.foldr_cons, addPart]
      split
      · exact ih
      · exact List.forall_mem_cons.mpr ⟨trivial, ih⟩

theorem at_readSelectors (prelude : Tokens) :
    ∀ issue ∈ (readSelectors prelude).2, issue.fault.At t := by
  rw [readSelectors_eq]
  split
  · simp
  · exact at_addParts _ _

theorem at_openStyle (keyframe : Bool) (n : Nat) (opening : Span) :
    ∀ issue ∈ (b.openStyle cap last keyframe n opening here).issues, issue.fault.At t :=
  List.forall_mem_append.mpr ⟨at_readSelectors _, at_openBlock _ _⟩

theorem at_step : ∀ issue ∈ (b.step cap last t rest).issues, issue.fault.At t := by
  rw [step]
  split
  · simp
  · simp
  · simp
  · split
    · exact List.forall_mem_singleton.mpr trivial
    · simp
  next kind =>
    simp only [takeAtRule]
    split
    · exact List.forall_mem_singleton.mpr ⟨kind, rfl⟩
    split
    · simp
    split
    · exact at_openBlock _ _
    · exact List.forall_mem_singleton.mpr ⟨kind, rfl⟩
  · split
    · simp only [takeEntry]
      split
      · exact at_openStyle _ _ _
      split
      · simp
      split
      · exact List.forall_mem_singleton.mpr trivial
      · simp
    split
    · simp
    simp only [takeRule]
    split
    · exact at_openStyle _ _ _
    split
    · simp
    split
    · exact List.forall_mem_singleton.mpr trivial
    · simp

/-- What a run tells is told at one of its tokens. -/
theorem at_run (cap : Nat) (last : Position) (b : Builder) (ts : Tokens) :
    ∀ issue ∈ (b.run cap last ts).2, ∃ t ∈ ts, issue.fault.At t := by
  fun_induction Builder.run cap last b ts with
  | case1 b => simp
  | case2 b t rest s done issues run ih =>
      rw [run] at ih
      refine List.forall_mem_append.mpr ⟨?_, fun issue member => ?_⟩
      · exact fun issue member => ⟨t, List.mem_cons_self, at_step issue member⟩
      · obtain ⟨u, found, told⟩ := ih issue member
        exact ⟨u, List.mem_cons_of_mem t (List.mem_of_mem_drop found), told⟩

end Builder

/-- **Who tells of a fault**: a token by itself, a step, or the end of the tokens. -/
theorem Sheet.told_by {cs : List Char} {origin : Position} {issue : Issue}
    (member : issue ∈ (Sheet.ofText cs origin).issues) :
    (∃ t ∈ tokenize cs origin, tokenFault? t = some issue.fault ∧ t.span = issue.span) ∨
      (∃ t ∈ tokenize cs origin, issue.fault.At t) ∨ issue.fault = .unclosedBlock := by
  simp only [ofText, buildItems, Builder.finish, List.append_assoc, List.mem_append,
    List.mem_map] at member
  rcases member with single | run | ⟨frame, -, rfl⟩
  · obtain ⟨t, found, told⟩ := List.mem_filterMap.mp single
    obtain ⟨fault, own, rfl⟩ := Option.map_eq_some_iff.mp told
    exact .inl ⟨t, found, own, rfl⟩
  · exact .inr (.inl (Builder.at_run _ _ _ _ issue run))
  · exact .inr (.inr rfl)

/-- By itself a token is no at-rule. -/
theorem tokenFault?_ne (t : Token TokenKind) (name : List Char) :
    tokenFault? t ≠ some (.unterminatedAtRule name) := by
  rw [tokenFault?]
  repeat' split
  all_goals simp

/-- **An at-rule that does not end is told by the name of its keyword.** -/
theorem Sheet.keyword_of_unterminated {cs name : List Char} {origin : Position} {issue : Issue}
    (member : issue ∈ (Sheet.ofText cs origin).issues)
    (fault : issue.fault = .unterminatedAtRule name) :
    ∃ t ∈ tokenize cs origin, t.kind = .atKeyword ∧ name = lowerAscii (t.text.drop 1) := by
  have tellers := told_by member
  rw [fault] at tellers
  rcases tellers with ⟨t, -, own, -⟩ | told | ended
  · exact absurd own (tokenFault?_ne t name)
  · exact told
  · cases ended

end Css

end PageLint
