/-
# PageLint.Proofs.Css.Semicolons — declarations that lack their `;`

The value of a declaration goes on until a `;` or a `}`. So if a declaration lacks its `;`, what comes
next is a `}`, or nothing (`read?_stops`). In a block that is open this `}` ends the block, and nothing
joins the declaration there. Outside all blocks a `}` closes nothing: it is told, and the bare
declarations around it make one block (`Sheet.parted_block`).

`Builder.Ended` says that all declarations that one more could join have ended; `Builder.Parted`
leaves out the block that the next token closes. A step keeps the latter (`Builder.Parted.step`), and
so does a run.
-/
import PageLint.Proofs.Css.Walk

namespace PageLint.Css

set_option autoImplicit false

open Text

/-! ## Declarations that have ended -/

/-- **A declaration has ended** before an offset: it has its `;`, or a `}` that closes nothing is told
to stand between them. Without issues it has its `;` (`endsBefore_nil`). -/
def Declaration.EndsBefore (issues : List Issue) (d : Declaration) (offset : Nat) : Prop :=
  d.semicolon.isSome ∨ ∃ issue ∈ issues, issue.fault = .unexpectedClose ∧
    d.span.finish.offset ≤ issue.span.start.offset ∧ issue.span.finish.offset ≤ offset

/-- Each declaration of a block but the last has ended before the next one begins. -/
def Block.Parted (issues : List Issue) (block : Block Item) : Prop :=
  block.declarations.IsChain fun d e => d.EndsBefore issues e.span.start.offset

/-- In the blocks of an item every declaration but the last has its `;`. -/
def Item.Settled (item : Item) : Prop :=
  ∀ block, Subject.cssBlock block ∈ item.subjects → block.Parted []

/-- An item is settled, except that bare declarations may have ended at a `}` that is told. -/
def Item.Parted (issues : List Issue) : Item → Prop
  | .declarations block => block.opening = none ∧ block.nested = [] ∧ block.Parted issues
  | item => item.Settled

/-- The last of the bare declarations that some items, last first, begin with. -/
def bareLast? : List Item → Option Declaration
  | .declarations block :: _ => block.declarations.getLast?
  | _ => none

/-- The declaration of an open block that one more would come after. -/
def Frame.last? : Frame → Option Declaration
  | .rules _ _ items => bareLast? items
  | .block _ _ declarations _ _ => declarations.head?

/-- What an open block contains so far is settled, its own declarations but the last one with it. -/
def Frame.Parted : Frame → Prop
  | .rules _ _ items => ∀ item ∈ items, item.Parted []
  | .block _ _ declarations _ nested =>
    declarations.reverse.IsChain (fun d e => d.EndsBefore [] e.span.start.offset) ∧
      ∀ item ∈ nested, item.Settled

/-- A token ends before another one begins. -/
def Precedes (t u : Token TokenKind) : Prop := t.span.finish.offset ≤ u.span.start.offset

/-- What is left begins with a `}`, if with anything. -/
def Stops (left : Tokens) : Prop := ∀ t ∈ left.head?, t.kind = .braceClose

/-- **All declarations that one more could join have ended**: those of open blocks with their `;`, bare
ones outside blocks before any identifier that is left. -/
structure Builder.Ended (issues : List Issue) (left : Tokens) (b : Builder) : Prop where
  stack : ∀ frame ∈ b.stack, frame.Parted ∧ ∀ d ∈ frame.last?, d.semicolon.isSome
  top : ∀ item ∈ b.top, item.Parted issues
  last : ∀ d ∈ bareLast? b.top, ∀ t ∈ left, t.kind = .ident →
    d.EndsBefore issues t.span.start.offset

/-- **What every step keeps**: all have ended, but for the last one of the innermost block, if what is
left closes that. -/
def Builder.Parted (issues : List Issue) (left : Tokens) (b : Builder) : Prop :=
  b.Ended issues left ∨ Stops left ∧ ∃ frame outer,
    b.stack = frame :: outer ∧ frame.Parted ∧ Builder.Ended issues left ⟨outer, b.top⟩

/-- A step has kept that, if a `}` that comes next and closes nothing is told. -/
def Outcome.Parted (issues : List Issue) (rest : Tokens) (o : Outcome) : Prop :=
  (∀ u ∈ (rest.drop o.more).head?, u.kind = .braceClose → o.builder.stack = [] →
    ⟨.unexpectedClose, u.span⟩ ∈ issues) → o.builder.Parted issues (rest.drop o.more)

variable {issues told : List Issue} {left more rest : Tokens} {t : Token TokenKind} {d : Declaration}
  {item : Item} {items : List Item} {block : Block Item} {frame : Frame} {b : Builder} {n : Nat}

theorem Declaration.endsBefore_nil : d.EndsBefore [] n ↔ d.semicolon.isSome := by
  simp [EndsBefore]

/-! ## Items -/

theorem mem_blocks {inner : Block Item} : Subject.cssBlock inner ∈ blockSubjects block ↔
    inner = block ∨ ∃ item ∈ block.nested, Subject.cssBlock inner ∈ item.subjects := by
  simp [mem_blockSubjects]

theorem Block.Parted.blocks (parted : block.Parted [])
    (nested : ∀ item ∈ block.nested, item.Settled) :
    ∀ inner, Subject.cssBlock inner ∈ blockSubjects block → inner.Parted [] := by
  intro inner member
  rcases mem_blocks.mp member with rfl | ⟨item, found, inside⟩
  · exact parted
  · exact nested item found inner inside

theorem settled_comment (c : Comment) : (Item.comment c).Settled := by
  simp [Item.Settled, Item.subjects]

/-- Apart from bare declarations an item is parted if it is settled. -/
theorem Item.Settled.parted (settled : item.Settled) (other : ∀ block, item ≠ .declarations block) :
    item.Parted issues := by
  cases item with
  | declarations block => exact absurd rfl (other block)
  | _ => exact settled

theorem Item.Parted.settled (parted : item.Parted []) : item.Settled := by
  cases item with
  | declarations block =>
      obtain ⟨-, flat, own⟩ := parted
      intro inner member
      rw [Item.subjects] at member
      exact own.blocks (by simp [flat]) inner member
  | _ => exact parted

theorem Owner.settled_toItem (owner : Owner) (parted : block.Parted [])
    (nested : ∀ item ∈ block.nested, item.Settled) : (owner.toItem block).Settled := by
  intro inner member
  cases owner with
  | style selectors prelude keyframe =>
      have inside : Subject.cssBlock inner ∈ blockSubjects block := by
        simpa [Owner.toItem, Item.subjects] using member
      exact parted.blocks nested inner inside
  | atRule head =>
      have inside : Subject.cssBlock inner ∈ blockSubjects block := by
        simpa [Owner.toItem, AtHead.toRule, Item.subjects, bodySubjects] using member
      exact parted.blocks nested inner inside

theorem AtHead.settled_statement (head : AtHead) (finish : Position) :
    (Item.atRule (head.toRule .statement finish)).Settled := by
  simp [Item.Settled, AtHead.toRule, Item.subjects, bodySubjects]

theorem AtHead.settled_rules (head : AtHead) (opening : Span) (closing : Option Span)
    (finish : Position) (settled : ∀ item ∈ items, item.Settled) :
    (Item.atRule (head.toRule (.rules opening closing items) finish)).Settled := by
  intro inner member
  have inside : ∃ item ∈ items, Subject.cssBlock inner ∈ item.subjects := by
    simpa [AtHead.toRule, Item.subjects, bodySubjects, mem_itemsSubjects] using member
  obtain ⟨item, found, inside⟩ := inside
  exact settled item found inner inside

/-- **A block that ends is settled**, whatever its last declaration lacks. -/
theorem Frame.Parted.close (parted : frame.Parted) (closing : Option Span) (last : Position) :
    (frame.close closing last).Settled := by
  cases frame with
  | rules head opening items =>
      refine head.settled_rules opening closing _ fun item member => ?_
      exact (parted item (List.mem_reverse.mp member)).settled
  | block owner opening declarations comments nested =>
      obtain ⟨own, inside⟩ := parted
      exact owner.settled_toItem own fun item member => inside item (List.mem_reverse.mp member)

/-- A block of declarations that has just been opened. -/
theorem parted_new (owner : Owner) (opening : Span) :
    (Frame.block owner opening [] [] []).Parted := ⟨.nil, by simp⟩

/-- **A bare declaration joins those before it**, if the last of them has ended. -/
theorem parted_addBare (each : ∀ item ∈ items, item.Parted issues)
    (ended : ∀ e ∈ bareLast? items, e.EndsBefore issues d.span.start.offset) :
    ∀ item ∈ Builder.addBare d items, item.Parted issues := by
  rw [Builder.addBare.eq_def]
  split
  next block items =>
    obtain ⟨⟨bare, flat, own⟩, others⟩ := List.forall_mem_cons.mp each
    refine List.forall_mem_cons.mpr ⟨⟨bare, flat, ?_⟩, others⟩
    exact List.isChain_append.mpr ⟨own, .singleton d, fun e last first head => by
      obtain rfl := Option.some.inj head
      exact ended e last⟩
  next => exact List.forall_mem_cons.mpr ⟨⟨rfl, rfl, .singleton d⟩, each⟩

theorem bareLast?_addBare (d : Declaration) (items : List Item) :
    bareLast? (Builder.addBare d items) = some d := by
  rw [Builder.addBare.eq_def]
  split <;> simp [bareLast?]

/-! ## The end of a declaration -/

/-- A value ends at a `}` or a `;`, if the tokens do not end before. -/
theorem valueExtent_ends (depth : Nat) (ts : Tokens) :
    ∀ e ∈ ts[valueExtent depth ts]?, e.kind = .braceClose ∨ e.kind = .semicolon := by
  fun_induction valueExtent depth ts with
  | case1 => simp
  | case4 t ts _ _ kind =>
      rintro e ⟨⟩
      exact .inl kind
  | case6 depth t ts _ _ _ kind =>
      rintro e ⟨⟩
      exact .inr kind.1
  | case2 | case3 | case5 | case7 => simpa

/-- A declaration ends where one of its tokens does. -/
theorem Declaration.MadeOf.finish {first sign : Token TokenKind} {kept mark : Tokens}
    {ending : Option (Token TokenKind)} (made : d.MadeOf first sign kept mark ending) :
    ∃ u ∈ sign :: (kept ++ mark), d.span.finish = u.span.finish := by
  rw [made.span, made.important, made.valueSpan, made.colon]
  cases marked : spanOf? mark with
  | some s =>
      obtain ⟨-, -, last, isLast, rfl⟩ := spanOf?_eq_some marked
      exact ⟨last, by simp [isLast], rfl⟩
  | none =>
      cases valued : spanOf? kept with
      | some s =>
          obtain ⟨-, -, last, isLast, rfl⟩ := spanOf?_eq_some valued
          exact ⟨last, by simp [isLast], rfl⟩
      | none => exact ⟨sign, List.mem_cons_self, rfl⟩

section Reading

variable (read : Declaration.read? t rest = some (d, n))
include read

/-- A declaration begins with an identifier, and it ends where one of its tokens does. -/
theorem read?_bounds : t.kind = .ident ∧ d.span.start = t.span.start ∧
    ∃ u ∈ (t :: rest).take n, d.span.finish = u.span.finish := by
  obtain ⟨gap, colon, value, kept, mark, semicolon, made, taken, ⟨ident, -⟩, -, both⟩ :=
    read?_takes_parts read
  obtain ⟨u, member, finish⟩ := made.finish
  refine ⟨ident, by rw [made.span], u, ?_, finish⟩
  rw [taken]
  rcases List.mem_cons.mp member with rfl | member
  · simp
  · simp [both.subset member]

/-- A declaration takes at least its first token. -/
theorem read?_takes_first : (t :: rest).drop n = rest.drop (n - 1) := by
  obtain ⟨_, _, _, _, _, _, _, taken, -⟩ := read?_takes_parts read
  cases n with
  | zero => cases taken
  | succ n => rfl

/-- **A declaration without `;` ends before a `}`**, or where the tokens end. -/
theorem read?_stops (lacking : d.semicolon = none) : Stops (rest.drop (n - 1)) := by
  simp only [Declaration.read?] at read
  split at read
  · cases read
  next colon after parts =>
    split at read
    · obtain ⟨rfl, rfl⟩ := Prod.mk.inj (Option.some.inj read)
      have none_ : after[valueExtent 0 after]?.filter (·.kind == .semicolon) = none := by
        simpa using lacking
      have left : rest.drop (1 + (rest.takeWhile isTrivia).length + 1 + valueExtent 0 after + 0 - 1) =
          after.drop (valueExtent 0 after) := by
        rw [show 1 + (rest.takeWhile isTrivia).length + 1 + valueExtent 0 after + 0 - 1 =
          (rest.takeWhile isTrivia).length + (valueExtent 0 after + 1) by omega,
          ← List.drop_drop, parts, List.drop_succ_cons]
      intro e next
      rw [none_, Option.toList_none, List.length_nil, left, List.head?_drop] at next
      refine (valueExtent_ends 0 after e next).resolve_right fun kind => ?_
      simp [Option.mem_def.mp next, Option.filter, kind] at none_
    · cases read

end Reading

/-! ## What the builder does to its open blocks -/

namespace Builder

theorem ended_empty : Builder.Ended issues left .empty :=
  ⟨by simp [empty], by simp [empty], by simp [empty, bareLast?]⟩

namespace Ended

theorem mono (ended : b.Ended issues left) (fewer : more ⊆ left) : b.Ended issues more :=
  ⟨ended.stack, ended.top, fun d found t member => ended.last d found t (fewer member)⟩

/-- An item that is no bare declaration is added. -/
theorem addItem (ended : b.Ended issues left) (settled : item.Settled)
    (other : ∀ block, item ≠ .declarations block) : (b.addItem item).Ended issues left := by
  have unjoined : ∀ items, bareLast? (item :: items) = none := by
    intro items
    cases item with
    | declarations block => exact absurd rfl (other block)
    | _ => rfl
  obtain ⟨stack, top, last⟩ := ended
  rw [Builder.addItem]
  split
  next =>
    exact ⟨stack, List.forall_mem_cons.mpr ⟨settled.parted other, top⟩, by simp [unjoined]⟩
  next head opening items outer held =>
    rw [held, List.forall_mem_cons] at stack
    obtain ⟨⟨parted, -⟩, outer⟩ := stack
    refine ⟨List.forall_mem_cons.mpr ⟨⟨?_, by simp [Frame.last?, unjoined]⟩, outer⟩, top, last⟩
    exact List.forall_mem_cons.mpr ⟨settled.parted other, parted⟩
  next owner opening declarations comments nested outer held =>
    rw [held, List.forall_mem_cons] at stack
    obtain ⟨⟨⟨own, inside⟩, final⟩, outer⟩ := stack
    refine ⟨List.forall_mem_cons.mpr ⟨⟨⟨own, ?_⟩, final⟩, outer⟩, top, last⟩
    exact List.forall_mem_cons.mpr ⟨settled, inside⟩

theorem addComment (ended : b.Ended issues left) (c : Comment) :
    (b.addComment c).Ended issues left := by
  rw [Builder.addComment]
  split
  next owner opening declarations comments nested outer held =>
    obtain ⟨stack, top, last⟩ := ended
    rw [held, List.forall_mem_cons] at stack
    exact ⟨List.forall_mem_cons.mpr stack, top, last⟩
  next => exact ended.addItem (settled_comment c) (by simp)

theorem openBlock (ended : b.Ended issues left) (parted : frame.Parted) (new : frame.last? = none)
    (cap : Nat) (last : Position) (inside : Tokens) :
    (b.openBlock cap last frame inside).builder.Ended issues left := by
  simp only [Builder.openBlock]
  split
  · cases frame with
    | rules head opening items =>
        exact ended.addItem (head.settled_rules opening _ _ (by simp)) (by simp)
    | block owner opening declarations comments nested =>
        exact ended.addItem (parted.close _ _) (close_ne_declarations _ _ _)
  · exact ⟨List.forall_mem_cons.mpr ⟨⟨parted, by simp [new]⟩, ended.stack⟩, ended.top, ended.last⟩

theorem openStyle (ended : b.Ended issues left) (cap : Nat) (last : Position) (keyframe : Bool)
    (n : Nat) (opening : Span) (here : Tokens) :
    (b.openStyle cap last keyframe n opening here).builder.Ended issues left :=
  ended.openBlock (parted_new _ _) rfl _ _ _

theorem takeAtRule (ended : b.Ended issues left) (cap : Nat) (last : Position) :
    (b.takeAtRule cap last t rest).builder.Ended issues left := by
  simp only [Builder.takeAtRule]
  split
  · exact ended.addItem (AtHead.settled_statement _ _) (by simp)
  split
  · exact ended.addItem (AtHead.settled_statement _ _) (by simp)
  split
  · split
    · exact ended.openBlock (parted_new _ _) rfl _ _ _
    · exact ended.openBlock (by simp [Frame.Parted]) rfl _ _ _
  · exact ended.addItem (AtHead.settled_statement _ _) (by simp)

/-- **A declaration is added.** If it lacks its `;`, either the next token closes the block that it is
in, or it is bare and has ended before any further identifier. -/
theorem addDeclaration (ended : b.Ended issues left) (fewer : more ⊆ left)
    (begins : ∃ t ∈ left, t.kind = .ident ∧ d.span.start = t.span.start)
    (stops : d.semicolon = none → Stops more)
    (bare : b.stack = [] → ∀ t ∈ more, t.kind = .ident → d.EndsBefore issues t.span.start.offset) :
    (b.addDeclaration d).Parted issues more := by
  obtain ⟨stack, top, last⟩ := ended.mono fewer
  have joined : ∀ {frame frame' : Frame} {outer : List Frame}, b.stack = frame :: outer →
      frame'.Parted → frame'.last? = some d → Builder.Parted issues more ⟨frame' :: outer, b.top⟩ := by
    intro frame frame' outer held parted final
    rw [held, List.forall_mem_cons] at stack
    cases semicolon : d.semicolon with
    | none => exact .inr ⟨stops semicolon, frame', outer, rfl, parted, stack.2, top, last⟩
    | some s =>
        refine .inl ⟨List.forall_mem_cons.mpr ⟨⟨parted, ?_⟩, stack.2⟩, top, last⟩
        simp [final, semicolon]
  rw [Builder.addDeclaration]
  split
  next held =>
    obtain ⟨u, member, kind, start⟩ := begins
    refine .inl ⟨by simp [held], parted_addBare top fun e found => ?_, ?_⟩
    · rw [start]
      exact ended.last e found u member kind
    · rw [bareLast?_addBare]
      exact fun e same => Option.some.inj same ▸ bare held
  next head opening items outer held =>
    obtain ⟨parted, final⟩ := stack _ (held ▸ List.mem_cons_self)
    refine joined held (parted_addBare parted fun e found => ?_) (bareLast?_addBare d items)
    exact Declaration.endsBefore_nil.mpr (final e found)
  next owner opening declarations comments nested outer held =>
    obtain ⟨⟨own, inside⟩, final⟩ := stack _ (held ▸ List.mem_cons_self)
    refine joined held ⟨?_, inside⟩ rfl
    rw [List.reverse_cons]
    refine List.isChain_append.mpr ⟨own, .singleton d, fun e found _ _ => ?_⟩
    rw [List.getLast?_reverse] at found
    exact Declaration.endsBefore_nil.mpr (final e found)

end Ended

/-! ## Steps -/

namespace Parted

/-- Before any token but a `}` all declarations have ended. -/
theorem ended (parted : b.Parted issues (t :: rest)) (kind : t.kind ≠ .braceClose) :
    b.Ended issues (t :: rest) :=
  parted.resolve_right fun closes => kind (closes.1 t rfl)

/-- Whether the innermost block has ended does not matter when it is closed. -/
theorem close (parted : b.Parted issues left) (fewer : more ⊆ left) (closing : Option Span)
    (last : Position) : (b.close closing last).Ended issues more := by
  have inner : b.stack = [] ∧ b.Ended issues left ∨ ∃ frame outer,
      b.stack = frame :: outer ∧ frame.Parted ∧ Builder.Ended issues left ⟨outer, b.top⟩ := by
    rcases parted with ended | ⟨-, closes⟩
    · cases held : b.stack with
      | nil => exact .inl ⟨rfl, ended⟩
      | cons frame outer =>
          obtain ⟨own, others⟩ := List.forall_mem_cons.mp (held ▸ ended.stack)
          exact .inr ⟨frame, outer, rfl, own.1, others, ended.top, ended.last⟩
    · exact .inr closes
  rw [Builder.close]
  rcases inner with ⟨held, ended⟩ | ⟨frame, outer, held, own, ended⟩
  · rw [held]
    exact ended.mono fewer
  · rw [held]
    exact (ended.mono fewer).addItem (own.close _ _) (close_ne_declarations _ _ _)

end Parted

/-- Whatever a step takes, all have still ended. -/
theorem Ended.outcome (ended : b.Ended issues (t :: rest)) : Outcome.Parted issues rest ⟨b, told, n⟩ :=
  fun _ => .inl <| ended.mono <|
    List.Subset.trans (List.drop_subset n rest) (List.subset_cons_self t rest)

theorem stack_addDeclaration (b : Builder) (d : Declaration) :
    (b.addDeclaration d).stack = [] ↔ b.stack = [] := by
  rw [Builder.addDeclaration]
  split <;> simp [*]

/-- A declaration is taken. If it lacks its `;` and stands in no block, then the `}` after it is told,
and no identifier comes before that. -/
theorem Ended.addRead (ended : b.Ended issues (t :: rest)) (ordered : (t :: rest).Pairwise Precedes)
    (read : Declaration.read? t rest = some (d, n)) :
    Outcome.Parted issues rest ⟨b.addDeclaration d, told, n - 1⟩ := by
  intro stray
  obtain ⟨ident, start, final, isFinal, finish⟩ := read?_bounds read
  have stops := read?_stops read
  have fewer : rest.drop (n - 1) ⊆ t :: rest :=
    List.Subset.trans (List.drop_subset _ _) (List.subset_cons_self t rest)
  rw [← List.take_append_drop n (t :: rest), read?_takes_first read] at ordered
  obtain ⟨-, ordered, across⟩ := List.pairwise_append.mp ordered
  refine ended.addDeclaration fewer ⟨t, List.mem_cons_self, ident, start⟩ stops ?_
  intro bare u further kind
  cases semicolon : d.semicolon with
  | some s => exact .inl (by simp [semicolon])
  | none =>
      simp only at stray
      generalize rest.drop (n - 1) = left at *
      cases left with
      | nil => cases further
      | cons v more =>
          have brace : v.kind = .braceClose := stops semicolon v rfl
          have later : u ∈ more := (List.mem_cons.mp further).resolve_left fun same => by
            simp [same, brace] at kind
          have told := stray v rfl brace ((stack_addDeclaration b d).mpr bare)
          refine .inr ⟨_, told, rfl, ?_, List.rel_of_pairwise_cons ordered later⟩
          rw [finish]
          exact across final isFinal v List.mem_cons_self

section Steps

variable {cap : Nat} {last : Position}

theorem Ended.takeRule (ended : b.Ended issues (t :: rest)) (ordered : (t :: rest).Pairwise Precedes) :
    (b.takeRule cap last t rest).Parted issues rest := by
  simp only [Builder.takeRule]
  split
  · exact (ended.openStyle _ _ _ _ _ _).outcome
  split
  next d taken read => exact ended.addRead ordered read
  next => split <;> exact ended.outcome

theorem Ended.takeEntry (ended : b.Ended issues (t :: rest))
    (ordered : (t :: rest).Pairwise Precedes) : (b.takeEntry cap last t rest).Parted issues rest := by
  simp only [Builder.takeEntry]
  split
  · exact (ended.openStyle _ _ _ _ _ _).outcome
  split
  next d taken read => exact ended.addRead ordered read
  next => split <;> exact ended.outcome

/-- **What every step keeps.** -/
theorem Parted.step (parted : b.Parted issues (t :: rest)) (ordered : (t :: rest).Pairwise Precedes) :
    (b.step cap last t rest).Parted issues rest := by
  by_cases closes : t.kind = .braceClose
  · have closed := parted.close (List.Subset.refl _) (some t.span) last
    by_cases outside : b.stack = []
    · have step : b.step cap last t rest =
          ⟨b.close (some t.span) last, [⟨.unexpectedClose, t.span⟩], 0⟩ := by
        simp [Builder.step, Builder.close, closes, outside]
      rw [step]
      exact closed.outcome
    · have step : b.step cap last t rest = ⟨b.close (some t.span) last, [], 0⟩ := by
        simp [Builder.step, closes, outside]
      rw [step]
      exact closed.outcome
  have ended := parted.ended closes
  rw [Builder.step]
  split
  · exact ended.outcome
  · exact ended.outcome
  · exact (ended.addComment _).outcome
  next kind => exact absurd kind closes
  · exact (ended.takeAtRule _ _).outcome
  split
  · exact ended.takeEntry ordered
  split
  · exact ended.outcome
  · exact ended.takeRule ordered

/-- A `}` that comes next and closes nothing is told. -/
theorem told_stray (kind : t.kind = .braceClose) (outside : b.stack = []) :
    ⟨.unexpectedClose, t.span⟩ ∈ (b.run cap last (t :: rest)).2 := by
  simp [run, Builder.step, kind, outside]

/-- **What a run keeps**, if all that it tells is among the issues. -/
theorem Parted.run (cap : Nat) (last : Position) (b : Builder) (left : Tokens)
    (parted : b.Parted issues left) (ordered : left.Pairwise Precedes)
    (told : ∀ issue ∈ (b.run cap last left).2, issue ∈ issues) :
    (b.run cap last left).1.Parted issues [] := by
  fun_induction Builder.run cap last b left with
  | case1 b => exact parted
  | case2 b t rest s done found run ih =>
      obtain ⟨-, further⟩ := List.forall_mem_append.mp told
      have fewer : (rest.drop s.more).Pairwise Precedes :=
        ordered.sublist ((List.drop_sublist _ _).trans (List.sublist_cons_self t rest))
      rw [run] at ih
      refine ih (parted.step ordered fun u next kind outside => ?_) fewer further
      obtain ⟨more, left⟩ : ∃ more, rest.drop s.more = u :: more := List.head?_eq_some_iff.mp next
      have stray : ⟨.unexpectedClose, u.span⟩ ∈ (s.builder.run cap last (u :: more)).2 :=
        told_stray kind outside
      rw [← left, run] at stray
      exact further _ stray

theorem Ended.closeMany (last : Position) (n : Nat) (ended : b.Ended issues left) :
    (closeMany last n b).Ended issues left := by
  induction n generalizing b with
  | zero => exact ended
  | succ n ih =>
      have parted : b.Parted issues left := .inl ended
      exact ih (parted.close (List.Subset.refl _) none last)

/-- Where the tokens end, all blocks are closed. -/
theorem Parted.closeMany (parted : b.Parted issues left) (last : Position) :
    (closeMany last b.stack.length b).Ended issues left := by
  cases held : b.stack with
  | nil => exact parted.resolve_right fun ⟨_, frame, outer, some_, _⟩ => by simp [held] at some_
  | cons frame outer =>
      have closed := parted.close (List.Subset.refl _) none last
      exact closed.closeMany last outer.length

end Steps

end Builder

/-! ## Stylesheets -/

/-- **In every block of a stylesheet each declaration but the last ends with its `;`**, except that bare
declarations outside blocks go on past a `}` that closes nothing, which is told. -/
theorem Sheet.parted_block (cs : List Char) (origin : Position) {block : Block Item}
    (member : Subject.cssBlock block ∈ (Sheet.ofText cs origin).subjects) :
    block.Parted [] ∨ Item.declarations block ∈ (Sheet.ofText cs origin).items ∧
      block.opening = none ∧ block.Parted (Sheet.ofText cs origin).issues := by
  have ordered : (tokenize cs origin).Pairwise Precedes :=
    (reads_tokenize (Passage.holds_origin ⟨cs, origin⟩)).ordered
  have top : ∀ item ∈ (Sheet.ofText cs origin).items,
      item.Parted (Sheet.ofText cs origin).issues := by
    simp only [ofText, buildItems, Builder.finish, List.mem_reverse]
    refine Builder.Ended.top (Builder.Parted.closeMany (?_ : Builder.Parted _ [] _) _)
    refine Builder.Parted.run _ _ .empty _ (.inl Builder.ended_empty) ordered fun issue told => ?_
    exact List.mem_append_left _ (List.mem_append_right _ told)
  obtain ⟨item, found, inside⟩ := mem_itemsSubjects.mp ((List.mem_cons.mp member).resolve_left (by simp))
  have parted := top item found
  cases item with
  | declarations bare =>
      obtain ⟨opening, flat, own⟩ := parted
      rw [Item.subjects, mem_blocks] at inside
      obtain rfl := inside.resolve_right (by simp [flat])
      exact .inr ⟨found, opening, own⟩
  | _ => exact .inl (parted block inside)

end PageLint.Css
