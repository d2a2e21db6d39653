/-
# PageLint.Proofs.Css.Constructs — what becomes of every token of a stylesheet

Each step of the builder takes one construct: a single token, a declaration, a prelude with what
ends it, or what is skipped. The constructs of a stylesheet are its tokens, cut
(`flatten_constructs`). What a construct leaves in the tree is told by `Leaves`: a comment or a
declaration as it is, the beginning of a rule, or nothing. A step leaves what its construct leaves
and keeps all that was there (`Builder.takesOne_step`), whatever block it opens or ends; so the tree
of a stylesheet holds what its constructs leave, and nothing besides (`Sheet.imprints_perm`).

A comment is handed to the rules if it is a construct of its own. Any other one lies in a prelude, in
a declaration after its property or in tokens that are skipped, where the tree has no place for it.
Constructs and subjects both go by the order of the text, so the comments that the rules are handed
are those that stand by themselves, in order (`Sheet.comments_subjects`).
-/
import PageLint.Proofs.Css.Balance
import PageLint.Proofs.Css.Walk

namespace PageLint

set_option autoImplicit false

open Text

namespace Css

/-! ## Constructs -/

/-- What is left of a construct in the tree: a comment or a declaration as a whole, and of a rule what
it begins with. -/
inductive Imprint where
  | comment (c : Comment)
  | declaration (d : Declaration)
  | style (prelude : Option Span) (opening : Option Span)
  | atRule (head : AtHead) (opening : Option Span)

/-- The comment that is left, if it is one. -/
def Imprint.comment? : Imprint → Option Comment
  | comment c => some c
  | _ => none

/-- The head of an at-rule that tokens spell. -/
def AtHead.ofTokens (keyword : Token TokenKind) (prelude : Tokens) : AtHead :=
  ⟨lowerAscii (keyword.text.drop 1), keyword.span, trimTrivia prelude⟩

/-- What is skipped behind a `{`: nothing, unless it is told that the block lies too deep. -/
def SkippedAt (cap : Nat) (issues : List Issue) (brace : Token TokenKind) (skipped : Tokens) : Prop :=
  skipped = [] ∨ ⟨.tooDeep cap, brace.span⟩ ∈ issues

/-- **What a construct leaves in the tree**, given what is told of the stylesheet. -/
inductive Leaves (cap : Nat) (issues : List Issue) : Tokens → List Imprint → Prop
  /-- White space, a `;`, the end of a block, or a sign that means nothing where it stands. -/
  | sign {t : Token TokenKind} : t.kind ≠ .comment → Leaves cap issues [t] []
  | comment {t : Token TokenKind} : t.kind = .comment →
    Leaves cap issues [t] [.comment ⟨t.text, t.span⟩]
  | declaration {property colon : Token TokenKind} {gap value kept mark : Tokens}
      {semicolon : Option (Token TokenKind)} {d : Declaration} :
    property.kind = .ident → (∀ t ∈ gap, isTrivia t) → colon.kind = .colon →
    (∀ t ∈ semicolon, t.kind = .semicolon) → d.MadeOf property colon kept mark semicolon →
    (kept ++ mark).Sublist value →
    Leaves cap issues (property :: (gap ++ colon :: (value ++ semicolon.toList))) [.declaration d]
  | style {prelude skipped : Tokens} {brace : Token TokenKind} :
    brace.kind = .braceOpen → SkippedAt cap issues brace skipped →
    Leaves cap issues (prelude ++ brace :: skipped)
      [.style (spanOf? (trimTrivia prelude)) (some brace.span)]
  | atRule {keyword brace : Token TokenKind} {prelude skipped : Tokens} :
    keyword.kind = .atKeyword → brace.kind = .braceOpen → SkippedAt cap issues brace skipped →
    Leaves cap issues (keyword :: (prelude ++ brace :: skipped))
      [.atRule (.ofTokens keyword prelude) (some brace.span)]
  /-- An at-rule without a block, which a `;` ends or of which it is told that none does. -/
  | statement {keyword : Token TokenKind} {prelude : Tokens} {semicolon : Option (Token TokenKind)} :
    keyword.kind = .atKeyword → (∀ t ∈ semicolon, t.kind = .semicolon) →
    (semicolon = none → ⟨.unterminatedAtRule (AtHead.ofTokens keyword prelude).name,
      ⟨keyword.span.start, (AtHead.ofTokens keyword prelude).finish⟩⟩ ∈ issues) →
    Leaves cap issues (keyword :: (prelude ++ semicolon.toList))
      [.atRule (.ofTokens keyword prelude) none]
  /-- What is skipped as malformed is told, but for a `;` that may end it and trivia around it. -/
  | malformed {skipped : Tokens} {semicolon : Option (Token TokenKind)} {issue : Issue} :
    spanOf? (trimTrivia skipped) = some issue.span → issue ∈ issues →
    (∀ t ∈ semicolon, t.kind = .semicolon) → Leaves cap issues (skipped ++ semicolon.toList) []

/-- An at-rule that nothing ends. -/
theorem Leaves.broken {cap : Nat} {issues : List Issue} {keyword : Token TokenKind} {prelude : Tokens}
    (kind : keyword.kind = .atKeyword)
    (told : ⟨.unterminatedAtRule (AtHead.ofTokens keyword prelude).name,
      ⟨keyword.span.start, (AtHead.ofTokens keyword prelude).finish⟩⟩ ∈ issues) :
    Leaves cap issues (keyword :: prelude) [.atRule (.ofTokens keyword prelude) none] := by
  have none_ : ∀ e ∈ (none : Option (Token TokenKind)), e.kind = .semicolon := by simp
  have leaves : Leaves cap issues (keyword :: (prelude ++ Option.toList none)) _ :=
    .statement kind none_ fun _ => told
  rwa [Option.toList_none, List.append_nil] at leaves

/-- Malformed tokens that no `;` ends. -/
theorem Leaves.skipped {cap : Nat} {issues : List Issue} {ts : Tokens} {issue : Issue}
    (span : spanOf? (trimTrivia ts) = some issue.span) (told : issue ∈ issues) :
    Leaves cap issues ts [] := by
  have none_ : ∀ e ∈ (none : Option (Token TokenKind)), e.kind = .semicolon := by simp
  have leaves : Leaves cap issues (ts ++ Option.toList none) [] := .malformed span told none_
  rwa [Option.toList_none, List.append_nil] at leaves

theorem Leaves.mono {cap : Nat} {issues more : List Issue} {ts : Tokens} {left : List Imprint}
    (leaves : Leaves cap issues ts left) (told : issues ⊆ more) : Leaves cap more ts left := by
  cases leaves with
  | sign other => exact .sign other
  | comment kind => exact .comment kind
  | declaration property gap colon semicolon made both =>
      exact .declaration property gap colon semicolon made both
  | style brace skipped => exact .style brace (skipped.imp_right (told ·))
  | atRule keyword brace skipped => exact .atRule keyword brace (skipped.imp_right (told ·))
  | statement keyword semicolon broken => exact .statement keyword semicolon fun none_ => told (broken none_)
  | malformed span issue semicolon => exact .malformed span (told issue) semicolon

/-- The comment that a construct is, if it is one. -/
def standing? : Tokens → Option Comment
  | [t] => if t.kind = .comment then some ⟨t.text, t.span⟩ else none
  | _ => none

theorem standing?_of_length {ts : Tokens} (longer : ts.length ≠ 1) : standing? ts = none := by
  match ts with
  | [] => rfl
  | [_] => exact absurd rfl longer
  | _ :: _ :: _ => rfl

theorem standing?_cons {t : Token TokenKind} {ts : Tokens} (other : t.kind ≠ .comment) :
    standing? (t :: ts) = none := by
  cases ts with
  | nil => exact if_neg other
  | cons u ts => rfl

/-- What is not trivia as a whole is no comment. -/
theorem standing?_of_solid {ts : Tokens} {s : Span} (solid : spanOf? (trimTrivia ts) = some s)
    (more : Tokens) : standing? (ts ++ more) = none := by
  cases ts with
  | nil => cases solid
  | cons t ts =>
      cases both : ts ++ more with
      | cons u us => rw [List.cons_append, both]; rfl
      | nil =>
          obtain ⟨rfl, rfl⟩ := List.append_eq_nil_iff.mp both
          refine standing?_cons fun kind => ?_
          have trivia : isTrivia t := by simp [isTrivia, kind]
          rw [trimTrivia, List.dropWhile_cons_of_pos trivia] at solid
          cases solid

/-- **A construct leaves a comment if it is one**, and no other. -/
theorem Leaves.comments {cap : Nat} {issues : List Issue} {ts : Tokens} {left : List Imprint}
    (leaves : Leaves cap issues ts left) :
    left.filterMap Imprint.comment? = (standing? ts).toList := by
  cases leaves with
  | sign other => rw [standing?_cons other]; rfl
  | comment kind => rw [standing?, if_pos kind]; rfl
  | declaration property => rw [standing?_cons (by simp [property])]; rfl
  | @style prelude skipped brace kind =>
      have none_ : standing? (prelude ++ brace :: skipped) = none := by
        cases prelude with
        | nil => exact standing?_cons (by simp [kind])
        | cons t ts => exact standing?_of_length (by simp)
      rw [none_]
      rfl
  | atRule keyword => rw [standing?_cons (by simp [keyword])]; rfl
  | statement keyword => rw [standing?_cons (by simp [keyword])]; rfl
  | malformed span => rw [standing?_of_solid span]; rfl

/-- What constructs leave in the way of comments are the constructs that are comments. -/
theorem comments_flatten {cap : Nat} {issues : List Issue} {constructs : List Tokens}
    {left : List (List Imprint)} (leaves : List.Forall₂ (Leaves cap issues) constructs left) :
    left.flatten.filterMap Imprint.comment? = constructs.filterMap standing? := by
  rw [List.filterMap_eq_flatMap_toList standing?]
  induction leaves with
  | nil => rfl
  | cons own _ ih => rw [List.flatten_cons, List.filterMap_append, own.comments, ih, List.flatMap_cons]

namespace Builder

/-- The constructs that tokens are taken in. -/
def constructs (cap : Nat) (last : Position) (b : Builder) (ts : Tokens) : List Tokens :=
  match ts with
  | [] => []
  | t :: rest =>
    let s := b.step cap last t rest
    (t :: rest.take s.more) :: constructs cap last s.builder (rest.drop s.more)
termination_by ts.length
decreasing_by simp only [List.length_drop, List.length_cons]; omega

/-- **Constructs are the tokens, cut.** -/
theorem flatten_constructs (cap : Nat) (last : Position) (b : Builder) (ts : Tokens) :
    (b.constructs cap last ts).flatten = ts := by
  fun_induction constructs cap last b ts with
  | case1 => rfl
  | case2 b t rest s ih => rw [List.flatten_cons, ih, List.cons_append, List.take_append_drop]

end Builder

end Css

/-! ## What the tree holds -/

/-- What a subject shows of the construct that it comes from. A block, and a list of items, comes from
none of its own. -/
def Subject.imprint? : Subject → Option Css.Imprint
  | .cssComment c => some (.comment c)
  | .cssDeclaration d => some (.declaration d)
  | .cssStyleRule rule => some (.style rule.prelude rule.block.opening)
  | .cssAtRule rule =>
    some (.atRule ⟨rule.name, rule.nameSpan, rule.preludeTokens⟩ rule.opening?)
  | _ => none

/-- The comment of a stylesheet that a subject is, if it is one. -/
def Subject.cssComment? : Subject → Option Css.Comment
  | .cssComment c => some c
  | _ => none

namespace Css

/-- What an item holds, with all that is inside it. -/
def Item.imprints (item : Item) : Multiset Imprint := ↑(item.subjects.filterMap Subject.imprint?)

/-- What some items hold. -/
def itemsImprints (items : List Item) : Multiset Imprint := (items.map Item.imprints).sum

/-- What the entries of a block hold. -/
def entriesImprints (declarations : List Declaration) (comments : List Comment) (nested : List Item) :
    Multiset Imprint :=
  ↑(declarations.map Imprint.declaration) + ↑(comments.map Imprint.comment) + itemsImprints nested

/-- What a block holds. -/
def Block.imprints (block : Block Item) : Multiset Imprint :=
  entriesImprints block.declarations block.comments block.nested

section Items

variable {item : Item} {items more : List Item} {declarations : List Declaration}
  {comments : List Comment} {nested : List Item}

@[simp] theorem itemsImprints_nil : itemsImprints [] = 0 := rfl

@[simp] theorem itemsImprints_cons (item : Item) (items : List Item) :
    itemsImprints (item :: items) = item.imprints + itemsImprints items := by
  rw [itemsImprints, List.map_cons, List.sum_cons]
  rfl

@[simp] theorem itemsImprints_reverse (items : List Item) :
    itemsImprints items.reverse = itemsImprints items := by
  rw [itemsImprints, List.map_reverse]
  exact (List.reverse_perm _).sum_eq

theorem itemsImprints_eq (items : List Item) :
    itemsImprints items = ↑((itemsSubjects items).filterMap Subject.imprint?) := by
  induction items with
  | nil => rfl
  | cons item items ih =>
      rw [itemsImprints_cons, ih, itemsSubjects, List.filterMap_append]
      rfl

@[simp] theorem entriesImprints_nil : entriesImprints [] [] [] = 0 := rfl

theorem entriesImprints_cons_declaration (d : Declaration) :
    entriesImprints (d :: declarations) comments nested =
      entriesImprints declarations comments nested + {.declaration d} := by
  simp only [entriesImprints, List.map_cons, ← Multiset.cons_coe, ← Multiset.singleton_add]
  ac_rfl

theorem entriesImprints_cons_comment (c : Comment) :
    entriesImprints declarations (c :: comments) nested =
      entriesImprints declarations comments nested + {.comment c} := by
  simp only [entriesImprints, List.map_cons, ← Multiset.cons_coe, ← Multiset.singleton_add]
  ac_rfl

theorem entriesImprints_cons_item (item : Item) :
    entriesImprints declarations comments (item :: nested) =
      entriesImprints declarations comments nested + item.imprints := by
  simp only [entriesImprints, itemsImprints_cons]
  ac_rfl

theorem entriesImprints_reverse (declarations : List Declaration) (comments : List Comment)
    (nested : List Item) :
    entriesImprints declarations.reverse comments.reverse nested.reverse =
      entriesImprints declarations comments nested := by
  simp only [entriesImprints, itemsImprints_reverse, List.map_reverse, Multiset.coe_reverse]

/-- **The pieces of a block** show what its entries hold: sorting loses none. -/
theorem Block.imprints_eq (block : Block Item) :
    ↑((blockSubjects block).filterMap Subject.imprint?) = block.imprints := by
  have sorted : ((block.entries.mergeSort fun a b => a.1 ≤ b.1).flatMap Prod.snd).Perm
      (block.entries.flatMap Prod.snd) :=
    (List.mergeSort_perm _ _).flatMap_right _
  have parts : block.entries.flatMap Prod.snd =
      block.declarations.map .cssDeclaration ++ block.comments.map .cssComment ++
        itemsSubjects block.nested := by
    rw [Block.entries, Block.singles, List.flatMap_append, List.flatMap_append, List.flatMap_map,
      List.flatMap_map, List.flatMap_map, itemsSubjects_eq]
    simp only [List.map_eq_flatMap]
  have kept := sorted.filterMap Subject.imprint?
  rw [parts, List.filterMap_append, List.filterMap_append] at kept
  rw [blockSubjects_eq, List.filterMap_cons_none rfl, Multiset.coe_eq_coe.mpr kept, Block.imprints,
    entriesImprints, itemsImprints_eq, ← Multiset.coe_add, ← Multiset.coe_add]
  have declared : (block.declarations.map Subject.cssDeclaration).filterMap Subject.imprint? =
      block.declarations.map .declaration := by
    rw [List.filterMap_map]
    exact congrFun List.filterMap_eq_map' _
  have annotated : (block.comments.map Subject.cssComment).filterMap Subject.imprint? =
      block.comments.map .comment := by
    rw [List.filterMap_map]
    exact congrFun List.filterMap_eq_map' _
  rw [declared, annotated]

theorem imprints_comment (c : Comment) : (Item.comment c).imprints = {.comment c} := by
  rw [Item.imprints, Item.subjects]
  rfl

theorem imprints_declarations (block : Block Item) :
    (Item.declarations block).imprints = block.imprints := by
  rw [Item.imprints, Item.subjects, Block.imprints_eq]

theorem imprints_style (rule : StyleRule Item) :
    (Item.style rule).imprints = {.style rule.prelude rule.block.opening} + rule.block.imprints := by
  rw [Item.imprints, Item.subjects, List.filterMap_cons_some (f := Subject.imprint?) rfl,
    ← Multiset.cons_coe, Block.imprints_eq, Multiset.singleton_add]

/-- What the body of an at-rule holds. -/
def Body.imprints : Body Item → Multiset Imprint
  | .statement => 0
  | .declarations block => block.imprints
  | .rules _ _ items => itemsImprints items

theorem imprints_atRule (head : AtHead) (body : Body Item) (finish : Position) :
    (Item.atRule (head.toRule body finish)).imprints =
      {.atRule head (head.toRule body finish).opening?} + body.imprints := by
  have inside : ∀ rule : AtRule Item,
      ↑((bodySubjects rule body).filterMap Subject.imprint?) = body.imprints := by
    intro rule
    cases body with
    | statement => rw [bodySubjects]; rfl
    | declarations block => rw [bodySubjects, Block.imprints_eq]; rfl
    | rules opening closing items =>
        rw [bodySubjects, List.filterMap_cons_none rfl, ← itemsImprints_eq]
        rfl
  rw [Item.imprints, AtHead.toRule, Item.subjects, List.filterMap_cons_some (f := Subject.imprint?) rfl,
    ← Multiset.cons_coe, inside, Multiset.singleton_add]

theorem imprints_addBare (d : Declaration) (items : List Item) :
    itemsImprints (Builder.addBare d items) = itemsImprints items + {.declaration d} := by
  rw [Builder.addBare.eq_def]
  split
  next block items =>
    simp only [itemsImprints_cons, imprints_declarations, Block.imprints, entriesImprints,
      List.map_append, List.map_singleton, ← Multiset.coe_add, Multiset.coe_singleton]
    ac_rfl
  next =>
    rw [itemsImprints_cons, imprints_declarations, Block.imprints, entriesImprints_cons_declaration,
      entriesImprints_nil, zero_add]
    exact add_comm _ _

end Items

/-! ## What the builder holds -/

/-- What the rule that a block belongs to shows of itself. -/
def Owner.imprint (owner : Owner) (opening : Span) : Imprint :=
  match owner with
  | style _ prelude _ => .style prelude (some opening)
  | atRule head => .atRule head (some opening)

/-- What an open block holds so far, its rule with it. -/
def Frame.imprints : Frame → Multiset Imprint
  | rules head opening items => {.atRule head (some opening)} + itemsImprints items
  | block owner opening declarations comments nested =>
    {owner.imprint opening} + entriesImprints declarations comments nested

/-- **A block that ends** holds what it held while it was open. -/
theorem Frame.imprints_close (frame : Frame) (closing : Option Span) (last : Position) :
    (frame.close closing last).imprints = frame.imprints := by
  cases frame with
  | rules head opening items =>
      rw [Frame.close, imprints_atRule, Body.imprints, itemsImprints_reverse]
      rfl
  | block owner opening declarations comments nested =>
      have held := entriesImprints_reverse declarations comments nested
      cases owner with
      | style selectors prelude keyframe =>
          rw [Frame.close, Owner.toItem, imprints_style, Block.imprints, held]
          rfl
      | atRule head =>
          rw [Frame.close, Owner.toItem, imprints_atRule, Body.imprints, Block.imprints, held]
          rfl

namespace Builder

variable {b : Builder} {cap n : Nat} {last : Position} {t brace : Token TokenKind}
  {rest here inside : Tokens} {frame : Frame}

/-- What the builder holds so far. -/
def imprints (b : Builder) : Multiset Imprint :=
  (b.stack.map Frame.imprints).sum + itemsImprints b.top

theorem imprints_push (b : Builder) (frame : Frame) :
    Builder.imprints { b with stack := frame :: b.stack } = b.imprints + frame.imprints := by
  rw [imprints, imprints, List.map_cons, List.sum_cons]
  ac_rfl

theorem imprints_addItem (b : Builder) (item : Item) :
    (b.addItem item).imprints = b.imprints + item.imprints := by
  rw [Builder.addItem]
  split
  next =>
    rw [imprints, imprints, itemsImprints_cons]
    ac_rfl
  next head opening items outer held =>
    simp only [imprints, held, List.map_cons, List.sum_cons, Frame.imprints, itemsImprints_cons]
    ac_rfl
  next owner opening declarations comments nested outer held =>
    simp only [imprints, held, List.map_cons, List.sum_cons, Frame.imprints,
      entriesImprints_cons_item]
    ac_rfl

theorem imprints_addComment (b : Builder) (c : Comment) :
    (b.addComment c).imprints = b.imprints + {.comment c} := by
  rw [Builder.addComment]
  split
  next owner opening declarations comments nested outer held =>
    simp only [imprints, held, List.map_cons, List.sum_cons, Frame.imprints,
      entriesImprints_cons_comment]
    ac_rfl
  next => rw [imprints_addItem, imprints_comment]

theorem imprints_addDeclaration (b : Builder) (d : Declaration) :
    (b.addDeclaration d).imprints = b.imprints + {.declaration d} := by
  rw [Builder.addDeclaration]
  split
  next =>
    rw [imprints, imprints, imprints_addBare]
    ac_rfl
  next head opening items outer held =>
    simp only [imprints, held, List.map_cons, List.sum_cons, Frame.imprints, imprints_addBare]
    ac_rfl
  next owner opening declarations comments nested outer held =>
    simp only [imprints, held, List.map_cons, List.sum_cons, Frame.imprints,
      entriesImprints_cons_declaration]
    ac_rfl

theorem imprints_close (b : Builder) (closing : Option Span) (last : Position) :
    (b.close closing last).imprints = b.imprints := by
  rw [Builder.close]
  split
  next => rfl
  next frame outer held =>
    rw [imprints_addItem, Frame.imprints_close, ← imprints_push, ← held]

theorem imprints_closeMany (last : Position) (k : Nat) (b : Builder) :
    (closeMany last k b).imprints = b.imprints := by
  induction k generalizing b with
  | zero => rfl
  | succ k ih => rw [closeMany, ih, imprints_close]

/-! ### What a step leaves -/

/-- A step takes one construct, and leaves what that leaves beside what was there. -/
def TakesOne (cap : Nat) (b : Builder) (here : Tokens) (s : Outcome) : Prop :=
  ∃ left, Leaves cap s.issues (here.take (s.more + 1)) left ∧
    s.builder.imprints = b.imprints + ↑left

/-- **A block is opened or skipped**; either way the rule that it belongs to is there. -/
theorem openBlock_leaves (b : Builder) (cap : Nat) (last : Position) (inside : Tokens)
    (new : IsNew brace.span frame) :
    (b.openBlock cap last frame inside).builder.imprints = b.imprints + frame.imprints ∧
      SkippedAt cap (b.openBlock cap last frame inside).issues brace
        (inside.take (b.openBlock cap last frame inside).more) := by
  have opening : frame.opening = brace.span := by
    rcases new with ⟨head, rfl⟩ | ⟨owner, rfl⟩ <;> rfl
  simp only [Builder.openBlock]
  split
  next =>
    refine ⟨?_, .inr (by simp [opening])⟩
    rw [imprints_addItem]
    rcases new with ⟨head, rfl⟩ | ⟨owner, rfl⟩
    · rw [imprints_atRule]
      rfl
    · rw [Frame.imprints_close]
  next => exact ⟨imprints_push b frame, .inl rfl⟩

theorem length_toList_filter {α : Type} (p : α → Bool) (x : Option α) :
    (x.filter p).toList.length = if x.any p then 1 else 0 := by
  cases x with
  | none => rfl
  | some a => by_cases holds : p a <;> simp [Option.filter, holds]

theorem take_through (found : here[n]? = some brace) (m : Nat) :
    here.take (n + m + 1) = here.take n ++ brace :: (here.drop (n + 1)).take m := by
  rw [show n + m + 1 = n + 1 + m by omega, List.take_add, List.take_add_one, found,
    List.append_assoc]
  rfl

theorem takesOne_openStyle (found : here[n]? = some brace) (kind : brace.kind = .braceOpen)
    (keyframe : Bool) :
    TakesOne cap b here (b.openStyle cap last keyframe n brace.span here) := by
  have new : IsNew brace.span (.block (.style (readSelectors (trimTrivia (here.take n))).1
      (spanOf? (trimTrivia (here.take n))) keyframe) brace.span [] [] []) := .inr ⟨_, rfl⟩
  obtain ⟨held, skipped⟩ := openBlock_leaves b cap last (here.drop (n + 1)) new
  refine ⟨[.style (spanOf? (trimTrivia (here.take n))) (some brace.span)], ?_, held⟩
  simp only [Builder.openStyle]
  rw [take_through found]
  exact .style kind (skipped.imp_right (List.mem_append_right _))

theorem takesOne_takeAtRule (kind : t.kind = .atKeyword) :
    TakesOne cap b (t :: rest) (b.takeAtRule cap last t rest) := by
  have plain : ∀ (head : AtHead) finish, (b.addItem (.atRule (head.toRule .statement finish))).imprints =
      b.imprints + ↑[Imprint.atRule head none] := by
    intro head finish
    rw [imprints_addItem, imprints_atRule]
    rfl
  simp only [Builder.takeAtRule]
  split
  next => exact ⟨_, .broken kind List.mem_cons_self, plain _ _⟩
  next e found =>
    split
    next semicolon =>
      refine ⟨_, ?_, plain _ _⟩
      rw [List.take_succ_cons, List.take_add_one, found]
      exact .statement kind (by simpa using semicolon) (by simp)
    split
    next braceOpen =>
      have new : IsNew e.span (if declarationAtRules.contains (lowerAscii (t.text.drop 1)) then
          .block (.atRule (.ofTokens t (rest.take (preludeExtent 0 rest)))) e.span [] [] []
          else .rules (.ofTokens t (rest.take (preludeExtent 0 rest))) e.span []) := by
        split
        · exact .inr ⟨_, rfl⟩
        · exact .inl ⟨_, rfl⟩
      obtain ⟨held, skipped⟩ :=
        openBlock_leaves b cap last (rest.drop (preludeExtent 0 rest + 1)) new
      refine ⟨[.atRule (.ofTokens t (rest.take (preludeExtent 0 rest))) (some e.span)], ?_, ?_⟩
      · rw [List.take_succ_cons, show ∀ m, preludeExtent 0 rest + 1 + m = preludeExtent 0 rest + m + 1
          from fun m => by omega, take_through found]
        exact .atRule kind braceOpen skipped
      · refine held.trans (congrArg (b.imprints + ·) ?_)
        split <;> rfl
    next => exact ⟨_, .broken kind List.mem_cons_self, plain _ _⟩

theorem takesOne_declaration {d : Declaration} {taken : Nat}
    (read : Declaration.read? t rest = some (d, taken)) :
    TakesOne cap b (t :: rest) ⟨b.addDeclaration d, [], taken - 1⟩ := by
  obtain ⟨gap, colon, value, kept, mark, semicolon, made, tokens, ⟨property, trivia, sign, ending⟩,
    -, both⟩ := read?_takes_parts read
  refine ⟨[.declaration d], ?_, imprints_addDeclaration b d⟩
  have positive : taken ≠ 0 := by
    rintro rfl
    cases tokens
  dsimp only
  rw [Nat.sub_add_cancel (Nat.pos_of_ne_zero positive), tokens]
  exact .declaration property trivia sign ending made both

theorem takesOne_takeRule (solid : isTrivia t = false) (semicolon : t.kind ≠ .semicolon)
    (braceClose : t.kind ≠ .braceClose) :
    TakesOne cap b (t :: rest) (b.takeRule cap last t rest) := by
  simp only [Builder.takeRule]
  by_cases brace : (t :: rest)[preludeExtent 0 (t :: rest)]?.any (·.kind == .braceOpen)
  · obtain ⟨e, found, kind⟩ := (Option.any_eq_true _ _).mp brace
    rw [if_pos brace, found]
    exact takesOne_openStyle found (eq_of_beq kind) _
  rw [if_neg brace]
  cases read : Declaration.read? t rest with
  | some taken => exact takesOne_declaration read
  | none =>
      have positive := Descent.preludeExtent_pos_of_any semicolon braceClose brace
      obtain ⟨first, span, -, there⟩ := some_left rest solid positive
      have taken : (if (t :: rest)[preludeExtent 0 (t :: rest)]?.any (·.kind == .semicolon) then
          preludeExtent 0 (t :: rest) + 1 else preludeExtent 0 (t :: rest)) =
            preludeExtent 0 (t :: rest) + ((t :: rest)[preludeExtent 0 (t :: rest)]?.filter
              (·.kind == .semicolon)).toList.length := by
        rw [length_toList_filter]
        split <;> rfl
      simp only [there]
      rw [taken]
      refine ⟨[], ?_, (add_zero _).symm⟩
      dsimp only
      rw [Nat.sub_add_cancel (positive.trans_le (Nat.le_add_right _ _)), ← take_append_filter]
      exact .malformed there List.mem_cons_self fun e found =>
        eq_of_beq (Option.filter_eq_some_iff.mp found).2

theorem takesOne_takeEntry (solid : isTrivia t = false) (braceClose : t.kind ≠ .braceClose) :
    TakesOne cap b (t :: rest) (b.takeEntry cap last t rest) := by
  simp only [Builder.takeEntry]
  by_cases rule : startsNestedRule (t :: rest)
  · have brace := rule
    rw [startsNestedRule, Bool.and_eq_true] at brace
    obtain ⟨e, found, kind⟩ := (Option.any_eq_true _ _).mp brace.2
    rw [if_pos rule, found]
    exact takesOne_openStyle found (eq_of_beq kind) _
  rw [if_neg rule]
  cases read : Declaration.read? t rest with
  | some taken => exact takesOne_declaration read
  | none =>
      have positive := Descent.entryExtent_pos braceClose rest
      obtain ⟨first, span, head, there⟩ := some_left rest solid positive
      simp only [head, there]
      refine ⟨[], ?_, (add_zero _).symm⟩
      dsimp only
      rw [Nat.sub_add_cancel positive]
      exact .skipped there List.mem_cons_self

/-- **A step takes one construct**, and leaves what that leaves beside what was there. -/
theorem takesOne_step (cap : Nat) (last : Position) (b : Builder) (t : Token TokenKind) (rest : Tokens) :
    TakesOne cap b (t :: rest) (b.step cap last t rest) := by
  have sign : ∀ {b' : Builder} {issues : List Issue}, t.kind ≠ .comment → b'.imprints = b.imprints →
      TakesOne cap b (t :: rest) ⟨b', issues, 0⟩ := fun other same =>
    ⟨[], .sign other, same.trans (add_zero _).symm⟩
  by_cases other : t.kind ∈ [.blank, .semicolon, .comment, .braceClose, .atKeyword]
  · simp only [List.mem_cons, List.not_mem_nil, or_false] at other
    rcases other with kind | kind | kind | kind | kind <;> simp only [Builder.step, kind]
    · exact sign (by simp [kind]) rfl
    · exact sign (by simp [kind]) rfl
    · exact ⟨[.comment ⟨t.text, t.span⟩], .comment kind, imprints_addComment b _⟩
    · split
      · exact sign (by simp [kind]) rfl
      · exact sign (by simp [kind]) (imprints_close b _ _)
    · exact takesOne_takeAtRule kind
  · rw [step_other other]
    simp only [List.mem_cons, List.not_mem_nil, or_false, not_or] at other
    obtain ⟨blank, semicolon, comment, braceClose, -⟩ := other
    have solid : isTrivia t = false := by simp [isTrivia, blank, comment]
    split
    · exact takesOne_takeEntry solid braceClose
    split
    · exact sign comment rfl
    · exact takesOne_takeRule solid semicolon braceClose

/-- **A run takes its tokens construct by construct**, and leaves what those leave. -/
theorem leaves_run (cap : Nat) (last : Position) (b : Builder) (ts : Tokens) :
    ∃ left : List (List Imprint),
      List.Forall₂ (Leaves cap (b.run cap last ts).2) (b.constructs cap last ts) left ∧
      (b.run cap last ts).1.imprints = b.imprints + ↑left.flatten := by
  fun_induction Builder.run cap last b ts with
  | case1 b =>
      rw [constructs]
      exact ⟨[], .nil, (add_zero _).symm⟩
  | case2 b t rest s done issues run ih =>
      obtain ⟨own, first, held⟩ := takesOne_step cap last b t rest
      obtain ⟨left, others, reached⟩ := ih
      rw [run] at others reached
      rw [constructs]
      refine ⟨own :: left, .cons ?_ (others.imp fun _ _ leaves => ?_), ?_⟩
      · exact first.mono (List.subset_append_left _ _)
      · exact leaves.mono (List.subset_append_right _ _)
      · rw [reached, held, List.flatten_cons, ← Multiset.coe_add, add_assoc]

end Builder

/-! ## Stylesheets -/

namespace Sheet

/-- The constructs of a stylesheet. -/
def constructs (sheet : Sheet) : List Tokens :=
  let last := ((sheet.tokens.getLast?.map Token.span).getD (.emptyAt .start)).finish
  Builder.empty.constructs depthCap last sheet.tokens

/-- The comments of a stylesheet that stand by themselves: each is a construct of its own. -/
def standing (sheet : Sheet) : List Comment := sheet.constructs.filterMap standing?

theorem flatten_constructs (sheet : Sheet) : sheet.constructs.flatten = sheet.tokens :=
  Builder.flatten_constructs ..

/-- Comments that stand by themselves are comments of the stylesheet, in their order. -/
theorem standing_sublist (sheet : Sheet) : sheet.standing.Sublist sheet.comments := by
  have each : ∀ ts : Tokens, (standing? ts).toList.Sublist
      ((ts.filter (·.kind == .comment)).map fun t => ⟨t.text, t.span⟩) := by
    intro ts
    cases found : standing? ts with
    | none => exact List.nil_sublist _
    | some c =>
        match ts, found with
        | [t], found =>
            obtain ⟨kind, same⟩ := Option.ite_none_right_eq_some.mp found
            rw [← Option.some.inj same]
            simp [kind]
  rw [comments, ← flatten_constructs, standing, List.filterMap_eq_flatMap_toList]
  induction sheet.constructs with
  | nil => exact .slnil
  | cons ts rest ih =>
      rw [List.flatten_cons, List.filter_append, List.map_append, List.flatMap_cons]
      exact (each ts).append ih

/-- **What the tree of a stylesheet holds is what its constructs leave**: each comes to what is said of
its kind, and together they leave what the subjects show, no more and no less. -/
theorem imprints_perm (cs : List Char) (o : Position) : ∃ left : List (List Imprint),
    List.Forall₂ (Leaves depthCap (Sheet.ofText cs o).issues) (Sheet.ofText cs o).constructs left ∧
      ((Sheet.ofText cs o).subjects.filterMap Subject.imprint?).Perm left.flatten := by
  simp only [Sheet.ofText, buildItems, Builder.finish, constructs, subjects]
  generalize (((tokenize cs o).getLast?.map Token.span).getD (.emptyAt .start)).finish = last
  obtain ⟨left, leaves, held⟩ := Builder.leaves_run depthCap last .empty (tokenize cs o)
  generalize Builder.empty.run depthCap last (tokenize cs o) = done at leaves held ⊢
  have closed := Builder.imprints_closeMany last done.1.stack.length done.1
  have nothing := (Builder.closeMany_all last done.1.stack.length rfl (Nat.le_refl _)).1
  have told : done.2 ⊆ tokenIssues (tokenize cs o) ++ done.2 ++
      done.1.stack.map fun frame => ⟨.unclosedBlock, frame.opening⟩ := fun issue told =>
    List.mem_append_left _ (List.mem_append_right _ told)
  refine ⟨left, leaves.imp fun _ _ own => own.mono told, Multiset.coe_eq_coe.mp ?_⟩
  · rw [List.filterMap_cons_none (f := Subject.imprint?) rfl, ← itemsImprints_eq,
      itemsImprints_reverse]
    rw [Builder.imprints, nothing, held] at closed
    simpa [Builder.imprints, Builder.empty] using closed

/-- The comments of a stylesheet begin one after the other. -/
theorem ascending_comments (cs : List Char) (o : Position) : (Sheet.ofText cs o).comments.Pairwise
    fun c d => c.span.start.offset < d.span.start.offset := by
  have reads : Passage.Reads ⟨cs, o⟩ (tokenize cs o) := reads_tokenize (Passage.holds_origin ⟨cs, o⟩)
  have tiles : Tiles o cs (tokenize cs o) := (run_cut scans_turn true o cs).tiles
  have tokens : (tokenize cs o).Pairwise fun t u => t.span.start.offset < u.span.start.offset :=
    reads.ordered.imp_of_mem fun member _ before => (tiles.offset_lt member).trans_le before
  exact List.pairwise_map.mpr (tokens.sublist List.filter_sublist)

/-- **The comments that the rules are handed** are those that stand by themselves, in order. Both go by
where they begin, and no two comments begin at the same place. -/
theorem comments_subjects {o : Position} (origin : o.Counted) (cs : List Char) :
    (Sheet.ofText cs o).subjects.filterMap Subject.cssComment? = (Sheet.ofText cs o).standing := by
  obtain ⟨left, leaves, same⟩ := imprints_perm cs o
  have shown : ∀ s : Subject, s.imprint?.bind Imprint.comment? = s.cssComment? := by
    intro s
    cases s <;> rfl
  have comments := same.filterMap Imprint.comment?
  rw [List.filterMap_filterMap, comments_flatten leaves] at comments
  simp only [shown] at comments
  have standing := (ascending_comments cs o).sublist (standing_sublist _)
  have visited : ((Sheet.ofText cs o).subjects.filterMap Subject.cssComment?).Pairwise
      fun c d => c.span.start.offset ≤ d.span.start.offset := by
    have starts := List.pairwise_filterMap.mp (spread_from origin cs).ascending
    refine List.pairwise_filterMap.mpr (starts.imp fun {s t} before c isComment d isNext => ?_)
    cases s <;> cases isComment
    cases t <;> cases isNext
    exact before _ rfl _ rfl
  refine comments.eq_of_pairwise (fun c d inFront inBack le ge => ?_) visited (standing.imp Nat.le_of_lt)
  by_contra different
  rcases rel_or_rel_of_mem standing (comments.subset inFront) inBack different with lt | lt
  · exact absurd ge lt.not_ge
  · exact absurd le lt.not_ge

end Sheet

end Css

end PageLint
