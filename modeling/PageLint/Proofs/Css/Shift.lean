/-
# PageLint.Proofs.Css.Shift — reading a stylesheet where it stands

A stylesheet inside a page is read from the place where it begins. What is read is what
reading it as a file gives, with every place shifted (`Sheet.ofText_shift`): same kinds, same
texts, same shape.

The scans never look at places, so they answer the same for shifted tokens
(`preludeExtent_shift`, `valueExtent_shift`). The builder makes its stretches out of those of
tokens, by picking one or by joining two, and both commute with shifting; one step of it
therefore commutes (`Builder.step_shift`), and so does a run (`Builder.run_shift`).
-/
import PageLint.Lint.Document
import PageLint.Proofs.Text.Place

namespace PageLint

set_option autoImplicit false

open Text

variable {κ : Type} {o : Position}

/-! ## Tokens -/

/-- The token, shifted. -/
def Token.shift (o : Position) (t : Token κ) : Token κ := { t with span := t.span.shift o }

@[simp] theorem Token.kind_shift (t : Token κ) : (t.shift o).kind = t.kind := rfl

@[simp] theorem Token.text_shift (t : Token κ) : (t.shift o).text = t.text := rfl

@[simp] theorem Token.span_shift (t : Token κ) : (t.shift o).span = t.span.shift o := rfl

@[simp] theorem textOf_shift (ts : List (Token κ)) : textOf (ts.map (Token.shift o)) = textOf ts := by
  simp [textOf, Function.comp_def]

@[simp] theorem spanOf?_shift (ts : List (Token κ)) :
    spanOf? (ts.map (Token.shift o)) = (spanOf? ts).map (Span.shift o) := by
  rw [spanOf?, spanOf?, List.head?_map, List.getLast?_map]
  cases ts.head? <;> cases ts.getLast? <;> rfl

theorem locate_shift (origin : o.Counted) {p : Position} (counted : p.Counted)
    (pieces : List (Lexeme κ)) :
    locate (o.shift p) pieces = (locate p pieces).map (Token.shift o) := by
  induction pieces generalizing p with
  | nil => rfl
  | cons piece pieces ih =>
      rw [locate, locate, List.map_cons, ← Position.shift_after origin counted,
        ih (counted.after piece.text), ← Span.shift_covering origin counted]
      rfl

namespace Css

/-- **Tokens read where a text stands are the shifted tokens of the text.** -/
theorem tokenize_shift (origin : o.Counted) (cs : List Char) :
    tokenize cs o = (tokenize cs .start).map (Token.shift o) := by
  have located := locate_shift origin Position.counted_start (lexemes cs)
  rwa [Position.shift_start] at located

/-! ## Scans -/

variable {ts : Tokens} {t : Token TokenKind}

@[simp] theorem opensBracket_shift (t : Token TokenKind) :
    opensBracket (t.shift o) = opensBracket t := rfl

@[simp] theorem closesBracket_shift (t : Token TokenKind) :
    closesBracket (t.shift o) = closesBracket t := rfl

@[simp] theorem endsPrelude_shift (t : Token TokenKind) : endsPrelude (t.shift o) = endsPrelude t := rfl

@[simp] theorem isTrivia_shift (t : Token TokenKind) : isTrivia (t.shift o) = isTrivia t := rfl

@[simp] theorem preludeExtent_shift (depth : Nat) (ts : Tokens) :
    preludeExtent depth (ts.map (Token.shift o)) = preludeExtent depth ts := by
  induction ts generalizing depth with
  | nil => rfl
  | cons t ts ih => simp [preludeExtent, ih]

@[simp] theorem valueExtent_shift (depth : Nat) (ts : Tokens) :
    valueExtent depth (ts.map (Token.shift o)) = valueExtent depth ts := by
  induction ts generalizing depth with
  | nil => rfl
  | cons t ts ih => simp [valueExtent, ih]

@[simp] theorem entryExtent_shift (depth : Nat) (ts : Tokens) :
    entryExtent depth (ts.map (Token.shift o)) = entryExtent depth ts := by
  induction ts generalizing depth with
  | nil => rfl
  | cons t ts ih => simp [entryExtent, ih]

@[simp] theorem blockExtent_shift (depth : Nat) (ts : Tokens) :
    blockExtent depth (ts.map (Token.shift o)) =
      ((blockExtent depth ts).1, (blockExtent depth ts).2.map (Span.shift o)) := by
  induction ts generalizing depth with
  | nil => rfl
  | cons t ts ih =>
      simp only [List.map_cons, blockExtent, Token.kind_shift, ih]
      split
      · rfl
      split
      · cases depth <;> rfl
      · rfl

@[simp] theorem startsNestedRule_shift (ts : Tokens) :
    startsNestedRule (ts.map (Token.shift o)) = startsNestedRule ts := by
  simp [startsNestedRule, Option.any_map]

theorem splitAtCommas_shift (depth : Nat) (ts : Tokens) :
    splitAtCommas depth (ts.map (Token.shift o)) = (splitAtCommas depth ts).map fun part =>
      (part.1.map (Token.shift o), part.2.map (Token.shift o)) := by
  induction ts generalizing depth with
  | nil => rfl
  | cons t ts ih =>
      rw [List.map_cons, splitAtCommas, splitAtCommas, Token.kind_shift, opensBracket_shift,
        closesBracket_shift]
      split
      · rw [ih]
        rfl
      · dsimp only
        rw [ih]
        cases splitAtCommas _ ts <;> rfl

theorem trimTriviaEnd_shift (ts : Tokens) :
    trimTriviaEnd (ts.map (Token.shift o)) = (trimTriviaEnd ts).map (Token.shift o) := by
  induction ts with
  | nil => rfl
  | cons t ts ih =>
      rw [List.map_cons, trimTriviaEnd, trimTriviaEnd, ih]
      cases trimTriviaEnd ts with
      | nil => by_cases trivia : isTrivia t <;> simp [trivia]
      | cons u us => rfl

@[simp] theorem trimTrivia_shift (ts : Tokens) :
    trimTrivia (ts.map (Token.shift o)) = (trimTrivia ts).map (Token.shift o) := by
  rw [trimTrivia, trimTrivia, List.dropWhile_map]
  exact trimTriviaEnd_shift _

/-! ## What a stylesheet is made of -/

/-- The comment, shifted. -/
def Comment.shift (o : Position) (c : Comment) : Comment := { c with span := c.span.shift o }

/-- The selector, shifted. -/
def Selector.shift (o : Position) (s : Selector) : Selector :=
  { s with span := s.span.shift o, tokens := s.tokens.map (Token.shift o) }

/-- The declaration, shifted. -/
def Declaration.shift (o : Position) (d : Declaration) : Declaration :=
  { d with
    propertySpan := d.propertySpan.shift o
    colon := d.colon.shift o
    valueSpan := d.valueSpan.map (Span.shift o)
    valueTokens := d.valueTokens.map (Token.shift o)
    important := d.important.map (Span.shift o)
    semicolon := d.semicolon.map (Span.shift o)
    span := d.span.shift o }

mutual

/-- The item with all that it contains, shifted. -/
def Item.shift (o : Position) : Item → Item
  | .style ⟨selectors, prelude, keyframe, block, span⟩ =>
    .style ⟨selectors.map (Selector.shift o), prelude.map (Span.shift o), keyframe, block.shift o,
      span.shift o⟩
  | .atRule ⟨name, nameSpan, prelude, preludeSpan, preludeTokens, body, span⟩ =>
    .atRule ⟨name, nameSpan.shift o, prelude, preludeSpan.map (Span.shift o),
      preludeTokens.map (Token.shift o), body.shift o, span.shift o⟩
  | .declarations block => .declarations (block.shift o)
  | .comment c => .comment (c.shift o)

/-- The block with all that it contains, shifted. -/
def Block.shift (o : Position) : Block Item → Block Item
  | ⟨opening, closing, declarations, comments, nested, span⟩ =>
    ⟨opening.map (Span.shift o), closing.map (Span.shift o), declarations.map (Declaration.shift o),
      comments.map (Comment.shift o), shiftItems o nested, span.shift o⟩

/-- What follows the prelude of an at-rule, shifted. -/
def Body.shift (o : Position) : Body Item → Body Item
  | .statement => .statement
  | .declarations block => .declarations (block.shift o)
  | .rules opening closing items =>
    .rules (opening.shift o) (closing.map (Span.shift o)) (shiftItems o items)

/-- The items, each shifted. -/
def shiftItems (o : Position) : List Item → List Item
  | [] => []
  | item :: items => item.shift o :: shiftItems o items

end

theorem shiftItems_eq (items : List Item) : shiftItems o items = items.map (Item.shift o) := by
  induction items with
  | nil => rfl
  | cons item items ih => rw [shiftItems, ih, List.map_cons]

/-- The style rule, shifted. -/
def StyleRule.shift (o : Position) (r : StyleRule Item) : StyleRule Item :=
  { selectors := r.selectors.map (Selector.shift o)
    prelude := r.prelude.map (Span.shift o)
    keyframe := r.keyframe
    block := r.block.shift o
    span := r.span.shift o }

/-- The at-rule, shifted. -/
def AtRule.shift (o : Position) (r : AtRule Item) : AtRule Item :=
  { r with
    nameSpan := r.nameSpan.shift o
    preludeSpan := r.preludeSpan.map (Span.shift o)
    preludeTokens := r.preludeTokens.map (Token.shift o)
    body := r.body.shift o
    span := r.span.shift o }

theorem shift_style (r : StyleRule Item) : (Item.style r).shift o = .style (r.shift o) := by
  rw [Item.shift, StyleRule.shift]

theorem shift_atRule (r : AtRule Item) : (Item.atRule r).shift o = .atRule (r.shift o) := by
  rw [Item.shift, AtRule.shift]

theorem shift_declarations (block : Block Item) :
    (Item.declarations block).shift o = .declarations (block.shift o) := by
  rw [Item.shift]

theorem shift_comment (c : Comment) : (Item.comment c).shift o = .comment (c.shift o) := by
  rw [Item.shift]

@[simp] theorem Block.span_shift (block : Block Item) : (block.shift o).span = block.span.shift o := by
  rw [Block.shift]

@[simp] theorem Item.span_shift (item : Item) : (item.shift o).span = item.span.shift o := by
  cases item with
  | style r => rw [shift_style]; rfl
  | atRule r => rw [shift_atRule]; rfl
  | declarations block => rw [shift_declarations]; exact block.span_shift
  | comment c => rw [shift_comment]; rfl

/-- The fault, shifted. -/
def Issue.shift (o : Position) (issue : Issue) : Issue := { issue with span := issue.span.shift o }

/-! ## Open blocks -/

/-- The beginning of an at-rule, shifted. -/
def AtHead.shift (o : Position) (head : AtHead) : AtHead :=
  { head with nameSpan := head.nameSpan.shift o, prelude := head.prelude.map (Token.shift o) }

/-- What a block belongs to, shifted. -/
def Owner.shift (o : Position) : Owner → Owner
  | .style selectors prelude keyframe =>
    .style (selectors.map (Selector.shift o)) (prelude.map (Span.shift o)) keyframe
  | .atRule head => .atRule (head.shift o)

/-- The open block with all that it contains so far, shifted. -/
def Frame.shift (o : Position) : Frame → Frame
  | .rules head opening items =>
    .rules (head.shift o) (opening.shift o) (items.map (Item.shift o))
  | .block owner opening declarations comments nested =>
    .block (owner.shift o) (opening.shift o) (declarations.map (Declaration.shift o))
      (comments.map (Comment.shift o)) (nested.map (Item.shift o))

/-- All that is built so far, shifted. -/
def Builder.shift (o : Position) (b : Builder) : Builder :=
  ⟨b.stack.map (Frame.shift o), b.top.map (Item.shift o)⟩

/-- What a step leaves, shifted. It takes as many tokens. -/
def Outcome.shift (o : Position) (out : Outcome) : Outcome :=
  ⟨out.builder.shift o, out.issues.map (Issue.shift o), out.more⟩

theorem AtHead.toRule_shift (head : AtHead) (body : Body Item) (finish : Position) :
    (head.shift o).toRule (body.shift o) (o.shift finish) = (head.toRule body finish).shift o := by
  simp [AtHead.toRule, AtHead.shift, AtRule.shift]

theorem AtHead.finish_shift (head : AtHead) : (head.shift o).finish = o.shift head.finish := by
  simp only [AtHead.finish, AtHead.shift, spanOf?_shift]
  cases spanOf? head.prelude <;> rfl

theorem Owner.toItem_shift (origin : o.Counted) (owner : Owner) (block : Block Item) :
    (owner.shift o).toItem (block.shift o) = (owner.toItem block).shift o := by
  cases owner with
  | style selectors prelude keyframe =>
      simp only [Owner.toItem, Owner.shift, shift_style, StyleRule.shift, Block.span_shift]
      cases prelude with
      | none => rfl
      | some span => simp [Span.shift_join origin]
  | atRule head =>
      simp only [Owner.toItem, Owner.shift, shift_atRule, ← AtHead.toRule_shift, Block.span_shift,
        Span.finish_shift, Body.shift]

@[simp] theorem Frame.opening_shift (frame : Frame) :
    (frame.shift o).opening = frame.opening.shift o := by
  cases frame <;> rfl

theorem Frame.close_shift (origin : o.Counted) (frame : Frame) (closing : Option Span)
    (last : Position) :
    (frame.shift o).close (closing.map (Span.shift o)) (o.shift last) =
      (frame.close closing last).shift o := by
  cases frame with
  | rules head opening items =>
      simp only [Frame.close, Frame.shift, shift_atRule, ← AtHead.toRule_shift, Body.shift,
        shiftItems_eq, List.map_reverse]
      cases closing with
      | some span => rfl
      | none => cases items <;> simp
  | block owner opening declarations comments nested =>
      simp only [Frame.close, Frame.shift, ← Owner.toItem_shift origin]
      congr 1
      cases closing <;> simp [Block.shift, shiftItems_eq, List.map_reverse]

/-! ## Declarations and selectors -/

theorem splitImportant_shift (value : Tokens) :
    splitImportant (value.map (Token.shift o)) =
      ((splitImportant value).1.map (Token.shift o), (splitImportant value).2.map (Span.shift o)) := by
  rw [splitImportant, splitImportant, ← List.map_reverse]
  cases value.reverse with
  | nil => rfl
  | cons word before =>
      by_cases important : isImportantWord word
      · have same : isImportantWord (word.shift o) := important
        simp only [List.map_cons, important, same, Bool.not_true, Bool.false_eq_true, if_false]
        cases before with
        | nil => rfl
        | cons bang front =>
            simp only [List.map_cons, Token.kind_shift, Token.text_shift, ← List.map_reverse,
              trimTrivia_shift]
            split
            · rfl
            · cases front with
              | nil => rfl
              | cons sign front =>
                  simp only [List.map_cons, isTrivia_shift, Token.text_shift, ← List.map_reverse,
                    trimTrivia_shift]
                  split <;> rfl
      · have same : ¬ isImportantWord (word.shift o) := important
        simp [important, same]

theorem read?_shift (property : Token TokenKind) (rest : Tokens) :
    Declaration.read? (property.shift o) (rest.map (Token.shift o)) =
      (Declaration.read? property rest).map fun read => (read.1.shift o, read.2) := by
  have gap : ((rest.map (Token.shift o)).takeWhile isTrivia).length =
      (rest.takeWhile isTrivia).length := by
    rw [List.takeWhile_map, List.length_map]
    rfl
  simp only [Declaration.read?, gap, ← List.map_drop]
  cases rest.drop (rest.takeWhile isTrivia).length with
  | nil => rfl
  | cons colon after =>
      simp only [List.map_cons, Token.kind_shift, valueExtent_shift, ← List.map_take,
        trimTrivia_shift, splitImportant_shift, spanOf?_shift, textOf_shift, List.getElem?_map]
      split
      · simp only [Option.map_some, Declaration.shift, Option.some.injEq, Prod.mk.injEq]
        generalize after[valueExtent 0 after]? = semicolon
        generalize splitImportant (trimTrivia (after.take (valueExtent 0 after))) = value
        have last : ((value.2.map (Span.shift o)).or ((spanOf? value.1).map (Span.shift o))).getD
            (colon.span.shift o) = ((value.2.or (spanOf? value.1)).getD colon.span).shift o := by
          cases value.2 with
          | some span => rfl
          | none => cases spanOf? value.1 <;> rfl
        have ended : (semicolon.map (Token.shift o)).filter (·.kind == .semicolon) =
            (semicolon.filter (·.kind == .semicolon)).map (Token.shift o) := by
          cases semicolon with
          | none => rfl
          | some e => by_cases kind : e.kind = .semicolon <;> simp [Option.filter, kind]
        simp only [Token.span_shift, Token.text_shift, last, ended, Option.map_map]
        constructor
        · simp [Function.comp_def]
        · cases semicolon.filter (·.kind == .semicolon) <;> rfl
      · rfl

theorem readSelectors_shift (prelude : Tokens) :
    readSelectors (prelude.map (Token.shift o)) =
      ((readSelectors prelude).1.map (Selector.shift o),
        (readSelectors prelude).2.map (Issue.shift o)) := by
  simp only [readSelectors, List.getLast?_map]
  cases prelude.getLast? with
  | none => rfl
  | some last =>
      simp only [Option.map_some, splitAtCommas_shift]
      induction splitAtCommas 0 prelude with
      | nil => rfl
      | cons part parts ih =>
          simp only [List.map_cons, List.foldr_cons, trimTrivia_shift, spanOf?_shift, textOf_shift, ih]
          cases spanOf? (trimTrivia part.1) with
          | some span => rfl
          | none => cases part.2 <;> rfl

/-! ## What the builder does to its open blocks -/

namespace Builder

variable {b : Builder}

@[simp] theorem inBlock_shift (b : Builder) : (b.shift o).inBlock = b.inBlock := by
  obtain ⟨stack, top⟩ := b
  cases stack with
  | nil => rfl
  | cons frame outer => cases frame <;> rfl

@[simp] theorem inKeyframes_shift (b : Builder) : (b.shift o).inKeyframes = b.inKeyframes := by
  obtain ⟨stack, top⟩ := b
  cases stack with
  | nil => rfl
  | cons frame outer => cases frame <;> rfl

theorem addItem_shift (b : Builder) (item : Item) :
    (b.shift o).addItem (item.shift o) = (b.addItem item).shift o := by
  obtain ⟨stack, top⟩ := b
  cases stack with
  | nil => rfl
  | cons frame outer => cases frame <;> rfl

theorem addComment_shift (b : Builder) (c : Comment) :
    (b.shift o).addComment (c.shift o) = (b.addComment c).shift o := by
  obtain ⟨stack, top⟩ := b
  cases stack with
  | nil => simp only [addComment, shift, List.map_nil, addItem, ← shift_comment, List.map_cons]
  | cons frame outer =>
      cases frame with
      | rules head opening items =>
          simp only [addComment, shift, List.map_cons, Frame.shift, addItem, ← shift_comment]
      | block owner opening declarations comments nested => rfl

theorem addBare_shift (origin : o.Counted) (d : Declaration) (items : List Item) :
    addBare (d.shift o) (items.map (Item.shift o)) = (addBare d items).map (Item.shift o) := by
  have alone : Item.shift o (.declarations ⟨none, none, [d], [], [], d.span⟩) =
      .declarations ⟨none, none, [d.shift o], [], [], d.span.shift o⟩ := by
    simp [shift_declarations, Block.shift, shiftItems_eq]
  cases items with
  | nil =>
      simp only [List.map_nil, addBare, List.map_cons, alone]
      rfl
  | cons item items =>
      cases item with
      | declarations block =>
          obtain ⟨opening, closing, declarations, comments, nested, span⟩ := block
          simp only [List.map_cons, shift_declarations, addBare, Block.shift, List.map_append,
            List.map_nil, Span.shift_join origin]
          rfl
      | style r =>
          simp only [List.map_cons, shift_style, addBare, alone]
          rfl
      | atRule r =>
          simp only [List.map_cons, shift_atRule, addBare, alone]
          rfl
      | comment c =>
          simp only [List.map_cons, shift_comment, addBare, alone]
          rfl

theorem addDeclaration_shift (origin : o.Counted) (b : Builder) (d : Declaration) :
    (b.shift o).addDeclaration (d.shift o) = (b.addDeclaration d).shift o := by
  obtain ⟨stack, top⟩ := b
  cases stack with
  | nil => simp only [addDeclaration, shift, List.map_nil, addBare_shift origin]
  | cons frame outer =>
      cases frame with
      | rules head opening items =>
          simp only [addDeclaration, shift, List.map_cons, Frame.shift, addBare_shift origin]
      | block owner opening declarations comments nested => rfl

theorem close_shift (origin : o.Counted) (b : Builder) (closing : Option Span) (last : Position) :
    (b.shift o).close (closing.map (Span.shift o)) (o.shift last) = (b.close closing last).shift o := by
  obtain ⟨stack, top⟩ := b
  cases stack with
  | nil => rfl
  | cons frame outer =>
      simp only [close, shift, List.map_cons, Frame.close_shift origin]
      exact addItem_shift ⟨outer, top⟩ (frame.close closing last)

theorem openBlock_shift (origin : o.Counted) (b : Builder) (cap : Nat) (last : Position)
    (frame : Frame) (inside : Tokens) :
    (b.shift o).openBlock cap (o.shift last) (frame.shift o) (inside.map (Token.shift o)) =
      (b.openBlock cap last frame inside).shift o := by
  have depth : (b.shift o).stack.length = b.stack.length := List.length_map _
  simp only [openBlock, depth, blockExtent_shift, Frame.opening_shift]
  generalize blockExtent 0 inside = block
  have finish : ((block.2.map (Span.shift o)).map Span.finish).getD (o.shift last) =
      o.shift ((block.2.map Span.finish).getD last) := by
    cases block.2 <;> rfl
  have unclosed : (if (block.2.map (Span.shift o)).isNone
        then [(⟨.unclosedBlock, frame.opening.shift o⟩ : Issue)] else []) =
      (if block.2.isNone then [⟨.unclosedBlock, frame.opening⟩] else []).map (Issue.shift o) := by
    cases block.2 <;> rfl
  split
  · rw [unclosed]
    cases frame with
    | rules head opening items =>
        have whole : (Item.atRule ((head.shift o).toRule (.rules (opening.shift o)
            (block.2.map (Span.shift o)) []) (o.shift ((block.2.map Span.finish).getD last)))) =
            (Item.atRule (head.toRule (.rules opening block.2 [])
              ((block.2.map Span.finish).getD last))).shift o := by
          rw [shift_atRule, ← AtHead.toRule_shift, Body.shift, shiftItems]
        simp only [Frame.shift, finish, whole, addItem_shift]
        rfl
    | block owner opening declarations comments nested =>
        have closed := Frame.close_shift origin (.block owner opening declarations comments nested)
          block.2 last
        rw [Frame.shift] at closed ⊢
        simp only [closed, addItem_shift]
        rfl
  · rfl

/-! ## Steps -/

theorem openStyle_shift (origin : o.Counted) (b : Builder) (cap : Nat) (last : Position)
    (keyframe : Bool) (n : Nat) (opening : Span) (here : Tokens) :
    (b.shift o).openStyle cap (o.shift last) keyframe n (opening.shift o)
        (here.map (Token.shift o)) = (b.openStyle cap last keyframe n opening here).shift o := by
  simp only [openStyle, ← List.map_take, ← List.map_drop, trimTrivia_shift, readSelectors_shift,
    spanOf?_shift]
  have opened := openBlock_shift origin b cap last (.block (.style (readSelectors (trimTrivia
    (here.take n))).1 (spanOf? (trimTrivia (here.take n))) keyframe) opening [] [] [])
    (here.drop (n + 1))
  simp only [Frame.shift, Owner.shift, List.map_nil] at opened
  rw [opened]
  simp [Outcome.shift]

theorem takeAtRule_shift (origin : o.Counted) (b : Builder) (cap : Nat) (last : Position)
    (keyword : Token TokenKind) (rest : Tokens) :
    (b.shift o).takeAtRule cap (o.shift last) (keyword.shift o) (rest.map (Token.shift o)) =
      (b.takeAtRule cap last keyword rest).shift o := by
  simp only [takeAtRule, preludeExtent_shift, Token.text_shift, Token.span_shift, ← List.map_take,
    ← List.map_drop, trimTrivia_shift, List.getElem?_map]
  generalize rest.drop (preludeExtent 0 rest + 1) = inside
  have shifted : ∀ name span prelude, (⟨name, span.shift o, prelude.map (Token.shift o)⟩ : AtHead) =
      AtHead.shift o ⟨name, span, prelude⟩ := fun _ _ _ => rfl
  simp only [shifted]
  generalize (⟨lowerAscii (keyword.text.drop 1), keyword.span,
    trimTrivia (rest.take (preludeExtent 0 rest))⟩ : AtHead) = head
  have statement : ∀ finish, Item.atRule ((head.shift o).toRule .statement (o.shift finish)) =
      (Item.atRule (head.toRule .statement finish)).shift o := by
    intro finish
    rw [shift_atRule, ← AtHead.toRule_shift, Body.shift]
  simp only [AtHead.finish_shift, statement, addItem_shift, Span.start_shift]
  cases rest[preludeExtent 0 rest]? with
  | none => rfl
  | some e =>
      simp only [Option.map_some, Token.span_shift, Span.finish_shift, statement, addItem_shift]
      rw [Token.kind_shift]
      generalize declarationAtRules.contains (lowerAscii (keyword.text.drop 1)) = holds
      split
      · rfl
      by_cases opens : e.kind = .braceOpen
      · rw [if_pos opens, if_pos opens]
        cases holds with
        | true =>
            have opened := openBlock_shift origin b cap last (.block (.atRule head) e.span [] [] [])
              inside
            simp only [Frame.shift, Owner.shift, List.map_nil] at opened
            simp only [if_true, opened]
            rfl
        | false =>
            have opened := openBlock_shift origin b cap last (.rules head e.span []) inside
            simp only [Frame.shift, List.map_nil] at opened
            simp only [Bool.false_eq_true, if_false, opened]
            rfl
      · rw [if_neg opens, if_neg opens]
        rfl

theorem takeRule_shift (origin : o.Counted) (b : Builder) (cap : Nat) (last : Position)
    (t : Token TokenKind) (rest : Tokens) :
    (b.shift o).takeRule cap (o.shift last) (t.shift o) (rest.map (Token.shift o)) =
      (b.takeRule cap last t rest).shift o := by
  have here : t.shift o :: rest.map (Token.shift o) = (t :: rest).map (Token.shift o) := rfl
  simp only [takeRule, here, preludeExtent_shift, List.getElem?_map, inKeyframes_shift, read?_shift]
  have kinds : ∀ (e : Option (Token TokenKind)) (k : TokenKind),
      (e.map (Token.shift o)).any (·.kind == k) = e.any (·.kind == k) := by
    intro e k
    cases e <;> rfl
  simp only [kinds, ← List.map_take, trimTrivia_shift, spanOf?_shift]
  split
  · have opening : (((t :: rest)[preludeExtent 0 (t :: rest)]?.map (Token.shift o)).map
        Token.span).getD (t.shift o).span =
        (((t :: rest)[preludeExtent 0 (t :: rest)]?.map Token.span).getD t.span).shift o := by
      cases (t :: rest)[preludeExtent 0 (t :: rest)]? <;> rfl
    rw [opening, openStyle_shift origin]
  · cases Declaration.read? t rest with
    | some read =>
        simp only [Option.map_some, addDeclaration_shift origin]
        rfl
    | none =>
        simp only [Option.map_none]
        cases spanOf? (trimTrivia ((t :: rest).take (preludeExtent 0 (t :: rest)))) <;> rfl

theorem takeEntry_shift (origin : o.Counted) (b : Builder) (cap : Nat) (last : Position)
    (t : Token TokenKind) (rest : Tokens) :
    (b.shift o).takeEntry cap (o.shift last) (t.shift o) (rest.map (Token.shift o)) =
      (b.takeEntry cap last t rest).shift o := by
  have here : t.shift o :: rest.map (Token.shift o) = (t :: rest).map (Token.shift o) := rfl
  simp only [takeEntry, here, preludeExtent_shift, entryExtent_shift, startsNestedRule_shift,
    List.getElem?_map, read?_shift, ← List.map_take, trimTrivia_shift, spanOf?_shift, List.head?_map]
  split
  · have opening : (((t :: rest)[preludeExtent 0 (t :: rest)]?.map (Token.shift o)).map
        Token.span).getD (t.shift o).span =
        (((t :: rest)[preludeExtent 0 (t :: rest)]?.map Token.span).getD t.span).shift o := by
      cases (t :: rest)[preludeExtent 0 (t :: rest)]? <;> rfl
    rw [opening, openStyle_shift origin]
  · cases Declaration.read? t rest with
    | some read =>
        simp only [Option.map_some, addDeclaration_shift origin]
        rfl
    | none =>
        simp only [Option.map_none]
        generalize trimTrivia ((t :: rest).take (entryExtent 0 (t :: rest))) = skipped
        cases skipped.head? <;> cases spanOf? skipped <;> rfl

/-- **One step on shifted tokens is the step, shifted.** -/
theorem step_shift (origin : o.Counted) (cap : Nat) (last : Position) (b : Builder)
    (t : Token TokenKind) (rest : Tokens) :
    (b.shift o).step cap (o.shift last) (t.shift o) (rest.map (Token.shift o)) =
      (b.step cap last t rest).shift o := by
  have empty : (b.shift o).stack.isEmpty = b.stack.isEmpty := by
    simp [shift]
  rw [step, step, Token.kind_shift]
  split
  · rfl
  · rfl
  · exact congrArg (Outcome.mk · [] 0) (addComment_shift b ⟨t.text, t.span⟩)
  · rw [empty]
    split
    · rfl
    · exact congrArg (Outcome.mk · [] 0) (close_shift origin b (some t.span) last)
  · exact takeAtRule_shift origin b cap last t rest
  · rw [inBlock_shift]
    split
    · exact takeEntry_shift origin b cap last t rest
    split
    · rfl
    · exact takeRule_shift origin b cap last t rest

/-- **A run on shifted tokens is the run, shifted.** Each step takes as many tokens. -/
theorem run_shift (origin : o.Counted) (cap : Nat) (last : Position) (b : Builder) (ts : Tokens) :
    (b.shift o).run cap (o.shift last) (ts.map (Token.shift o)) =
      ((b.run cap last ts).1.shift o, (b.run cap last ts).2.map (Issue.shift o)) := by
  fun_induction Builder.run cap last b ts with
  | case1 b =>
      rw [List.map_nil, Builder.run]
      rfl
  | case2 b t rest s done issues run ih =>
      rw [List.map_cons, Builder.run, step_shift origin]
      have later : (s.builder.shift o).run cap (o.shift last)
          ((rest.map (Token.shift o)).drop s.more) =
          (done.shift o, issues.map (Issue.shift o)) := by
        rw [← List.map_drop, ih, run]
      simp only [Outcome.shift, s] at later ⊢
      rw [later, List.map_append]

theorem closeMany_shift (origin : o.Counted) (last : Position) (n : Nat) (b : Builder) :
    closeMany (o.shift last) n (b.shift o) = (closeMany last n b).shift o := by
  induction n generalizing b with
  | zero => rfl
  | succ n ih =>
      have closed := close_shift origin b none last
      rw [Option.map_none] at closed
      rw [closeMany, closeMany, closed, ih]

theorem finish_shift (origin : o.Counted) (b : Builder) (last : Position) :
    (b.shift o).finish (o.shift last) =
      ((b.finish last).1.shift o, (b.finish last).2.map (Issue.shift o)) := by
  have depth : (b.shift o).stack.length = b.stack.length := List.length_map _
  simp only [finish, depth, closeMany_shift origin, Prod.mk.injEq, true_and]
  simp [shift, Issue.shift]

end Builder

/-! ## Stylesheets -/

theorem tokenIssues_shift (ts : Tokens) :
    tokenIssues (ts.map (Token.shift o)) = (tokenIssues ts).map (Issue.shift o) := by
  have fault : ∀ t : Token TokenKind, tokenFault? (t.shift o) = tokenFault? t := fun _ => rfl
  simp only [tokenIssues, List.filterMap_map, List.map_filterMap]
  congr 1
  funext t
  simp only [Function.comp_apply, fault, Option.map_map]
  rfl

theorem buildItems_shift (origin : o.Counted) (cap : Nat) (ts : Tokens) :
    buildItems cap (ts.map (Token.shift o)) =
      ((buildItems cap ts).1.map (Item.shift o), (buildItems cap ts).2.map (Issue.shift o)) := by
  cases ts with
  | nil => simp [buildItems, Builder.run, Builder.finish, Builder.empty, Builder.closeMany, tokenIssues]
  | cons t ts =>
      have last : (((((t :: ts).map (Token.shift o)).getLast?).map Token.span).getD
          (.emptyAt .start)).finish =
          o.shift (((t :: ts).getLast?.map Token.span).getD (.emptyAt .start)).finish := by
        rw [List.getLast?_map, List.getLast?_cons]
        rfl
      have begins : Builder.empty = Builder.empty.shift o := rfl
      simp only [buildItems, last]
      generalize (((t :: ts).getLast?.map Token.span).getD (.emptyAt .start)).finish = finish
      rw [begins, Builder.run_shift origin, ← begins]
      simp only [Builder.finish_shift origin, tokenIssues_shift, List.map_append]
      simp [Builder.shift]

/-- The stylesheet, shifted. -/
def Sheet.shift (o : Position) (sheet : Sheet) : Sheet :=
  { tokens := sheet.tokens.map (Token.shift o)
    items := sheet.items.map (Item.shift o)
    issues := sheet.issues.map (Issue.shift o) }

/-- **Reading a stylesheet where it stands is reading it as a file, shifted.** -/
theorem Sheet.ofText_shift (origin : o.Counted) (cs : List Char) :
    Sheet.ofText cs o = (Sheet.ofText cs .start).shift o := by
  simp only [Sheet.ofText, tokenize_shift origin, buildItems_shift origin]
  rfl

/-- **Where a stylesheet stands tells only in its places.** Read from a place `o`, its tokens, its
items with all that they contain and its faults are those of the text alone, each place `p` moved to
`o.shift p`: the offset and the line go on from those of `o`, the column does on the first line only. -/
theorem Sheet.ofText_anywhere (line : 1 ≤ o.line) (column : 1 ≤ o.column) (cs : List Char) :
    (Sheet.ofText cs o).tokens = (Sheet.ofText cs .start).tokens.map (Token.shift o) ∧
      (Sheet.ofText cs o).items = (Sheet.ofText cs .start).items.map (Item.shift o) ∧
      (Sheet.ofText cs o).issues = (Sheet.ofText cs .start).issues.map (Issue.shift o) ∧
      ((Sheet.ofText cs o).tokens.map fun t => (t.kind, t.text)) =
        ((Sheet.ofText cs .start).tokens.map fun t => (t.kind, t.text)) ∧
      (Sheet.ofText cs o).issues.map Issue.fault = (Sheet.ofText cs .start).issues.map Issue.fault ∧
      ∀ p : Position, (o.shift p).offset = p.offset + o.offset ∧
        (o.shift p).line = p.line + o.line - 1 ∧
        (o.shift p).column = if p.line = 1 then p.column + o.column - 1 else p.column := by
  have same := Sheet.ofText_shift ⟨line, column⟩ cs
  have tokens := congrArg Sheet.tokens same
  have issues := congrArg Sheet.issues same
  refine ⟨tokens, congrArg Sheet.items same, issues, ?_, ?_, fun p => ⟨rfl, rfl, rfl⟩⟩
  · rw [tokens, Sheet.shift, List.map_map]
    rfl
  · rw [issues, Sheet.shift, List.map_map]
    rfl

/-- Two lines read from the third line on: the `}` that closes nothing keeps its column. -/
theorem Sheet.ofText_anywhere_thirdLine :
    (Sheet.ofText "a\x7b\n\x7d\x7d".toList ⟨9, 3, 5⟩).issues =
        [⟨.unexpectedClose, ⟨13, 4, 2⟩, ⟨14, 4, 3⟩⟩] ∧
      (Sheet.ofText "a\x7b\n\x7d\x7d".toList ⟨9, 3, 5⟩).issues =
        (Sheet.ofText "a\x7b\n\x7d\x7d".toList .start).issues.map (Issue.shift ⟨9, 3, 5⟩) :=
  ⟨by decide +kernel, (Sheet.ofText_anywhere (by decide) (by decide) _).2.2.1⟩

end Css

/-! ## Subjects -/

/-- The subject, shifted, if it is one of a stylesheet. -/
def Subject.shift (o : Position) : Subject → Subject
  | .cssRuleList items parent =>
    .cssRuleList (items.map (Css.Item.shift o)) (parent.map (Css.AtRule.shift o))
  | .cssStyleRule r => .cssStyleRule (r.shift o)
  | .cssAtRule r => .cssAtRule (r.shift o)
  | .cssBlock block => .cssBlock (block.shift o)
  | .cssDeclaration d => .cssDeclaration (d.shift o)
  | .cssComment c => .cssComment (c.shift o)
  | s => s

namespace Css

/-- What a block holds from an offset on, shifted. -/
def shiftEntry (o : Position) (entry : Nat × List Subject) : Nat × List Subject :=
  (entry.1 + o.offset, entry.2.map (Subject.shift o))

/-- Entries of a block come in the same order. -/
theorem subjects_sorted_shift (entries : List (Nat × List Subject)) :
    ((entries.map (shiftEntry o)).mergeSort fun a b => a.1 ≤ b.1).flatMap Prod.snd =
      ((entries.mergeSort fun a b => a.1 ≤ b.1).flatMap Prod.snd).map (Subject.shift o) := by
  have order : ∀ a ∈ entries, ∀ b ∈ entries,
      decide (a.1 ≤ b.1) = decide ((shiftEntry o a).1 ≤ (shiftEntry o b).1) := by
    intro a _ b _
    simp [shiftEntry]
  rw [← List.map_mergeSort order, List.flatMap_map, List.map_flatMap]
  rfl

mutual

theorem Item.subjects_shift (o : Position) :
    (item : Item) → (item.shift o).subjects = item.subjects.map (Subject.shift o)
  | .style ⟨selectors, prelude, keyframe, block, span⟩ => by
      rw [Item.shift, Item.subjects, Item.subjects, blockSubjects_shift o block]
      rfl
  | .atRule ⟨name, nameSpan, prelude, preludeSpan, preludeTokens, body, span⟩ => by
      have inside := bodySubjects_shift o
        ⟨name, nameSpan, prelude, preludeSpan, preludeTokens, body, span⟩ body
      rw [Item.shift, Item.subjects, Item.subjects, List.map_cons, ← inside]
      rfl
  | .declarations block => by
      rw [Item.shift, Item.subjects, Item.subjects, blockSubjects_shift o block]
  | .comment c => by
      rw [Item.shift, Item.subjects, Item.subjects]
      rfl

theorem bodySubjects_shift (o : Position) (rule : AtRule Item) :
    (body : Body Item) →
      bodySubjects (rule.shift o) (body.shift o) = (bodySubjects rule body).map (Subject.shift o)
  | .statement => by
      rw [Body.shift, bodySubjects, bodySubjects]
      rfl
  | .declarations block => by
      rw [Body.shift, bodySubjects, bodySubjects, blockSubjects_shift o block]
  | .rules opening closing items => by
      rw [Body.shift, bodySubjects, bodySubjects, itemsSubjects_shift o items, shiftItems_eq]
      rfl

theorem blockSubjects_shift (o : Position) :
    (block : Block Item) →
      blockSubjects (block.shift o) = (blockSubjects block).map (Subject.shift o)
  | ⟨opening, closing, declarations, comments, nested, span⟩ => by
      have whole : (Block.mk opening closing declarations comments nested span).shift o =
          ⟨opening.map (Span.shift o), closing.map (Span.shift o),
            declarations.map (Declaration.shift o), comments.map (Comment.shift o),
            shiftItems o nested, span.shift o⟩ := by rw [Block.shift]
      have entries :
          ((declarations.map (Declaration.shift o)).map fun d =>
              (d.span.start.offset, [Subject.cssDeclaration d])) ++
            ((comments.map (Comment.shift o)).map fun c =>
              (c.span.start.offset, [Subject.cssComment c])) ++
            nestedEntries (shiftItems o nested) =
          ((declarations.map fun d => (d.span.start.offset, [Subject.cssDeclaration d])) ++
            (comments.map fun c => (c.span.start.offset, [Subject.cssComment c])) ++
            nestedEntries nested).map (shiftEntry o) := by
        rw [nestedEntries_shift o nested, List.map_append, List.map_append]
        simp only [List.map_map]
        rfl
      rw [whole, blockSubjects, blockSubjects, List.map_cons, Subject.shift, whole]
      rw [entries, subjects_sorted_shift]

theorem nestedEntries_shift (o : Position) :
    (items : List Item) → nestedEntries (shiftItems o items) =
      (nestedEntries items).map (shiftEntry o)
  | [] => by rw [shiftItems]; rfl
  | item :: items => by
      rw [shiftItems, nestedEntries, nestedEntries, Item.subjects_shift o item,
        nestedEntries_shift o items, Item.span_shift]
      rfl

theorem itemsSubjects_shift (o : Position) :
    (items : List Item) →
      itemsSubjects (shiftItems o items) = (itemsSubjects items).map (Subject.shift o)
  | [] => by rw [shiftItems]; rfl
  | item :: items => by
      rw [shiftItems, itemsSubjects, itemsSubjects, Item.subjects_shift o item,
        itemsSubjects_shift o items, List.map_append]

end

/-- **The subjects of a shifted stylesheet are its subjects, shifted.** -/
theorem Sheet.subjects_shift (sheet : Sheet) :
    (sheet.shift o).subjects = sheet.subjects.map (Subject.shift o) := by
  rw [subjects, subjects, List.map_cons, ← itemsSubjects_shift, shiftItems_eq]
  rfl

end Css

end PageLint
