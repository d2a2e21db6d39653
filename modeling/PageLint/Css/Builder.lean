/-
# PageLint.Css.Builder — the items that tokens make up

A `Builder` holds the blocks that are open, innermost first, each with what it
contains so far. Every step takes one token and as many of those that follow as
belong to it: a whole declaration, a prelude with its `{`, a malformed entry. What
is wrong is answered beside the new state, and nothing is ever refused.

`cap` bounds how many blocks may be open: a block past it is skipped whole.
-/
import PageLint.Css.Fault
import PageLint.Css.Scan

namespace PageLint.Css

set_option autoImplicit false

open Text

/-- The tokens of a stylesheet. -/
abbrev Tokens := List (Token TokenKind)

/-- Whether a token is an identifier spelling `important`, up to case. -/
def isImportantWord (t : Token TokenKind) : Bool :=
  t.kind == .ident && sameIgnoringCase t.text "important"

/-- Takes `!important` off the end of a trimmed value, with at most one token of
trivia inside it. -/
def splitImportant (value : Tokens) : Tokens × Option Span :=
  match value.reverse with
  | [] => (value, none)
  | word :: before =>
    if !isImportantWord word then (value, none)
    else
      match before with
      | [] => (value, none)
      | bang :: front =>
        if bang.kind == .delim && bang.text == ['!'] then
          (trimTrivia front.reverse, some ⟨bang.span.start, word.span.finish⟩)
        else
          match front with
          | [] => (value, none)
          | sign :: front =>
            if isTrivia bang && sign.text == ['!'] then
              (trimTrivia front.reverse, some ⟨sign.span.start, word.span.finish⟩)
            else (value, none)

/-- Reads the declaration that `property` begins, with its number of tokens: an
identifier and then, after trivia, a colon. -/
def Declaration.read? (property : Token TokenKind) (rest : Tokens) : Option (Declaration × Nat) :=
  let gap := (rest.takeWhile isTrivia).length
  match rest.drop gap with
  | [] => none
  | colon :: after =>
    if property.kind = .ident ∧ colon.kind = .colon then
      let n := valueExtent 0 after
      let (value, important) := splitImportant (trimTrivia (after.take n))
      let valueSpan := spanOf? value
      let semicolon := after[n]?.filter (·.kind == .semicolon)
      let last := (important.or valueSpan).getD colon.span
      some
        ({ property := property.text
           propertySpan := property.span
           colon := colon.span
           value := textOf value
           valueSpan
           valueTokens := value
           important
           semicolon := semicolon.map Token.span
           span := ⟨property.span.start, last.finish⟩ },
          1 + gap + 1 + n + semicolon.toList.length)
    else none

/-- The selectors of a trimmed prelude, and its empty ones as faults: at the comma
that ends them, or for the last one at the last token. -/
def readSelectors (prelude : Tokens) : List Selector × List Issue :=
  match prelude.getLast? with
  | none => ([], [])
  | some last =>
    (splitAtCommas 0 prelude).foldr
      (fun (part, comma) (selectors, issues) =>
        let tokens := trimTrivia part
        match spanOf? tokens with
        | some span => (⟨textOf tokens, span, tokens⟩ :: selectors, issues)
        | none => (selectors, ⟨.emptySelector, (comma.getD last).span⟩ :: issues))
      ([], [])

/-- The beginning of an at-rule: its name and its prelude. -/
structure AtHead where
  name : List Char
  nameSpan : Span
  prelude : Tokens
  deriving Repr

/-- The at-rule that `head` begins, with what follows the prelude. -/
def AtHead.toRule (head : AtHead) (body : Body Item) (finish : Position) : AtRule Item :=
  { name := head.name
    nameSpan := head.nameSpan
    prelude := textOf head.prelude
    preludeSpan := spanOf? head.prelude
    preludeTokens := head.prelude
    body
    span := ⟨head.nameSpan.start, finish⟩ }

/-- Just past the prelude. -/
def AtHead.finish (head : AtHead) : Position :=
  ((spanOf? head.prelude).getD head.nameSpan).finish

/-- What a block of declarations belongs to. -/
inductive Owner where
  | style (selectors : List Selector) (prelude : Option Span) (keyframe : Bool)
  | atRule (head : AtHead)
  deriving Repr

/-- The item that a block completes. -/
def Owner.toItem (owner : Owner) (block : Block Item) : Item :=
  match owner with
  | style selectors prelude keyframe =>
    let span := (prelude.map (·.join block.span)).getD block.span
    .style { selectors, prelude, keyframe, block, span }
  | atRule head => .atRule (head.toRule (.declarations block) block.span.finish)

/-- A block that is open. What it contains so far stands last first. -/
inductive Frame where
  | rules (head : AtHead) (opening : Span) (items : List Item)
  | block (owner : Owner) (opening : Span) (declarations : List Declaration)
      (comments : List Comment) (nested : List Item)
  deriving Repr

/-- The `{` of an open block. -/
def Frame.opening : Frame → Span
  | rules _ opening _ => opening
  | block _ opening _ _ _ => opening

/-- The item that an open block becomes when it ends, at its `}` or, for want of
one, at the end of the tokens. -/
def Frame.close (frame : Frame) (closing : Option Span) (last : Position) : Item :=
  match frame with
  | rules head opening items =>
    let finish := ((closing.or (items.head?.map Item.span)).getD opening).finish
    .atRule (head.toRule (.rules opening closing items.reverse) finish)
  | block owner opening declarations comments nested =>
    let finish := (closing.map Span.finish).getD last
    owner.toItem
      { opening := some opening
        closing
        declarations := declarations.reverse
        comments := comments.reverse
        nested := nested.reverse
        span := ⟨opening.start, finish⟩ }

/-- A stylesheet under construction: the open blocks, innermost first, and the
items that lie in none, last first. -/
structure Builder where
  stack : List Frame
  top : List Item
  deriving Repr

/-- What a step leaves: the new state, what is wrong, and how many tokens it took
after the first. -/
structure Outcome where
  builder : Builder
  issues : List Issue
  more : Nat
  deriving Repr

namespace Builder

/-- Before the first token. -/
def empty : Builder := ⟨[], []⟩

/-- Whether the innermost open block holds declarations. -/
def inBlock (b : Builder) : Bool :=
  match b.stack with
  | .block .. :: _ => true
  | _ => false

/-- Whether the items that come next are the steps of an animation. -/
def inKeyframes (b : Builder) : Bool :=
  match b.stack with
  | .rules head _ _ :: _ => namesKeyframes head.name
  | _ => false

/-- Adds an item to the innermost open block. -/
def addItem (b : Builder) (item : Item) : Builder :=
  match b.stack with
  | [] => { b with top := item :: b.top }
  | .rules head opening items :: outer =>
    { b with stack := .rules head opening (item :: items) :: outer }
  | .block owner opening declarations comments nested :: outer =>
    { b with stack := .block owner opening declarations comments (item :: nested) :: outer }

/-- Adds a comment to the innermost open block. -/
def addComment (b : Builder) (c : Comment) : Builder :=
  match b.stack with
  | .block owner opening declarations comments nested :: outer =>
    { b with stack := .block owner opening declarations (c :: comments) nested :: outer }
  | _ => b.addItem (.comment c)

/-- Adds a bare declaration to some items, last first: neighbours make one block. -/
def addBare (d : Declaration) : List Item → List Item
  | .declarations block :: items =>
    .declarations
      { block with declarations := block.declarations ++ [d], span := block.span.join d.span } ::
      items
  | items => .declarations ⟨none, none, [d], [], [], d.span⟩ :: items

/-- Adds a declaration to the innermost open block. -/
def addDeclaration (b : Builder) (d : Declaration) : Builder :=
  match b.stack with
  | [] => { b with top := addBare d b.top }
  | .rules head opening items :: outer =>
    { b with stack := .rules head opening (addBare d items) :: outer }
  | .block owner opening declarations comments nested :: outer =>
    { b with stack := .block owner opening (d :: declarations) comments nested :: outer }

/-- Ends the innermost open block. -/
def close (b : Builder) (closing : Option Span) (last : Position) : Builder :=
  match b.stack with
  | [] => b
  | frame :: outer => { b with stack := outer }.addItem (frame.close closing last)

/-- Opens the block that `frame` is, `inside` being what follows its `{`. Past the
cap the block is taken whole, and empty. -/
def openBlock (b : Builder) (cap : Nat) (last : Position) (frame : Frame) (inside : Tokens) :
    Outcome :=
  if cap ≤ b.stack.length then
    let (n, closing) := blockExtent 0 inside
    let finish := (closing.map Span.finish).getD last
    let item :=
      match frame with
      | .rules head opening _ => .atRule (head.toRule (.rules opening closing []) finish)
      | .block .. => frame.close closing last
    let unclosed : List Issue :=
      if closing.isNone then [⟨.unclosedBlock, frame.opening⟩] else []
    ⟨b.addItem item, ⟨.tooDeep cap, frame.opening⟩ :: unclosed, n⟩
  else ⟨{ b with stack := frame :: b.stack }, [], 0⟩

/-- Begins a style rule whose prelude is the first `n` tokens. -/
def openStyle (b : Builder) (cap : Nat) (last : Position) (keyframe : Bool) (n : Nat)
    (opening : Span) (here : Tokens) : Outcome :=
  let prelude := trimTrivia (here.take n)
  let (selectors, issues) := readSelectors prelude
  let frame := Frame.block (.style selectors (spanOf? prelude) keyframe) opening [] [] []
  let opened := b.openBlock cap last frame (here.drop (n + 1))
  ⟨opened.builder, issues ++ opened.issues, n + opened.more⟩

/-- Reads an at-rule up to its `;` or `{`. -/
def takeAtRule (b : Builder) (cap : Nat) (last : Position) (keyword : Token TokenKind)
    (rest : Tokens) : Outcome :=
  let n := preludeExtent 0 rest
  let name := lowerAscii (keyword.text.drop 1)
  let head : AtHead := ⟨name, keyword.span, trimTrivia (rest.take n)⟩
  let inside := rest.drop (n + 1)
  let broken : Outcome :=
    ⟨b.addItem (.atRule (head.toRule .statement head.finish)),
      [⟨.unterminatedAtRule name, ⟨keyword.span.start, head.finish⟩⟩], n⟩
  match rest[n]? with
  | none => broken
  | some e =>
    if e.kind = .semicolon then
      ⟨b.addItem (.atRule (head.toRule .statement e.span.finish)), [], n + 1⟩
    else if e.kind = .braceOpen then
      let frame :=
        if declarationAtRules.contains name then Frame.block (.atRule head) e.span [] [] []
        else .rules head e.span []
      let opened := b.openBlock cap last frame inside
      ⟨opened.builder, opened.issues, n + 1 + opened.more⟩
    else broken

/-- Reads a rule or a declaration outside blocks of declarations. -/
def takeRule (b : Builder) (cap : Nat) (last : Position) (t : Token TokenKind) (rest : Tokens) :
    Outcome :=
  let here := t :: rest
  let n := preludeExtent 0 here
  let stray : Nat → Outcome := fun taken =>
    match spanOf? (trimTrivia (here.take n)) with
    | some span => ⟨b, [⟨.strayTokens, span⟩], taken - 1⟩
    | none => ⟨b, [], taken - 1⟩
  let ended := here[n]?
  if ended.any (·.kind == .braceOpen) then
    b.openStyle cap last b.inKeyframes n ((ended.map Token.span).getD t.span) here
  else
    match Declaration.read? t rest with
    | some (d, taken) => ⟨b.addDeclaration d, [], taken - 1⟩
    | none => stray (if ended.any (·.kind == .semicolon) then n + 1 else n)

/-- Reads an entry of a block of declarations. -/
def takeEntry (b : Builder) (cap : Nat) (last : Position) (t : Token TokenKind) (rest : Tokens) :
    Outcome :=
  let here := t :: rest
  if startsNestedRule here then
    let n := preludeExtent 0 here
    b.openStyle cap last false n ((here[n]?.map Token.span).getD t.span) here
  else
    match Declaration.read? t rest with
    | some (d, taken) => ⟨b.addDeclaration d, [], taken - 1⟩
    | none =>
      let n := entryExtent 0 here
      let skipped := trimTrivia (here.take n)
      match skipped.head?, spanOf? skipped with
      | some first, some span => ⟨b, [⟨.strayInBlock first.text, span⟩], n - 1⟩
      | _, _ => ⟨b, [], n - 1⟩

/-- Takes one token, with those after it that belong to it. `last` is the end of
all tokens. -/
def step (cap : Nat) (last : Position) (b : Builder) (t : Token TokenKind) (rest : Tokens) :
    Outcome :=
  match t.kind with
  | .blank | .semicolon => ⟨b, [], 0⟩
  | .comment => ⟨b.addComment ⟨t.text, t.span⟩, [], 0⟩
  | .braceClose =>
    if b.stack.isEmpty then ⟨b, [⟨.unexpectedClose, t.span⟩], 0⟩
    else ⟨b.close (some t.span) last, [], 0⟩
  | .atKeyword => b.takeAtRule cap last t rest
  | kind =>
    if b.inBlock then b.takeEntry cap last t rest
    else if kind = .cdo ∨ kind = .cdc ∨ kind = .byteOrderMark then ⟨b, [], 0⟩
    else b.takeRule cap last t rest

/-- Takes tokens in order. -/
def run (cap : Nat) (last : Position) (b : Builder) (ts : Tokens) : Builder × List Issue :=
  match ts with
  | [] => (b, [])
  | t :: rest =>
    let s := b.step cap last t rest
    let (done, issues) := run cap last s.builder (rest.drop s.more)
    (done, s.issues ++ issues)
termination_by ts.length
decreasing_by simp only [List.length_drop, List.length_cons]; omega

/-- Ends the `n` innermost open blocks where the tokens end. -/
def closeMany (last : Position) : Nat → Builder → Builder
  | 0, b => b
  | n + 1, b => closeMany last n (b.close none last)

/-- Ends all that is open where the tokens end. -/
def finish (b : Builder) (last : Position) : Builder × List Issue :=
  (closeMany last b.stack.length b, b.stack.map fun frame => ⟨.unclosedBlock, frame.opening⟩)

end Builder

/-- The deepest nesting that is told apart. -/
def depthCap : Nat := 256

/-- A stylesheet: its tokens, its items and what is wrong with it. -/
structure Sheet where
  tokens : Tokens
  items : List Item
  issues : List Issue
  deriving Repr

/-- Reads tokens, with all that is wrong: faults of single tokens first, then those
of structure in the order they are met. -/
def buildItems (cap : Nat) (ts : Tokens) : List Item × List Issue :=
  let last := ((ts.getLast?.map Token.span).getD (.emptyAt .start)).finish
  let (b, issues) := Builder.empty.run cap last ts
  let (b, unclosed) := b.finish last
  (b.top.reverse, tokenIssues ts ++ issues ++ unclosed)

namespace Sheet

/-- Reads a stylesheet whose first character lies at `origin`. -/
def ofText (cs : List Char) (origin : Position) : Sheet :=
  let tokens := tokenize cs origin
  let (items, issues) := buildItems depthCap tokens
  { tokens, items, issues }

/-- The comments, wherever they stand. -/
def comments (sheet : Sheet) : List Comment :=
  (sheet.tokens.filter (·.kind == .comment)).map fun t => ⟨t.text, t.span⟩

end Sheet

end PageLint.Css
