/-
# PageLint.Css.Sheet — rules, blocks and declarations of a stylesheet

The structure that tokens make up. A block keeps its declarations, its comments
and its nested items in three lists, each in source order. A declaration keeps
its value both as text and as tokens, without `!important`.
-/
import PageLint.Css.Token

namespace PageLint.Css

set_option autoImplicit false

open Text

/-- At-rules whose block holds declarations rather than rules. -/
def declarationAtRules : List (List Char) :=
  ["font-face", "page", "viewport", "counter-style", "property", "font-palette-values"]

/-- A comment, delimiters included. -/
structure Comment where
  text : List Char
  span : Span
  deriving DecidableEq, Repr

/-- One selector of a list, without the trivia around it. -/
structure Selector where
  text : List Char
  span : Span
  tokens : List (Token TokenKind)
  deriving DecidableEq, Repr

/-- A declaration. Its span runs from the property through the value or
`!important` and leaves out the `;`. -/
structure Declaration where
  property : List Char
  propertySpan : Span
  colon : Span
  value : List Char
  valueSpan : Option Span
  valueTokens : List (Token TokenKind)
  important : Option Span
  semicolon : Option Span
  span : Span
  deriving DecidableEq, Repr

namespace Declaration

/-- The property in lower case. -/
def name (d : Declaration) : List Char := lowerAscii d.property

/-- Whether the property is the author's own: its name begins with `--`. -/
def isCustom (d : Declaration) : Bool := "--".toList.isPrefixOf d.property

end Declaration

/-- A block of declarations, with nested items `ι`. A bare list of declarations has
neither brace. -/
structure Block (ι : Type) where
  opening : Option Span
  closing : Option Span
  declarations : List Declaration
  comments : List Comment
  nested : List ι
  span : Span
  deriving Repr

/-- A style rule. `prelude` is all before `{`, trimmed, if anything is; `keyframe`
marks the steps of an animation. -/
structure StyleRule (ι : Type) where
  selectors : List Selector
  prelude : Option Span
  keyframe : Bool
  block : Block ι
  span : Span
  deriving Repr

/-- What follows the prelude of an at-rule. -/
inductive Body (ι : Type) where
  | statement
  | declarations (block : Block ι)
  | rules (opening : Span) (closing : Option Span) (items : List ι)
  deriving Repr

/-- An at-rule. Its name is in lower case and leaves out the `@`, which `nameSpan`
takes in. -/
structure AtRule (ι : Type) where
  name : List Char
  nameSpan : Span
  prelude : List Char
  preludeSpan : Option Span
  preludeTokens : List (Token TokenKind)
  body : Body ι
  span : Span
  deriving Repr

/-- An item of a stylesheet. `declarations` are those outside any braces. -/
inductive Item where
  | style (rule : StyleRule Item)
  | atRule (rule : AtRule Item)
  | declarations (block : Block Item)
  | comment (comment : Comment)
  deriving Repr

/-- The stretch of an item. -/
def Item.span : Item → Span
  | style rule => rule.span
  | atRule rule => rule.span
  | declarations block => block.span
  | comment c => c.span

/-- Whether an at-rule of this name holds the steps of an animation. -/
def namesKeyframes (name : List Char) : Bool := "keyframes".toList.isSuffixOf name

namespace AtRule

variable {ι : Type}

/-- Holds the steps of an animation. -/
def isKeyframes (r : AtRule ι) : Bool := namesKeyframes r.name

/-- Has no block. -/
def isStatement (r : AtRule ι) : Bool :=
  match r.body with
  | .statement => true
  | _ => false

/-- The `{` that opens the block. -/
def opening? (r : AtRule ι) : Option Span :=
  match r.body with
  | .statement => none
  | .declarations block => block.opening
  | .rules opening _ _ => some opening

end AtRule

/-- White space or a comment. -/
def isTrivia (t : Token TokenKind) : Bool :=
  t.kind == .blank || t.kind == .comment

/-- The tokens without trivia at the end. -/
def trimTriviaEnd : List (Token TokenKind) → List (Token TokenKind)
  | [] => []
  | t :: ts =>
    match trimTriviaEnd ts with
    | [] => if isTrivia t then [] else [t]
    | kept => t :: kept

/-- The tokens without trivia at either end. -/
def trimTrivia (ts : List (Token TokenKind)) : List (Token TokenKind) :=
  trimTriviaEnd (ts.dropWhile isTrivia)

end PageLint.Css
