/-
# PageLint.Css.Scan — finding the end of a construct

How far preludes, values, malformed entries and whole blocks reach, as numbers of
tokens. Each scan goes over the tokens once and keeps count of the brackets that
are open; a closing bracket too many is ignored.
-/
import PageLint.Css.Sheet

namespace PageLint.Css

set_option autoImplicit false

/-- Opens a parenthesis or a bracket. -/
def opensBracket (t : Token TokenKind) : Bool :=
  t.kind == .parenOpen || t.kind == .function || t.kind == .bracketOpen

/-- Closes a parenthesis or a bracket. -/
def closesBracket (t : Token TokenKind) : Bool :=
  t.kind == .parenClose || t.kind == .bracketClose

/-- Ends a prelude: a brace or `;`. -/
def endsPrelude (t : Token TokenKind) : Bool :=
  t.kind == .braceOpen || t.kind == .semicolon || t.kind == .braceClose

/-- Number of tokens before the first brace or `;` outside parentheses and
brackets, `depth` of which are open. -/
def preludeExtent (depth : Nat) : List (Token TokenKind) → Nat
  | [] => 0
  | t :: ts =>
    if opensBracket t then preludeExtent (depth + 1) ts + 1
    else if closesBracket t then preludeExtent (depth - 1) ts + 1
    else if endsPrelude t ∧ depth = 0 then 0
    else preludeExtent depth ts + 1

/-- Number of tokens of a value: up to a `;` outside all brackets and braces, or
the `}` of the block around it. -/
def valueExtent (depth : Nat) : List (Token TokenKind) → Nat
  | [] => 0
  | t :: ts =>
    if opensBracket t || t.kind == .braceOpen then valueExtent (depth + 1) ts + 1
    else if closesBracket t then valueExtent (depth - 1) ts + 1
    else if t.kind = .braceClose then
      match depth with
      | 0 => 0
      | depth + 1 => valueExtent depth ts + 1
    else if t.kind = .semicolon ∧ depth = 0 then 0
    else valueExtent depth ts + 1

/-- Number of tokens of a malformed entry: through a `;` outside braces, through
the `}` that closes a brace of its own, or up to the `}` of the block around it. -/
def entryExtent (depth : Nat) : List (Token TokenKind) → Nat
  | [] => 0
  | t :: ts =>
    if t.kind = .braceOpen then entryExtent (depth + 1) ts + 1
    else if t.kind = .braceClose then
      match depth with
      | 0 => 0
      | 1 => 1
      | depth + 2 => entryExtent (depth + 1) ts + 1
    else if t.kind = .semicolon ∧ depth = 0 then 1
    else entryExtent depth ts + 1

/-- The rest of a block after its `{`: number of tokens through its `}`, and that
`}`; all of the tokens if there is none. -/
def blockExtent (depth : Nat) : List (Token TokenKind) → Nat × Option Span
  | [] => (0, none)
  | t :: ts =>
    let go (depth : Nat) :=
      let (n, closing) := blockExtent depth ts
      (n + 1, closing)
    if t.kind = .braceOpen then go (depth + 1)
    else if t.kind = .braceClose then
      match depth with
      | 0 => (1, some t.span)
      | depth + 1 => go depth
    else go depth

/-- Whether a `{` comes before any `;` or `}`, and the entry is no custom property. -/
def startsNestedRule (ts : List (Token TokenKind)) : Bool :=
  let custom := ts.head?.any fun t => t.kind == .ident && "--".toList.isPrefixOf t.text
  !custom && ts[preludeExtent 0 ts]?.any (·.kind == .braceOpen)

/-- Cuts tokens at the commas outside parentheses and brackets. Each part comes
with the comma that ends it; the last one has none. -/
def splitAtCommas (depth : Nat) :
    List (Token TokenKind) → List (List (Token TokenKind) × Option (Token TokenKind))
  | [] => [([], none)]
  | t :: ts =>
    if t.kind = .comma ∧ depth = 0 then ([], some t) :: splitAtCommas depth ts
    else
      let depth :=
        if opensBracket t then depth + 1 else if closesBracket t then depth - 1 else depth
      match splitAtCommas depth ts with
      | (part, comma) :: parts => (t :: part, comma) :: parts
      | [] => [([t], none)]

end PageLint.Css
