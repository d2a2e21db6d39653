/-
# PageLint.Css.Fault — what can be wrong with a stylesheet

Faults of single tokens, which the lexer leaves in place, and faults of structure.
`tokenIssues` lists the former.
-/
import PageLint.Css.Sheet

namespace PageLint.Css

set_option autoImplicit false

/-- What can be wrong with a stylesheet. -/
inductive Fault where
  | unterminatedString
  | unterminatedComment
  | unterminatedUrl
  /-- A `}` that closes nothing. -/
  | unexpectedClose
  /-- Tokens that are neither a rule nor a declaration. -/
  | strayTokens
  | emptySelector
  | unclosedBlock
  /-- More blocks are open than are told apart. -/
  | tooDeep (cap : Nat)
  /-- An entry of a block that is no declaration; `text` is its first token. -/
  | strayInBlock (text : List Char)
  /-- An at-rule that neither `;` nor a block ends. -/
  | unterminatedAtRule (name : List Char)
  deriving DecidableEq, Repr

/-- What the reader of a report is told. -/
def Fault.message : Fault → String
  | unterminatedString => "unterminated string"
  | unterminatedComment => "unterminated comment"
  | unterminatedUrl => "unterminated url()"
  | unexpectedClose => "unexpected '\x7d'"
  | strayTokens => "unexpected tokens outside of a rule"
  | emptySelector => "empty selector"
  | unclosedBlock => "unclosed block"
  | tooDeep cap => "blocks nested more than " ++ toString cap ++ " levels deep are skipped"
  | strayInBlock text => "unexpected '" ++ String.ofList text ++ "' in declaration block"
  | unterminatedAtRule name => "@" ++ String.ofList name ++ " is not terminated"

/-- A fault and where it lies. -/
structure Issue where
  fault : Fault
  span : Span
  deriving DecidableEq, Repr

/-- What is wrong with a token by itself. -/
def tokenFault? (t : Token TokenKind) : Option Fault :=
  match t.kind with
  | .badString => some .unterminatedString
  | .comment =>
    if t.text.length < 4 || !"*/".toList.isSuffixOf t.text then some .unterminatedComment else none
  | .url => if t.text.getLast? = some ')' then none else some .unterminatedUrl
  | _ => none

/-- The faults of single tokens. -/
def tokenIssues (ts : List (Token TokenKind)) : List Issue :=
  ts.filterMap fun t => (tokenFault? t).map (⟨·, t.span⟩)

end PageLint.Css
