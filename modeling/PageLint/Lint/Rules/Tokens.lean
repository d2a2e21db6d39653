/-
# PageLint.Lint.Rules.Tokens — reading values and selectors by tokens

What several rules on stylesheets ask of a list of tokens: the contents of strings,
the arguments of `url()`, and the tokens outside square brackets with their
neighbours.
-/
import PageLint.Lint.Rule

namespace PageLint.Rules

set_option autoImplicit false

open Text

/-- A token of a stylesheet. -/
abbrev CssToken := Token Css.TokenKind

/-- The contents of a string without its quotes, and where they lie. -/
def stringValue (t : CssToken) : List Char × Span :=
  match t.text with
  | [] => ([], t.span)
  | quote :: body =>
    let inner := (stripTail [quote] body).getD body
    (inner, .covering (t.span.start.next quote) inner)

/-- A function `url(`, whose argument is quoted. -/
def isUrlFunction (t : CssToken) : Bool :=
  t.kind == .function && sameIgnoringCase t.text "url("

/-- The first token that is no trivia. -/
def nextSignificant? (ts : List CssToken) : Option CssToken :=
  ts.find? fun t => !Css.isTrivia t

/-- The contents of an unquoted `url(...)`, trimmed, and where they lie. -/
def urlValue? (t : CssToken) : Option (List Char × Span) :=
  let body := t.text.drop 4
  let body := (stripTail [')'] body).getD body
  let url := trim body
  let lead := (body.takeWhile isBlank).length
  if url.isEmpty then none
  else some (url, .covering (t.span.start.after (t.text.take (4 + lead))) url)

/-- The quoted argument of a `url(` with the tokens that follow it. -/
def urlArgument? (t : CssToken) (rest : List CssToken) : Option CssToken :=
  if isUrlFunction t then (nextSignificant? rest).filter (·.kind == .string) else none

/-- The arguments of every `url()`, quoted or not, and where they lie. -/
def urlArguments : List CssToken → List (List Char × Span)
  | [] => []
  | t :: rest =>
    let own :=
      if t.kind = .url then urlValue? t else (urlArgument? t rest).map stringValue
    own.toList ++ urlArguments rest

/-- A token with the one before it and those after it. -/
structure Site where
  before : Option CssToken
  here : CssToken
  after : List CssToken

/-- The tokens outside square brackets, the brackets left out. -/
def sitesOutsideBrackets (inside : Bool) (before : Option CssToken) : List CssToken → List Site
  | [] => []
  | t :: rest =>
    if t.kind = .bracketOpen then sitesOutsideBrackets true (some t) rest
    else if t.kind = .bracketClose then sitesOutsideBrackets false (some t) rest
    else if inside then sitesOutsideBrackets true (some t) rest
    else ⟨before, t, rest⟩ :: sitesOutsideBrackets false (some t) rest

/-- The tokens of a selector outside attribute selectors. -/
def sitesOf (s : Css.Selector) : List Site := sitesOutsideBrackets false none s.tokens

/-- The next token, if nothing lies between. -/
def glued? (t : CssToken) (rest : List CssToken) : Option CssToken :=
  rest.head?.filter (·.span.start == t.span.finish)

/-- The identifier after the point of a class selector, if nothing lies between. -/
def className? (point : CssToken) (rest : List CssToken) : Option CssToken :=
  if point.kind = .delim ∧ point.text = ['.'] then
    (glued? point rest).filter (·.kind == .ident)
  else none

end PageLint.Rules
