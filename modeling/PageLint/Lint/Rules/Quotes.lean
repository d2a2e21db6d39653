/-
# PageLint.Lint.Rules.Quotes — which quotation marks

Pages quote the values of attributes with double marks; stylesheets quote strings
with single ones, except after `@charset`, which admits double ones only. The
argument of a `url()` is left to the rule on addresses.
-/
import PageLint.Lint.Rules.Tokens

namespace PageLint.Rules

set_option autoImplicit false

open Text

/-- Values of attributes are quoted with double marks. -/
def doubleQuotes : Subject → List Finding
  | .htmlElement e _ =>
    (e.tag.attributes.filter (·.quote == .single)).flatMap fun a =>
      match a.value, a.valueSpan with
      | some value, some span =>
        let found := Finding.filled span [("name", a.rawName)]
        [if value.contains '"' then found
          else found.suggest "Use double quotes" (['"'] ++ value ++ ['"'])]
      | _, _ => []
  | _ => []

/-- Strings with double marks; `before` is the last token that is no trivia. -/
def doubleQuoted (before : Option CssToken) : List CssToken → List Finding
  | [] => []
  | t :: rest =>
    let own : List Finding :=
      if t.kind = .string ∧ t.text.head? = some '"' ∧ !before.any isUrlFunction then
        let inner := (stringValue t).1
        let found := Finding.filled t.span [("quoted", t.text)]
        [if inner.contains '\'' then found
          else found.suggest "Use single quotes" (['\''] ++ inner ++ ['\''])]
      else []
    own ++ doubleQuoted (if Css.isTrivia t then before else some t) rest

/-- Strings are quoted with single marks. -/
def singleQuotes : Subject → List Finding
  | .cssDeclaration d => doubleQuoted none d.valueTokens
  | .cssStyleRule r => r.selectors.flatMap fun s => doubleQuoted none s.tokens
  | .cssAtRule r => if r.name = "charset" then [] else doubleQuoted none r.preludeTokens
  | _ => []

/-- The name of an encoding is quoted with double marks. -/
def charsetDoubleQuotes : Subject → List Finding
  | .cssAtRule r =>
    if r.name = "charset" then
      match r.preludeTokens.find? (·.kind == .string) with
      | some t =>
        if t.text.head? = some '\'' then
          [(Finding.filled t.span).suggest "Use double quotes"
            (['"'] ++ (stringValue t).1 ++ ['"'])]
        else []
      | none => []
    else []
  | _ => []

end PageLint.Rules
