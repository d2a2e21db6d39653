/-
# PageLint.Lint.Rules.Case — small letters

Names of elements, attributes, selectors and properties are written in lower case,
and so are the keywords, colours, units and functions of values. Exempt are the
content of foreign elements, the values of attribute selectors, the author's own
properties and the value of `unicode-range`.
-/
import PageLint.Lint.Rules.Tokens
import PageLint.Text.Lowercase

namespace PageLint.Rules

set_option autoImplicit false

open Text

/-- Elements whose names and attributes keep their case. -/
def foreignRoots : List (List Char) := ["svg", "math"]

/-- A text with a capital in it. -/
def capitals (text : List Char) (span : Span) : List Finding :=
  if text.any isUppercase then
    [(Finding.filled span [("text", text)]).suggest "Convert to lowercase" (lowercase text)]
  else []

/-- A token that a value writes in lower case. -/
def isNamed (t : CssToken) : Bool :=
  t.kind == .ident || t.kind == .hash || t.kind == .function || t.kind == .dimension

/-- Capitals in the names of a value. -/
def capitalsInValue (ts : List CssToken) : List Finding :=
  (ts.filter isNamed).flatMap fun t => capitals t.text t.span

/-- Capitals in the names of a selector. `inBrackets` and `afterSign` say whether an
attribute selector and its value have begun. -/
def capitalsInSelector (inBrackets afterSign : Bool) : List CssToken → List Finding
  | [] => []
  | t :: rest =>
    match t.kind with
    | .bracketOpen => capitalsInSelector true false rest
    | .bracketClose => capitalsInSelector false afterSign rest
    | .delim => capitalsInSelector inBrackets (afterSign || (inBrackets && t.text == ['='])) rest
    | .ident | .hash | .function =>
      let own := if inBrackets && afterSign then [] else capitals t.text t.span
      own ++ capitalsInSelector inBrackets afterSign rest
    | _ => capitalsInSelector inBrackets afterSign rest

/-- Names and keywords are in lower case. -/
def lowercaseNames (doc : Document) : Subject → List Finding
  | .htmlElement e ancestors =>
    if (e :: ancestors).any fun a => foreignRoots.contains a.name then []
    else
      capitals e.rawName e.tag.nameSpan ++
        e.tag.attributes.flatMap fun a => capitals a.rawName a.nameSpan
  | .cssStyleRule r => r.selectors.flatMap fun s => capitalsInSelector false false s.tokens
  | .cssAtRule r =>
    capitals (doc.source.slice r.nameSpan) r.nameSpan ++ capitalsInValue r.preludeTokens
  | .cssDeclaration d =>
    if d.isCustom then []
    else
      capitals d.property d.propertySpan ++
        (if d.name = "unicode-range" then [] else capitalsInValue d.valueTokens) ++
        ((d.important.map fun span => capitals (doc.source.slice span) span).getD [])
  | _ => []

end PageLint.Rules
