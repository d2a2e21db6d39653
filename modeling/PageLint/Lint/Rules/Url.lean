/-
# PageLint.Lint.Rules.Url — addresses of resources

Addresses leave out the protocol, and the argument of `url()` its quotes.
-/
import PageLint.Lint.Rules.Tokens

namespace PageLint.Rules

set_option autoImplicit false

open Text

/-- An address that begins with a protocol for pages. -/
def schemed (url : List Char) (span : Span) : List Finding :=
  let without (scheme : List Char) : List Finding :=
    [(Finding.filled span [("url", url)]).suggest "Drop the scheme" (url.drop scheme.length)]
  if startsIgnoringCase "https://" url then without "https:"
  else if startsIgnoringCase "http://" url then without "http:"
  else []

/-- Whether an attribute holds the address of a resource. -/
def holdsResource (e : Html.Element) (a : Html.Attribute) : Bool :=
  a.name == "src" || (a.name == "href" && e.name == "link")

/-- Addresses of resources leave out the protocol. -/
def protocolRelativeUrl : Subject → List Finding
  | .htmlElement e _ =>
    (e.tag.attributes.filter (holdsResource e)).flatMap fun a =>
      match a.value, a.innerSpan? with
      | some value, some span => schemed value span
      | _, _ => []
  | .cssDeclaration d => (urlArguments d.valueTokens).flatMap fun (url, span) => schemed url span
  | .cssAtRule r =>
    if r.name = "import" then
      let first := (r.preludeTokens.find? (·.kind != .blank)).filter (·.kind == .string)
      ((urlArguments r.preludeTokens) ++ (first.map stringValue).toList).flatMap
        fun (url, span) => schemed url span
    else []
  | _ => []

/-- Needs the quotes around it in `url()`. -/
def needsQuotes (c : Char) : Bool := isBlank c || isQuote c || c == '(' || c == ')'

/-- Quoted arguments of `url()`. -/
def quotedUrls : List CssToken → List Finding
  | [] => []
  | t :: rest =>
    let own :=
      (urlArgument? t rest).map fun arg =>
        let inner := (stringValue arg).1
        let found := Finding.filled arg.span [("quoted", arg.text)]
        if inner.any needsQuotes then found else found.suggest "Remove the quotes" inner
    own.toList ++ quotedUrls rest

/-- The argument of `url()` is not quoted. -/
def urlUnquoted : Subject → List Finding
  | .cssDeclaration d => quotedUrls d.valueTokens
  | .cssAtRule r => quotedUrls r.preludeTokens
  | _ => []

end PageLint.Rules
