/-
# PageLint.Lint.Rules.Page — elements of a page

The document type, the encoding, alternative texts, types that go without saying,
void elements that are closed, and tags that may be left out.
-/
import PageLint.Lint.Rule

namespace PageLint.Rules

set_option autoImplicit false

open Text

/-- The text without the `<!` that it begins with, however often. -/
def dropDeclarationSigns : List Char → List Char
  | '<' :: '!' :: rest => dropDeclarationSigns rest
  | cs => cs

/-- The words of a text, between white space. -/
def wordsOf (cs : List Char) : List (List Char) :=
  (splitBy isBlank cs).filter fun w => !w.isEmpty

/-- The document type is that of HTML 5. -/
def doctypeHtml5 : Subject → List Finding
  | .htmlDoctype d =>
    let inner := trimEndBy (· == '>') (dropDeclarationSigns d.text)
    if (wordsOf inner).map lowerAscii = words ["doctype", "html"] then []
    else [(Finding.filled d.span).suggest "Use the HTML5 doctype" "<!doctype html>"]
  | _ => []

/-- Void elements do not end with `/>`. -/
def voidElementSelfClose : Subject → List Finding
  | .htmlElement e _ =>
    match e.tag.finish with
    | some finish =>
      if e.tag.isVoid && e.tag.selfClosing then
        [(Finding.filled finish [("name", e.name)]).suggest "End the tag with '>'" ['>']]
      else []
    | none => []
  | _ => []

/-- Images have an alternative text. -/
def altAttribute : Subject → List Finding
  | .htmlElement e _ =>
    if e.name = "img" ∧ !e.tag.has "alt" then [.filled e.tag.span] else []
  | _ => []

/-- Elements whose start tag goes without saying. -/
def impliedStartTag : List (List Char) := ["html", "head", "body"]

/-- Elements inside which the end tag of a paragraph is kept. -/
def paragraphEndKeepers : List (List Char) := ["a", "audio", "del", "ins", "map", "noscript", "video"]

/-- Elements that may follow a paragraph whose end tag is left out. -/
def paragraphFollowers : List (List Char) :=
  words ["address", "article", "aside", "blockquote", "details", "dialog", "div", "dl", "fieldset",
    "figcaption", "figure", "footer", "form", "h1", "h2", "h3", "h4", "h5", "h6", "header",
    "hgroup", "hr", "main", "menu", "nav", "ol", "p", "pre", "search", "section", "table", "ul"]

/-- The first node that is not blank after an element among the children of its
parent. -/
def nextSibling? (e : Html.Element) (parent : Html.Element) : Option Html.Node :=
  let isHere (n : Html.Node) : Bool := n.element?.any (·.tag.span == e.tag.span)
  let after := (parent.children.dropWhile fun n => !isHere n).drop 1
  after.find? fun n => !n.isBlank

/-- Whether the end tag of a paragraph may be left out: its parent ends next, or an
element that ends a paragraph follows. -/
def isParagraphEndImplied (e : Html.Element) (ancestors : List Html.Element) : Bool :=
  match ancestors.getLast? with
  | none => false
  | some parent =>
    !paragraphEndKeepers.contains parent.name &&
      match nextSibling? e parent with
      | none => true
      | some next => next.element?.any fun n => paragraphFollowers.contains n.name

/-- Whether the end tag of an element may be left out. -/
def isEndTagImplied (e : Html.Element) (ancestors : List Html.Element) : Bool :=
  if e.name = "p" then isParagraphEndImplied e ancestors else Html.optionalEndTag.contains e.name

/-- Tags that go without saying are left out. -/
def optionalTags : Subject → List Finding
  | .htmlElement e ancestors =>
    let startTag : List Finding :=
      if impliedStartTag.contains e.name && e.tag.attributes.isEmpty then
        [(Finding.filled e.tag.span [("tag", ['<'] ++ e.name ++ ['>'])]).suggest
          "Remove the start tag" []]
      else []
    let endTag : List Finding :=
      match e.endTag with
      | some span =>
        if isEndTagImplied e ancestors then
          [(Finding.filled span [("tag", ['<', '/'] ++ e.name ++ ['>'])]).suggest
            "Remove the end tag" []]
        else []
      | none => []
    startTag ++ endTag
  | _ => []

/-- Types that only say what a script is anyway. -/
def scriptTypes : List (List Char) :=
  ["text/javascript", "application/javascript", "application/ecmascript",
    "application/x-javascript", "text/ecmascript", "text/jscript"]

/-- The type that an attribute names, its parameters left out. -/
def mimeType (a : Html.Attribute) : List Char :=
  lowerAscii (trim ((a.value.getD []).takeWhile (· != ';')))

/-- Whether a type goes without saying on an element. -/
def isTypeImplied (e : Html.Element) (mime : List Char) : Bool :=
  if e.name = "style" then mime == "text/css"
  else if e.name = "link" then
    mime == "text/css" &&
      (e.tag.value? "rel").any fun rel => (wordsOf rel).any (sameIgnoringCase · "stylesheet")
  else if e.name = "script" then scriptTypes.contains mime
  else false

/-- Stylesheets and scripts do not name their type. -/
def typeAttribute : Subject → List Finding
  | .htmlElement e _ =>
    match e.tag.attribute? "type" with
    | some a =>
      if isTypeImplied e (mimeType a) then
        [(Finding.filled a.span [("name", e.name)]).suggest "Remove the type attribute" []]
      else []
    | none => []
  | _ => []

/-- The head of a page declares its encoding. -/
def metaCharset : Subject → List Finding
  | .htmlElement e _ =>
    if e.name != "head" then []
    else
      let metas := (Html.elementsOf e.children).filter fun (m : Html.Element) => m.name == "meta".toList
      match metas.findSome? (·.tag.attribute? "charset") with
      | none => [.filled e.tag.span]
      | some a =>
        if sameIgnoringCase (trim (a.value.getD [])) "utf-8" then []
        else [(Finding.filled a.span).suggest "Use UTF-8" "charset=\"utf-8\""]
  | _ => []

end PageLint.Rules
