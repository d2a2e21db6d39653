/-
# PageLint.Html.Tree — the tree that a page's markup builds

A `Builder` holds the elements that are open, innermost first, each with the
children it has so far. A piece of markup moves it by one `step`, which answers
with what is wrong; nothing is ever refused. A start tag may close open elements
by implication (`closedBy`), an end tag closes the innermost element of its name
with all that is open inside it, and the end of the page closes the rest.

`cap` bounds how many elements may be open. A start tag past it becomes an empty
element where it stands, and only its name is remembered, in `flattened`, so that
its end tag and its implied end are still recognised. Without a cap the same
definition builds the whole tree.
-/
import PageLint.Html.Markup

namespace PageLint.Html

set_option autoImplicit false

open Text

/-- Start tags that end an open paragraph. -/
def paragraphClosers : List (List Char) :=
  words ["address", "article", "aside", "blockquote", "center", "dd", "details", "dialog", "dir",
    "div", "dl", "dt", "fieldset", "figcaption", "figure", "footer", "form", "h1", "h2", "h3",
    "h4", "h5", "h6", "header", "hgroup", "hr", "li", "listing", "main", "menu", "nav", "ol",
    "p", "plaintext", "pre", "search", "section", "summary", "table", "ul", "xmp"]

/-- The sections of a table. -/
def tableSections : List (List Char) := ["tbody", "thead", "tfoot"]

/-- The names of the start tags that end an open element without its end tag; a
column group goes by exclusion. -/
def closers : List (List Char × List (List Char)) :=
  [("li", ["li"]),
    ("dt", ["dt", "dd"]),
    ("dd", ["dt", "dd"]),
    ("p", paragraphClosers),
    ("option", ["option", "optgroup"]),
    ("optgroup", ["optgroup"]),
    ("tr", words ["tr"] ++ tableSections),
    ("td", words ["td", "th", "tr"] ++ tableSections),
    ("th", words ["td", "th", "tr"] ++ tableSections),
    ("thead", ["tbody", "tfoot"]),
    ("tbody", ["tbody", "tfoot"]),
    ("head", ["body"]),
    ("rb", ["rb", "rt", "rtc", "rp"]),
    ("rt", ["rb", "rt", "rtc", "rp"]),
    ("rtc", ["rb", "rt", "rtc", "rp"]),
    ("rp", ["rb", "rt", "rtc", "rp"])]

/-- Whether the start tag `incoming` ends the open element `name`. -/
def closedBy (name incoming : List Char) : Bool :=
  if name = "colgroup" then incoming != "col"
  else ((closers.lookup name).getD []).contains incoming

/-- An element whose end has not come yet. Its children stand last first. -/
structure OpenElement where
  tag : StartTag
  children : List Node
  deriving Repr

/-- The element, ended by an end tag or, for want of one, after its last child. -/
def OpenElement.close (e : OpenElement) (endTag : Option Span) : Node :=
  let finish :=
    match endTag, e.children with
    | some tag, _ => tag.finish
    | none, last :: _ => last.span.finish
    | none, [] => e.tag.span.finish
  .element e.tag e.children.reverse endTag ⟨e.tag.span.start, finish⟩

/-- A tree under construction: the open elements, innermost first; the nodes that
lie in none, last first; and the names of the elements opened past the cap,
innermost first. -/
structure Builder where
  stack : List OpenElement
  top : List Node
  flattened : List (List Char)
  deriving Repr

namespace Builder

/-- Before the first piece of markup. -/
def empty : Builder := ⟨[], [], []⟩

/-- Puts a node into the innermost open element. -/
def append (b : Builder) (node : Node) : Builder :=
  match b.stack with
  | [] => { b with top := node :: b.top }
  | e :: outer => { b with stack := { e with children := node :: e.children } :: outer }

/-- Closes the innermost open element. -/
def closeTop (b : Builder) (endTag : Option Span) : Builder :=
  match b.stack with
  | [] => b
  | e :: outer => { b with stack := outer }.append (e.close endTag)

/-- Closes the `n` innermost open elements by implication. -/
def closeMany : Nat → Builder → Builder
  | 0, b => b
  | n + 1, b => closeMany n (b.closeTop none)

/-- Closes what the start tag `incoming` ends by implication. -/
def closeImplied (b : Builder) (incoming : List Char) : Builder :=
  match b.flattened.dropWhile (closedBy · incoming) with
  | [] =>
    closeMany (b.stack.takeWhile fun e => closedBy e.tag.name incoming).length
      { b with flattened := [] }
  | kept => { b with flattened := kept }

/-- Whether a further open element would pass the cap. -/
def isFull (b : Builder) (cap : Option Nat) : Bool :=
  cap.any (· ≤ b.stack.length)

/-- Opens an element, or adds it as a whole where it can have no content. -/
def openTag (b : Builder) (cap : Option Nat) (tag : StartTag) : Builder × List Issue :=
  let b := b.closeImplied tag.name
  let whole := Node.element tag [] none tag.span
  if tag.isVoid || tag.selfClosing || tag.finish.isNone then (b.append whole, [])
  else if b.isFull cap then
    ({ b.append whole with flattened := tag.name :: b.flattened },
      if b.flattened.isEmpty then [⟨.tooDeep (cap.getD 0), tag.span⟩] else [])
  else ({ b with stack := ⟨tag, []⟩ :: b.stack }, [])

/-- What is wrong when open elements end without an end tag. -/
def missingEnds (fault : List Char → Fault) (ended : List OpenElement) : List Issue :=
  (ended.filter fun e => !optionalEndTag.contains e.tag.name).map fun e =>
    ⟨fault e.tag.name, e.tag.span⟩

/-- The name in an end tag. -/
def endTagName (text : List Char) : List Char :=
  lowerAscii <| (trimEndBy (· == '>') (dropSlashes text)).takeWhile fun c =>
    !(isBlank c || c == '/')
where
  /-- The text without the `</` that it begins with, however often. -/
  dropSlashes : List Char → List Char
    | '<' :: '/' :: rest => dropSlashes rest
    | cs => cs

/-- Closes the element that an end tag names. -/
def close (b : Builder) (t : Token TokenKind) : Builder × List Issue :=
  let name := endTagName t.text
  let broken : List Issue :=
    if t.text.getLast? = some '>' then [] else [⟨.unterminatedEndTag name, t.span⟩]
  if voidElements.contains name then (b, broken ++ [⟨.voidEndTag name, t.span⟩])
  else if b.flattened.contains name then
    ({ b with flattened := (b.flattened.dropWhile (· != name)).drop 1 }, broken)
  else
    let inner := b.stack.takeWhile (·.tag.name != name)
    if inner.length = b.stack.length then (b, broken ++ [⟨.unexpectedEndTag name, t.span⟩])
    else
      ((closeMany inner.length { b with flattened := [] }).closeTop (some t.span),
        broken ++ missingEnds .notClosed inner)

/-- Takes in one token that is no part of a start tag. -/
def takeIn (b : Builder) (t : Token TokenKind) : Builder × List Issue :=
  match t.kind with
  | .byteOrderMark => (b, [])
  | .doctype => (b.append (.doctype ⟨t.text, t.span⟩), [])
  | .comment =>
    (b.append (.comment ⟨t.text, t.span⟩),
      if t.text.length < 7 || !"-->".toList.isSuffixOf t.text then
        [⟨.unterminatedComment, t.span⟩] else [])
  | .cdata =>
    (b.append (.text ⟨t.text, true, t.span⟩),
      if "]]>".toList.isSuffixOf t.text then [] else [⟨.unterminatedCdata, t.span⟩])
  | .rawText => (b.append (.text ⟨t.text, true, t.span⟩), [])
  | .text | .blank => (b.append (.text ⟨t.text, false, t.span⟩), [])
  | .tagClose => b.close t
  | .tagOpen | .attr | .tagEnd | .selfClosingTagEnd | .unknown =>
    (b, [⟨.strayMarkup t.text, t.span⟩])

/-- Takes in one piece of markup. -/
def step (cap : Option Nat) (b : Builder) : Markup → Builder × List Issue
  | .tag head parts close =>
    let (tag, issues) := StartTag.ofTokens head parts close
    let (b, more) := b.openTag cap tag
    (b, issues ++ more)
  | .single t => b.takeIn t

/-- Takes in pieces of markup in order. -/
def run (cap : Option Nat) (b : Builder) : List Markup → Builder × List Issue
  | [] => (b, [])
  | piece :: pieces =>
    let (b, issues) := b.step cap piece
    let (b, more) := run cap b pieces
    (b, issues ++ more)

/-- Closes what the end of the page leaves open. -/
def finish (b : Builder) : Builder × List Issue :=
  (closeMany b.stack.length b, missingEnds .unclosed b.stack)

end Builder

/-- The deepest nesting that is kept apart. -/
def depthCap : Nat := 512

/-- The nodes that tokens make up, with all that is wrong, in the order it is met. -/
def buildTree (cap : Option Nat) (tokens : List (Token TokenKind)) : List Node × List Issue :=
  let (b, issues) := Builder.empty.run cap (Markup.ofTokens tokens)
  let (b, more) := b.finish
  (b.top.reverse, issues ++ more)

end PageLint.Html
