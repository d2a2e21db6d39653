/-
# PageLint.Html.Node — elements, texts and comments of a page

The tree that markup builds. An element keeps its start tag as written, its
children, and the place of its end tag, which is absent where the end tag was
implied. Names compare in lower case, and the written form is kept beside them.
-/
import PageLint.Text.Position
import PageLint.Text.Ascii

namespace PageLint.Html

set_option autoImplicit false

open Text

/-- Elements that never have content or an end tag. -/
def voidElements : List (List Char) :=
  ["area", "base", "br", "col", "embed", "hr", "img", "input", "link", "meta", "param", "source",
    "track", "wbr"]

/-- Elements whose end tag may be left out. -/
def optionalEndTag : List (List Char) :=
  ["html", "head", "body", "li", "dt", "dd", "p", "rb", "rt", "rtc", "rp", "optgroup", "option",
    "colgroup", "caption", "thead", "tbody", "tfoot", "tr", "td", "th"]

/-- How the value of an attribute is written; `absent` is an attribute of no value. -/
inductive Quote where
  | double
  | single
  | unquoted
  | absent
  deriving DecidableEq, Repr

/-- An attribute as a start tag writes it. `value` leaves out the quotes, which
`valueSpan` takes in. -/
structure Attribute where
  rawName : List Char
  nameSpan : Span
  value : Option (List Char)
  valueSpan : Option Span
  quote : Quote
  span : Span
  deriving DecidableEq, Repr

namespace Attribute

/-- The name in lower case. -/
def name (a : Attribute) : List Char := lowerAscii a.rawName

/-- The stretch of the value without its quotes. -/
def innerSpan? (a : Attribute) : Option Span :=
  match a.valueSpan, a.value with
  | some span, some value =>
    match a.quote with
    | .double => some (.covering (span.start.next '"') value)
    | .single => some (.covering (span.start.next '\'') value)
    | _ => some (.covering span.start value)
  | _, _ => none

end Attribute

/-- A start tag. `finish` is the `>` or `/>` that ends it, absent where the tag is
broken off. -/
structure StartTag where
  rawName : List Char
  nameSpan : Span
  attributes : List Attribute
  selfClosing : Bool
  finish : Option Span
  span : Span
  deriving DecidableEq, Repr

namespace StartTag

/-- The name in lower case. -/
def name (t : StartTag) : List Char := lowerAscii t.rawName

/-- Whether the element can have no content. -/
def isVoid (t : StartTag) : Bool := voidElements.contains t.name

/-- The first attribute of a name. -/
def attribute? (t : StartTag) (name : List Char) : Option Attribute :=
  t.attributes.find? (·.name == name)

/-- The value of the first attribute of a name. -/
def value? (t : StartTag) (name : List Char) : Option (List Char) :=
  (t.attribute? name).bind Attribute.value

/-- Whether there is an attribute of a name. -/
def has (t : StartTag) (name : List Char) : Bool := (t.attribute? name).isSome

end StartTag

/-- Text between tags. `raw` text is no markup: the content of a script or a style
sheet, or a CDATA section. -/
structure TextNode where
  text : List Char
  raw : Bool
  span : Span
  deriving DecidableEq, Repr

/-- Whether the text is white space alone. -/
def TextNode.isBlank (t : TextNode) : Bool := t.text.all Text.isBlank

/-- A comment or a document type, delimiters included. -/
structure Verbatim where
  text : List Char
  span : Span
  deriving DecidableEq, Repr

/-- A node of the tree. -/
inductive Node where
  | element (tag : StartTag) (children : List Node) (endTag : Option Span) (span : Span)
  | text (text : TextNode)
  | comment (comment : Verbatim)
  | doctype (doctype : Verbatim)
  deriving Repr

/-- An element with its content. -/
structure Element where
  tag : StartTag
  children : List Node
  endTag : Option Span
  span : Span
  deriving Repr

namespace Element

/-- The name in lower case. -/
def name (e : Element) : List Char := e.tag.name

/-- The name as written. -/
def rawName (e : Element) : List Char := e.tag.rawName

end Element

namespace Node

/-- The stretch of a node, from its first character to its last. -/
def span : Node → Span
  | element _ _ _ span => span
  | text t => t.span
  | comment c => c.span
  | doctype d => d.span

/-- White space alone. -/
def isBlank : Node → Bool
  | text t => t.isBlank
  | _ => false

/-- The element that a node is. -/
def element? : Node → Option Element
  | element tag children endTag span => some ⟨tag, children, endTag, span⟩
  | _ => none

/-- The text that a node is. -/
def text? : Node → Option TextNode
  | text t => some t
  | _ => none

end Node

/-- The elements among some nodes. -/
def elementsOf (nodes : List Node) : List Element :=
  nodes.filterMap Node.element?

mutual

/-- The first element of a name at or below a node, in document order. -/
def Node.find? (name : List Char) : Node → Option Element
  | .element tag children endTag span =>
    if tag.name == name then some ⟨tag, children, endTag, span⟩ else findAmong? name children
  | _ => none

/-- The first element of a name at or below some nodes, in document order. -/
def findAmong? (name : List Char) : List Node → Option Element
  | [] => none
  | node :: nodes => (node.find? name).or (findAmong? name nodes)

end

end PageLint.Html
