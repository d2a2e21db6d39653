/-
# PageLint.Lint.Document — documents, and their subjects in order

A `Document` is a page or a stylesheet, read. A page holds the stylesheets of its
`style` elements, each read at the place where it stands. `subjects` lists the
pieces of a document for the rules: elements before what they contain, entries of
a block by where they begin, and an embedded stylesheet right after the text it
was read from.
-/
import PageLint.Css.Builder
import PageLint.Html.Tree
import PageLint.Lint.Subject
import PageLint.Text.Source

namespace PageLint

set_option autoImplicit false

open Text

/-- Something wrong with the structure of a document: what, and where. -/
structure ParseIssue where
  message : String
  span : Span
  deriving DecidableEq, Repr

/-- A run of lines, both ends included; empty if `last` comes before `first`. -/
structure LineRange where
  first : Nat
  last : Nat
  deriving DecidableEq, Repr

/-- Whether a line lies in a run. -/
def LineRange.covers (r : LineRange) (line : Nat) : Bool :=
  r.first ≤ line && line ≤ r.last

/-- The lines of a stretch after its first. -/
def Span.continuation (s : Span) : LineRange := ⟨s.start.line + 1, s.finish.line⟩

namespace Css

mutual

/-- An item and all that it contains, in document order. -/
def Item.subjects : Item → List Subject
  | .comment c => [.cssComment c]
  | .style ⟨selectors, prelude, keyframe, block, span⟩ =>
    .cssStyleRule ⟨selectors, prelude, keyframe, block, span⟩ :: blockSubjects block
  | .declarations block => blockSubjects block
  | .atRule ⟨name, nameSpan, prelude, preludeSpan, preludeTokens, body, span⟩ =>
    let rule : AtRule Item := ⟨name, nameSpan, prelude, preludeSpan, preludeTokens, body, span⟩
    .cssAtRule rule :: bodySubjects rule body

/-- What follows the prelude of an at-rule, in document order. -/
def bodySubjects (rule : AtRule Item) : Body Item → List Subject
  | .statement => []
  | .declarations block => blockSubjects block
  | .rules _ _ items => .cssRuleList items (some rule) :: itemsSubjects items

/-- A block and its entries, by where they begin. -/
def blockSubjects : Block Item → List Subject
  | ⟨opening, closing, declarations, comments, nested, span⟩ =>
    let entries :=
      (declarations.map fun d => (d.span.start.offset, [Subject.cssDeclaration d])) ++
        (comments.map fun c => (c.span.start.offset, [Subject.cssComment c])) ++
        nestedEntries nested
    .cssBlock ⟨opening, closing, declarations, comments, nested, span⟩ ::
      (entries.mergeSort fun a b => a.1 ≤ b.1).flatMap Prod.snd

/-- Items with the offsets where they begin. -/
def nestedEntries : List Item → List (Nat × List Subject)
  | [] => []
  | item :: items => (item.span.start.offset, item.subjects) :: nestedEntries items

/-- Items in order, each with all that it contains. -/
def itemsSubjects : List Item → List Subject
  | [] => []
  | item :: items => item.subjects ++ itemsSubjects items

end

namespace Sheet

/-- A stylesheet as a list of items, with all that they contain. -/
def subjects (sheet : Sheet) : List Subject :=
  .cssRuleList sheet.items none :: itemsSubjects sheet.items

/-- What is wrong with a stylesheet. -/
def parseIssues (sheet : Sheet) : List ParseIssue :=
  sheet.issues.map fun issue => ⟨issue.fault.message, issue.span⟩

end Sheet

end Css

namespace Html

/-- Elements whose lines are exempt from rules on white space. -/
def verbatimElements : List (List Char) := ["pre", "textarea", "script"]

/-- Whether an element holds a stylesheet: a `style` element of no type, or of the
type `text/css`. -/
def StartTag.isStylesheet (tag : StartTag) : Bool :=
  tag.name == "style" && ((tag.value? "type").map fun t => sameIgnoringCase (trim t) "text/css").getD true

/-- The stylesheet that a text holds. -/
def TextNode.sheet (t : TextNode) : Css.Sheet := .ofText t.text t.span.start

mutual

/-- The texts at or below a node that hold stylesheets; `inStyle` says whether the
node lies directly in an element that holds one. -/
def Node.styleTexts (inStyle : Bool) : Node → List TextNode
  | .element tag children _ _ => styleTextsIn tag.isStylesheet children
  | .text t => if inStyle then [t] else []
  | _ => []

/-- The texts at or below some nodes that hold stylesheets. -/
def styleTextsIn (inStyle : Bool) : List Node → List TextNode
  | [] => []
  | node :: nodes => node.styleTexts inStyle ++ styleTextsIn inStyle nodes

end

/-- The lines of an element's content after its start tag's last line. -/
def contentLines (tag : StartTag) (endTag : Option Span) (span : Span) : LineRange :=
  ⟨tag.span.finish.line + 1, (endTag.map (·.start.line)).getD span.finish.line⟩

mutual

/-- The lines of verbatim elements at or below a node. -/
def Node.verbatim : Node → List LineRange
  | .element tag children endTag span =>
    let own := if verbatimElements.contains tag.name then [contentLines tag endTag span] else []
    own ++ verbatimIn children
  | _ => []

/-- The lines of verbatim elements at or below some nodes. -/
def verbatimIn : List Node → List LineRange
  | [] => []
  | node :: nodes => node.verbatim ++ verbatimIn nodes

end

mutual

/-- A node and all that it contains, in document order. -/
def Node.subjects (ancestors : List Element) : Node → List Subject
  | .element tag children endTag span =>
    let e : Element := ⟨tag, children, endTag, span⟩
    .htmlElement e ancestors :: nodesSubjects (ancestors ++ [e]) children
  | .text t =>
    let inStyle := ancestors.getLast?.any (·.tag.isStylesheet)
    .htmlText t :: if inStyle then t.sheet.subjects else []
  | .comment c => [.htmlComment c]
  | .doctype d => [.htmlDoctype d]

/-- Nodes in order, each with all that it contains. -/
def nodesSubjects (ancestors : List Element) : List Node → List Subject
  | [] => []
  | node :: nodes => node.subjects ancestors ++ nodesSubjects ancestors nodes

end

/-- A page, read. -/
structure Page where
  source : Source
  tokens : List (Token TokenKind)
  nodes : List Node
  issues : List Issue
  /-- The stylesheets of the page, in document order. -/
  sheets : List Css.Sheet

/-- Reads a page. -/
def Page.ofText (cs : List Char) : Page :=
  let tokens := tokenize cs
  let (nodes, issues) := buildTree (some depthCap) tokens
  { source := ⟨cs⟩, tokens, nodes, issues, sheets := (styleTextsIn false nodes).map TextNode.sheet }

/-- The whole page as one element, which no tag begins or ends. -/
def Page.root (page : Page) : Element :=
  let none_ : Span := .emptyAt .start
  { tag :=
      { rawName := "#document"
        nameSpan := none_
        attributes := []
        selfClosing := false
        finish := none
        span := none_ }
    children := page.nodes
    endTag := none
    span := ⟨.start, page.source.finish⟩ }

/-- The comments of the markup. -/
def Page.comments (page : Page) : List Css.Comment :=
  (page.tokens.filter (·.kind == .comment)).map fun t => ⟨t.text, t.span⟩

end Html

/-- A document, read. -/
inductive Document where
  | html (page : Html.Page)
  | css (source : Source) (sheet : Css.Sheet)

namespace Document

/-- Reads a text as a document of a language. -/
def ofText (language : Language) (cs : List Char) : Document :=
  match language with
  | .html => .html (.ofText cs)
  | .css => .css ⟨cs⟩ (.ofText cs .start)

/-- The language of a document. -/
def language : Document → Language
  | html _ => .html
  | css _ _ => .css

/-- The text of a document. -/
def source : Document → Source
  | html page => page.source
  | css source _ => source

/-- What is wrong with the structure of a document; the stylesheets of a page come
after its markup. -/
def issues : Document → List ParseIssue
  | html page =>
    (page.issues.map fun issue => ⟨issue.fault.message, issue.span⟩) ++
      page.sheets.flatMap Css.Sheet.parseIssues
  | css _ sheet => sheet.parseIssues

/-- The pieces of a document, in document order. -/
def subjects : Document → List Subject
  | html page => Html.nodesSubjects [] page.nodes
  | css _ sheet => sheet.subjects

/-- The comments of a document; those of a page's stylesheets come last. -/
def comments : Document → List Css.Comment
  | html page => page.comments ++ page.sheets.flatMap Css.Sheet.comments
  | css _ sheet => sheet.comments

/-- The lines of verbatim elements. -/
def verbatim : Document → List LineRange
  | html page => Html.verbatimIn page.nodes
  | css _ _ => []

/-- The lines of comments after their first. -/
def commentLines (doc : Document) : List LineRange :=
  doc.comments.map (·.span.continuation)

/-- Whether a line holds content of a verbatim element. -/
def isVerbatimLine (doc : Document) (line : Nat) : Bool :=
  doc.verbatim.any (·.covers line)

/-- Whether a line continues a comment. -/
def isCommentLine (doc : Document) (line : Nat) : Bool :=
  doc.commentLines.any (·.covers line)

/-- The lines, to the one that the text ends on, that satisfy `p`. -/
def linesWhere (doc : Document) (p : Nat → Bool) : List Nat :=
  (List.range' 1 doc.source.finish.line).filter p

end Document

end PageLint
