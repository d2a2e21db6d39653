/-
# PageLint.Lint.Subject — what a rule looks at

A document is handed to the rules in pieces: the source as a whole, then each
element, text, comment, style rule and so on, in document order. `Subject` is such
a piece and `Target` its kind; a rule names the kinds it wants.
-/
import PageLint.Css.Sheet
import PageLint.Html.Node

namespace PageLint

set_option autoImplicit false

/-- The languages of documents. -/
inductive Language where
  | html
  | css
  deriving DecidableEq, Repr

/-- The kinds of subject. -/
inductive Target where
  | source
  | htmlElement
  | htmlText
  | htmlComment
  | htmlDoctype
  | cssRuleList
  | cssStyleRule
  | cssAtRule
  | cssBlock
  | cssDeclaration
  | cssComment
  deriving DecidableEq, Repr

/-- A piece of a document. An element comes with the elements it lies in, outermost
first; a list of items with the at-rule whose body it is, if it is one. -/
inductive Subject where
  | source
  | htmlElement (element : Html.Element) (ancestors : List Html.Element)
  | htmlText (text : Html.TextNode)
  | htmlComment (comment : Html.Verbatim)
  | htmlDoctype (doctype : Html.Verbatim)
  | cssRuleList (items : List Css.Item) (parent : Option (Css.AtRule Css.Item))
  | cssStyleRule (rule : Css.StyleRule Css.Item)
  | cssAtRule (rule : Css.AtRule Css.Item)
  | cssBlock (block : Css.Block Css.Item)
  | cssDeclaration (declaration : Css.Declaration)
  | cssComment (comment : Css.Comment)
  deriving Repr

namespace Subject

/-- The kind of a subject. -/
def target : Subject → Target
  | source => .source
  | htmlElement _ _ => .htmlElement
  | htmlText _ => .htmlText
  | htmlComment _ => .htmlComment
  | htmlDoctype _ => .htmlDoctype
  | cssRuleList _ _ => .cssRuleList
  | cssStyleRule _ => .cssStyleRule
  | cssAtRule _ => .cssAtRule
  | cssBlock _ => .cssBlock
  | cssDeclaration _ => .cssDeclaration
  | cssComment _ => .cssComment

/-- The stretch of a subject: of a list of items, from the first to the last. The
source has none, nor has an empty list. -/
def span? : Subject → Option Span
  | source => none
  | htmlElement e _ => some e.span
  | htmlText t => some t.span
  | htmlComment c => some c.span
  | htmlDoctype d => some d.span
  | cssRuleList items _ =>
    match items.head?, items.getLast? with
    | some first, some last => some (first.span.join last.span)
    | _, _ => none
  | cssStyleRule r => some r.span
  | cssAtRule r => some r.span
  | cssBlock b => some b.span
  | cssDeclaration d => some d.span
  | cssComment c => some c.span

end Subject

end PageLint
