/-
# PageLint.Lint.Rules.Whitespace — the ends of lines

Rules on the text of a document as it stands: how lines are indented, what they end
with, and whether a byte order mark begins the text. Lines of verbatim elements are
left alone, and lines that continue a comment may be indented at will.
-/
import PageLint.Lint.Rule

namespace PageLint.Rules

set_option autoImplicit false

open Text

/-- A space or a tab. -/
def isSpacing (c : Char) : Bool := c == ' ' || c == '\t'

/-- A line of a document: its number, where it begins, and what it holds. -/
structure Line where
  number : Nat
  start : Position
  content : List Char

/-- The lines of a source. -/
def linesOf (src : Source) : List Line :=
  (src.lines.zip src.lineStarts).map fun ((number, content), start) => ⟨number, start, content⟩

/-- Findings on the lines that no range of `exempt` covers. -/
def onLines (exempt : List LineRange) (src : Source) (find : Line → Option Finding) :
    List Finding :=
  (linesOf src).filterMap fun line =>
    if exempt.any (·.covers line.number) then none else find line

/-- What an indent should be instead, if it is not in order. -/
def mendIndent (start : Position) (indent : List Char) : Option Finding :=
  let span := Span.covering start indent
  if indent.contains '\t' then
    some <| (Finding.saying span "Indent with spaces, not tabs").suggest
      "Replace each tab with two spaces" (replace ['\t'] [' ', ' '] indent)
  else if indent.length % 2 != 0 then
    some <| (Finding.filled span [("count", (toString indent.length).toList)]).suggest
      "Indent by an even number of spaces" (List.replicate (indent.length - 1) ' ')
  else none

/-- Lines are indented by spaces, two at a time. Lines of spacing alone do not count. -/
def indentation (doc : Document) : List Finding :=
  onLines (doc.verbatim ++ doc.commentLines) doc.source fun line =>
    let indent := line.content.takeWhile isSpacing
    if indent.length = line.content.length then none else mendIndent line.start indent

/-- Lines do not end with spacing. -/
def trailingWhitespace (doc : Document) : List Finding :=
  onLines doc.verbatim doc.source fun line =>
    let kept := trimEndBy isSpacing line.content
    if kept.length = line.content.length then none
    else
      let span := Span.covering (line.start.after kept) (line.content.drop kept.length)
      some <| (Finding.filled span).suggest "Remove trailing whitespace" []

/-- The text does not begin with a byte order mark. -/
def byteOrderMark (doc : Document) : List Finding :=
  if doc.source.text.head? = some '\uFEFF' then
    [(Finding.filled (.covering .start ['\uFEFF'])).suggest "Remove the byte order mark" []]
  else []

/-- A check of the source as a whole. -/
def onSource (find : Document → List Finding) : Check :=
  .total fun doc subject =>
    match subject with
    | .source => find doc
    | _ => []

end PageLint.Rules
