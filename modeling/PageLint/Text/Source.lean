/-
# PageLint.Text.Source — the lines and slices of one file

A `Source` is the text of a file, read by lines and by spans. Lines end at line
feeds; a line feed at the very end closes the last line and opens none. A line's
content leaves out the line feed and one carriage return before it.
-/
import PageLint.Text.Position

namespace PageLint

set_option autoImplicit false

open Text

/-- The text of one file. -/
structure Source where
  text : List Char
  deriving DecidableEq, Repr, Inhabited

namespace Source

/-- The text between line feeds, with whatever follows the last one. -/
def pieces (src : Source) : List (List Char) :=
  splitBy (· == '\n') src.text

/-- The content of a line: its text without one carriage return at the end. -/
def content (piece : List Char) : List Char :=
  (stripTail ['\r'] piece).getD piece

/-- Whether the text ends with a line feed. -/
def endsLine (src : Source) : Bool :=
  src.text.getLast? == some '\n'

/-- Number of lines. -/
def lineCount (src : Source) : Nat :=
  if src.endsLine then src.pieces.length - 1 else src.pieces.length

/-- The contents of the lines, in order. -/
def lineContents (src : Source) : List (List Char) :=
  (src.pieces.take src.lineCount).map content

/-- The contents of the lines as a table, to look many of them up. -/
def lineTable (src : Source) : Array (List Char) := src.lineContents.toArray

/-- A line of a table, counted from one. -/
def lineOf? (table : Array (List Char)) (n : Nat) : Option (List Char) :=
  if n = 0 then none else table[n - 1]?

/-- The content of a line, counted from one. -/
def line? (src : Source) (n : Nat) : Option (List Char) := lineOf? src.lineTable n

/-- Lines with their numbers. -/
def lines (src : Source) : List (Nat × List Char) :=
  src.lineContents.mapIdx fun i content => (i + 1, content)

/-- The places where lines begin, each with the text from there to the end. The
place after a line feed that ends the text counts. -/
def lineStartsFrom (p : Position) : List Char → List Position
  | [] => []
  | c :: cs =>
    if c = '\n' then p.next c :: lineStartsFrom (p.next c) cs
    else lineStartsFrom (p.next c) cs

/-- The places where lines begin. -/
def lineStarts (src : Source) : List Position :=
  .start :: lineStartsFrom .start src.text

/-- Where a line begins, counted from one. -/
def lineStart? (src : Source) (n : Nat) : Option Position :=
  if n = 0 then none else src.lineStarts[n - 1]?

/-- What is left after `n` bytes, if they end between characters. -/
def dropBytes? : Nat → List Char → Option (List Char)
  | 0, cs => some cs
  | _ + 1, [] => none
  | n + 1, c :: cs => if c.utf8Size ≤ n + 1 then dropBytes? (n + 1 - c.utf8Size) cs else none

/-- The first `n` bytes, if they end between characters. -/
def takeBytes? : Nat → List Char → Option (List Char)
  | 0, _ => some []
  | _ + 1, [] => none
  | n + 1, c :: cs =>
    if c.utf8Size ≤ n + 1 then (takeBytes? (n + 1 - c.utf8Size) cs).map (c :: ·) else none

/-- The text of a span, by its offsets; empty if they do not cut the text. -/
def slice (src : Source) (span : Span) : List Char :=
  if span.start.offset ≤ span.finish.offset then
    ((dropBytes? span.start.offset src.text).bind
      (takeBytes? (span.finish.offset - span.start.offset))).getD []
  else []

/-- The place just past the last character. -/
def finish (src : Source) : Position :=
  Position.start.after src.text

/-- Length in bytes. -/
def byteLength (src : Source) : Nat :=
  src.text.foldl (fun n c => n + c.utf8Size) 0

end Source

end PageLint
