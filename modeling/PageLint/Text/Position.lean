/-
# PageLint.Text.Position — places in a text

A `Position` is a byte offset together with a line and a column, both counted
from one; a column counts characters, whatever their width in bytes. A `Span`
runs from one position to another. `Position.after` moves a position over a
text: its main law, `after_append`, says that moving over two texts in turn is
moving over both at once. `Position.shift` moves a position of a text to where
it lies in a larger text that holds it.
-/
import PageLint.Text.Blank

namespace PageLint

set_option autoImplicit false

/-- A place in a text: byte offset, line and column. -/
structure Position where
  offset : Nat
  line : Nat
  column : Nat
  deriving DecidableEq, Repr, Inhabited

namespace Position

/-- The place of the first character of a text. -/
def start : Position := ⟨0, 1, 1⟩

/-- The place just past one character: a line feed opens a line. -/
def next (p : Position) (c : Char) : Position :=
  if c = '\n' then ⟨p.offset + c.utf8Size, p.line + 1, 1⟩
  else ⟨p.offset + c.utf8Size, p.line, p.column + 1⟩

/-- The place just past a text that begins here. -/
def after (p : Position) (cs : List Char) : Position :=
  cs.foldl next p

@[simp] theorem after_nil (p : Position) : p.after [] = p := rfl

@[simp] theorem after_cons (p : Position) (c : Char) (cs : List Char) :
    p.after (c :: cs) = (p.next c).after cs := rfl

theorem after_append (p : Position) (cs ds : List Char) :
    p.after (cs ++ ds) = (p.after cs).after ds := by
  simp [after, List.foldl_append]

/-- Positions are ordered by offset, then line, then column. -/
def before (p q : Position) : Bool :=
  p.offset < q.offset ||
    (p.offset == q.offset && (p.line < q.line || (p.line == q.line && p.column < q.column)))

/-- The earlier of two places. -/
def earlier (p q : Position) : Position :=
  if q.before p then q else p

/-- The later of two places. -/
def later (p q : Position) : Position :=
  if p.before q then q else p

/-- A place of a text that begins at `origin`, as a place of the larger text. -/
def shift (origin p : Position) : Position :=
  { offset := p.offset + origin.offset
    line := p.line + origin.line - 1
    column := if p.line = 1 then p.column + origin.column - 1 else p.column }

/-- Line and column, as a reader is told them. -/
def render (p : Position) : String :=
  s!"{p.line}:{p.column}"

end Position

/-- A stretch of text, from its first character to just past its last. -/
structure Span where
  start : Position
  finish : Position
  deriving DecidableEq, Repr, Inhabited

namespace Span

/-- The stretch of no length at a place. -/
def emptyAt (p : Position) : Span := ⟨p, p⟩

/-- The stretch that a text takes up when it begins at a place. -/
def covering (p : Position) (cs : List Char) : Span := ⟨p, p.after cs⟩

/-- Length in bytes. -/
def size (s : Span) : Nat := s.finish.offset - s.start.offset

/-- A stretch of no length. -/
def isEmpty (s : Span) : Bool := s.size == 0

/-- The least stretch that holds both. -/
def join (s t : Span) : Span := ⟨s.start.earlier t.start, s.finish.later t.finish⟩

/-- Whether `t` lies within `s`, by offsets. -/
def contains (s t : Span) : Bool :=
  s.start.offset ≤ t.start.offset && t.finish.offset ≤ s.finish.offset

@[simp] theorem covering_start (p : Position) (cs : List Char) : (covering p cs).start = p := rfl

@[simp] theorem covering_finish (p : Position) (cs : List Char) :
    (covering p cs).finish = p.after cs := rfl

/-- A span of a text that begins at `origin`, as a span of the larger text. -/
def shift (origin : Position) (s : Span) : Span :=
  ⟨origin.shift s.start, origin.shift s.finish⟩

end Span

end PageLint
