/-
# PageLint.Text.Cursor — reading a text by hand

A `Cursor` is what is left to read of a text together with the place where it
begins. An earlier cursor over the same text serves as a mark: `textSince` gives
what was read in between.
-/
import PageLint.Text.Ascii
import PageLint.Text.Position

namespace PageLint

set_option autoImplicit false

open Text

/-- The text left to read and the place of its first character. -/
structure Cursor where
  rest : List Char
  position : Position
  deriving DecidableEq, Repr

namespace Cursor

/-- A cursor at the head of a text that begins at `origin`. -/
def atStart (cs : List Char) (origin : Position) : Cursor := ⟨cs, origin⟩

/-- Nothing is left. -/
def isDone (cur : Cursor) : Bool := cur.rest.isEmpty

/-- The next character. -/
def peek? (cur : Cursor) : Option Char := cur.rest.head?

/-- The character `n` places ahead of the next one. -/
def peekNth? (cur : Cursor) (n : Nat) : Option Char := cur.rest[n]?

/-- Reads `n` characters, or as many as are left. -/
def advance (cur : Cursor) (n : Nat) : Cursor :=
  ⟨cur.rest.drop n, cur.position.after (cur.rest.take n)⟩

/-- Reads the next character. -/
def bump (cur : Cursor) : Option Char × Cursor :=
  (cur.peek?, cur.advance 1)

/-- Reads as long as characters are in `p`. -/
def bumpWhile (cur : Cursor) (p : Char → Bool) : Cursor :=
  cur.advance (cur.rest.takeWhile p).length

/-- Whether `lead` comes next. -/
def startsWith (cur : Cursor) (lead : List Char) : Bool := lead.isPrefixOf cur.rest

/-- Whether `lead` comes next, up to the case of ASCII letters. -/
def startsIgnoringCase (cur : Cursor) (lead : List Char) : Bool :=
  Text.startsIgnoringCase lead cur.rest

/-- Reads `lead` if it comes next, and says whether it did. -/
def eat (cur : Cursor) (lead : List Char) : Bool × Cursor :=
  if cur.startsWith lead then (true, cur.advance lead.length) else (false, cur)

/-- What was read since `mark`. -/
def textSince (mark cur : Cursor) : List Char :=
  mark.rest.take (mark.rest.length - cur.rest.length)

/-- The stretch that was read since `mark`. -/
def spanSince (mark cur : Cursor) : Span := ⟨mark.position, cur.position⟩

theorem textSince_append_rest (cur : Cursor) (n : Nat) :
    textSince cur (cur.advance n) ++ (cur.advance n).rest = cur.rest := by
  simp only [textSince, advance, List.length_drop]
  by_cases short : cur.rest.length ≤ n
  · simp [List.drop_eq_nil_of_le short, Nat.sub_eq_zero_of_le short]
  · rw [show cur.rest.length - (cur.rest.length - n) = n by omega, List.take_append_drop]

end Cursor

end PageLint
