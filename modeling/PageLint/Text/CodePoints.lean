/-
# PageLint.Text.CodePoints — sets of characters as ranges of code points

A character class of the Unicode character database is a table of closed,
ascending, disjoint ranges. `holds` decides membership.
-/

namespace PageLint.Text

set_option autoImplicit false

/-- A set of characters: closed ranges of code points. -/
abbrev CodePoints := Array (Nat × Nat)

/-- Whether a character's code point lies in one of the ranges. -/
def CodePoints.holds (ranges : CodePoints) (c : Char) : Bool :=
  0x80 ≤ c.toNat && ranges.any fun (first, last) => first ≤ c.toNat && c.toNat ≤ last

end PageLint.Text
