/-
# PageLint.Text.Ascii — case of ASCII letters

Names of elements, attributes, properties and units compare without regard to
the case of ASCII letters; every other character is itself.
-/
import PageLint.Text.Blank

namespace PageLint.Text

set_option autoImplicit false

/-- The text with its ASCII capitals made small. -/
def lowerAscii (cs : List Char) : List Char :=
  cs.map Char.toLower

/-- Equality up to the case of ASCII letters. -/
def sameIgnoringCase (a b : List Char) : Bool :=
  lowerAscii a == lowerAscii b

/-- Whether the text begins with `lead`, up to the case of ASCII letters. -/
def startsIgnoringCase : (lead cs : List Char) → Bool
  | [], _ => true
  | _ :: _, [] => false
  | l :: lead, c :: cs => l.toLower == c.toLower && startsIgnoringCase lead cs

theorem startsIgnoringCase_iff {lead cs : List Char} :
    startsIgnoringCase lead cs = true ↔ lowerAscii lead <+: lowerAscii cs := by
  induction lead generalizing cs with
  | nil => simp [startsIgnoringCase, lowerAscii]
  | cons l lead ih =>
    cases cs with
    | nil => simp [startsIgnoringCase, lowerAscii]
    | cons c cs => simpa [startsIgnoringCase, lowerAscii, List.cons_prefix_cons] using fun _ => ih

/-- A digit of base sixteen. -/
def isHexDigit (c : Char) : Bool :=
  c.isDigit || ('a' ≤ c && c ≤ 'f') || ('A' ≤ c && c ≤ 'F')

/-- The value of a digit of base sixteen. -/
def hexValue (c : Char) : Nat :=
  if c.isDigit then c.toNat - '0'.toNat
  else if 'a' ≤ c then c.toNat - 'a'.toNat + 10
  else c.toNat - 'A'.toNat + 10

/-- The value of a run of digits in `base`. -/
def digitsValue (base : Nat) (digits : List Char) : Nat :=
  digits.foldl (fun value d => value * base + hexValue d) 0

end PageLint.Text
