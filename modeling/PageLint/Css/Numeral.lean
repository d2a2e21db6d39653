/-
# PageLint.Css.Numeral — numbers and their units

The parts of a number as a stylesheet writes it: a sign, digits, a fraction, an
exponent. `Numeral.split` takes them off the head of a text and leaves the unit.
`isZero` says whether a number in double precision holds it as zero: its digits are
all zero, or it lies no further from zero than half of the least positive number,
2 to the power of -1074.
-/
import PageLint.Css.Token

namespace PageLint.Css

set_option autoImplicit false

open Text

/-- The parts of a number as written. `fraction` holds the digits after the point;
`exponent` the sign after `e` and the digits. -/
structure Numeral where
  sign : Option Char
  whole : List Char
  fraction : List Char
  /-- The letter, the sign and the digits of an exponent. -/
  exponent : Option (Char × Option Char × List Char)
  deriving DecidableEq, Repr

namespace Numeral

/-- A sign at the head of a text, and what follows. -/
def splitSign (cs : List Char) : Option Char × List Char :=
  match cs with
  | '+' :: rest => (some '+', rest)
  | '-' :: rest => (some '-', rest)
  | _ => (none, cs)

/-- The digits at the head of a text, and what follows. -/
def splitDigits (cs : List Char) : List Char × List Char := cs.span Char.isDigit

/-- A fraction at the head of a text, and what follows. -/
def splitFraction (cs : List Char) : List Char × List Char :=
  match cs with
  | '.' :: rest =>
    match splitDigits rest with
    | ([], _) => ([], cs)
    | (digits, rest) => (digits, rest)
  | _ => ([], cs)

/-- An exponent at the head of a text, and what follows. -/
def splitExponent (cs : List Char) : Option (Char × Option Char × List Char) × List Char :=
  match cs with
  | e :: rest =>
    if e = 'e' ∨ e = 'E' then
      let (sign, rest) := splitSign rest
      match splitDigits rest with
      | ([], _) => (none, cs)
      | (digits, rest) => (some (e, sign, digits), rest)
    else (none, cs)
  | [] => (none, cs)

/-- The number at the head of a text, and what follows: its unit. -/
def split (cs : List Char) : Numeral × List Char :=
  let (sign, cs) := splitSign cs
  let (whole, cs) := splitDigits cs
  let (fraction, cs) := splitFraction cs
  let (exponent, cs) := splitExponent cs
  (⟨sign, whole, fraction, exponent⟩, cs)

/-- The digits of a number as one integer, its point left out. -/
def digits (n : Numeral) : Nat := digitsValue 10 (n.whole ++ n.fraction)

/-- The power of ten that scales the digits. -/
def scale (n : Numeral) : Int :=
  let power : Int :=
    match n.exponent with
    | none => 0
    | some (_, sign, digits) =>
      let size : Int := digitsValue 10 digits
      if sign = some '-' then -size else size
  power - n.fraction.length

/-- Whether `digits * 10 ^ scale` is at most 2 to the power of -1075. A number of
`count` digits lies below 10 to the power of `count`, so that a far smaller scale
settles the matter. -/
def vanishes (digits count : Nat) (scale : Int) : Bool :=
  match scale with
  | .ofNat _ => digits == 0
  | .negSucc n =>
    digits == 0 || count + 400 ≤ n + 1 || digits * Nat.pow 2 1075 ≤ Nat.pow 10 (n + 1)

/-- Whether the number is zero in double precision. -/
def isZero (n : Numeral) : Bool :=
  vanishes n.digits (n.whole.length + n.fraction.length) n.scale

end Numeral

end PageLint.Css
