/-
# PageLint.Json.Reader — reading JSON

Reads a text that holds one value of JSON and nothing else. A number has a reading
as a natural number if it is written without sign, fraction and exponent. A string
with half of a surrogate pair is a value without a reading.

Readers answer what is left to read. `fuel` bounds the depth of recursion; each step
reads a character or ends, so that the length of the text is enough.
-/
import PageLint.Data.Value
import PageLint.Text.Ascii

namespace PageLint.Json

set_option autoImplicit false

open Text
open PageLint.Data (Scalar Value)

/-- White space of JSON. -/
def isGap (c : Char) : Bool := c == ' ' || c == '\n' || c == '\t' || c == '\r'

/-- The text without white space at its head. -/
def skip (cs : List Char) : List Char := cs.dropWhile isGap

/-- A unit of sixteen bits from four digits. -/
def unit? : List Char → Option (Nat × List Char)
  | a :: b :: c :: d :: rest =>
    if [a, b, c, d].all isHexDigit then some (digitsValue 16 [a, b, c, d], rest) else none
  | _ => none

/-- A part of a string: a character, or half of a surrogate pair. -/
abbrev Part := Option Char

/-- The character of an escape by a letter. -/
def lettered? : Char → Option Char
  | '"' => some '"'
  | '\\' => some '\\'
  | '/' => some '/'
  | 'b' => some '\x08'
  | 'f' => some '\x0C'
  | 'n' => some '\n'
  | 'r' => some '\r'
  | 't' => some '\t'
  | _ => none

/-- A character by its code in units of sixteen bits, after `\u`. -/
def coded? (cs : List Char) : Option (Part × List Char) := do
  let (high, rest) ← unit? cs
  if high < 0xD800 ∨ 0xDFFF < high then some (some (Char.ofNat high), rest)
  else
    match rest with
    | '\\' :: 'u' :: more =>
      match unit? more with
      | some (low, after) =>
        if high < 0xDC00 ∧ 0xDC00 ≤ low ∧ low ≤ 0xDFFF then
          some (some (Char.ofNat (0x10000 + (high - 0xD800) * 0x400 + (low - 0xDC00))), after)
        else some (none, rest)
      | none => some (none, rest)
    | _ => some (none, rest)

/-- The parts of a string, from after its opening mark to its closing one. -/
def parts? : (fuel : Nat) → List Char → Option (List Part × List Char)
  | 0, _ => none
  | _ + 1, [] => none
  | fuel + 1, c :: cs =>
    if c = '"' then some ([], cs)
    else if c.toNat < 0x20 then none
    else if c = '\\' then
      match cs with
      | 'u' :: more => do
        let (part, rest) ← coded? more
        let (parts, rest) ← parts? fuel rest
        some (part :: parts, rest)
      | d :: more => do
        let char ← lettered? d
        let (parts, rest) ← parts? fuel more
        some (some char :: parts, rest)
      | [] => none
    else do
      let (parts, rest) ← parts? fuel cs
      some (some c :: parts, rest)

/-- A string, from after its opening mark. -/
def string? (cs : List Char) : Option (Value × List Char) := do
  let (parts, rest) ← parts? (cs.length + 1) cs
  some (.scalar { text := (parts.mapM id).map String.ofList }, rest)

/-- At least one digit. -/
def digits? (cs : List Char) : Option (List Char × List Char) :=
  match cs.span Char.isDigit with
  | ([], _) => none
  | (digits, rest) => some (digits, rest)

/-- The fraction of a number, if there is one: whether there is, and what follows. -/
def fraction? (cs : List Char) : Option (Bool × List Char) :=
  match cs with
  | '.' :: rest => (digits? rest).map fun (_, rest) => (true, rest)
  | _ => some (false, cs)

/-- The exponent of a number, if there is one: whether there is, and what follows. -/
def exponent? (cs : List Char) : Option (Bool × List Char) :=
  match cs with
  | e :: rest =>
    if e = 'e' ∨ e = 'E' then
      let rest :=
        match rest with
        | '+' :: more => more
        | '-' :: more => more
        | _ => rest
      (digits? rest).map fun (_, rest) => (true, rest)
    else some (false, cs)
  | [] => some (false, cs)

/-- A number. Its digits begin with a zero only if that is all of them. -/
def number? (cs : List Char) : Option (Value × List Char) := do
  let (negative, cs) :=
    match cs with
    | '-' :: rest => (true, rest)
    | _ => (false, cs)
  let (digits, rest) ← digits? cs
  if digits.head? = some '0' ∧ 1 < digits.length then none
  else
    let (fractional, rest) ← fraction? rest
    let (scaled, rest) ← exponent? rest
    let whole := !negative && !fractional && !scaled
    some (.scalar { natural := if whole then some (digitsValue 10 digits) else none }, rest)

mutual

/-- A value. -/
def value? : (fuel : Nat) → List Char → Option (Value × List Char)
  | 0, _ => none
  | fuel + 1, cs =>
    match skip cs with
    | '"' :: rest => string? rest
    | '[' :: rest =>
      match skip rest with
      | ']' :: rest => some (.list [], rest)
      | _ => (items? fuel rest).map fun (items, rest) => (.list items, rest)
    | '\x7b' :: rest =>
      match skip rest with
      | '\x7d' :: rest => some (.map [], rest)
      | _ => (members? fuel rest).map fun (members, rest) => (.map members, rest)
    | cs =>
      match stripHead "true" cs, stripHead "false" cs, stripHead "null" cs with
      | some rest, _, _ => some (.scalar { truth := some true }, rest)
      | _, some rest, _ => some (.scalar { truth := some false }, rest)
      | _, _, some rest => some (.scalar { isNull := true }, rest)
      | _, _, _ => number? cs

/-- The items of a list, from the first to the closing bracket. -/
def items? : (fuel : Nat) → List Char → Option (List Value × List Char)
  | 0, _ => none
  | fuel + 1, cs => do
    let (item, rest) ← value? fuel cs
    match skip rest with
    | ',' :: rest =>
      let (items, rest) ← items? fuel rest
      some (item :: items, rest)
    | ']' :: rest => some ([item], rest)
    | _ => none

/-- The members of an object, from the first to the closing brace. -/
def members? : (fuel : Nat) → List Char → Option (List (Value × Value) × List Char)
  | 0, _ => none
  | fuel + 1, cs => do
    match skip cs with
    | '"' :: rest =>
      let (name, rest) ← string? rest
      match skip rest with
      | ':' :: rest =>
        let (value, rest) ← value? fuel rest
        match skip rest with
        | ',' :: rest =>
          let (members, rest) ← members? fuel rest
          some ((name, value) :: members, rest)
        | '\x7d' :: rest => some ([(name, value)], rest)
        | _ => none
      | _ => none
    | _ => none

end

/-- Reads a text that holds one value. -/
def read? (cs : List Char) : Option Value := do
  let (value, rest) ← value? (2 * cs.length + 2) cs
  if (skip rest).isEmpty then some value else none

end PageLint.Json
