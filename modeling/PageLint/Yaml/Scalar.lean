/-
# PageLint.Yaml.Scalar — scalars of YAML

What a plain scalar may be read as, and the text of a quoted one. A plain scalar is
a text in any case; it is a truth value or a number if it is spelled like one. Line
breaks inside a scalar fold (`folded`): one is a space, and of several each but the
first stays.
-/
import PageLint.Data.Value
import PageLint.Text.Ascii

namespace PageLint.Yaml

set_option autoImplicit false

open Text
open PageLint.Data (Scalar Value)

/-- A truth value as YAML spells it. -/
def truth? (cs : List Char) : Option Bool :=
  if words ["true", "True", "TRUE"] |>.contains cs then some true
  else if words ["false", "False", "FALSE"] |>.contains cs then some false
  else none

/-- Digits of a base, at least one, as a number. -/
def digitsOf? (base : Nat) (isDigit : Char → Bool) (cs : List Char) : Option Nat :=
  if !cs.isEmpty && cs.all isDigit then some (digitsValue base cs) else none

/-- A natural number as YAML spells it: in base ten without needless zeros, or after
`0x`, `0o` or `0b`, with or without a plus sign. -/
def natural? (cs : List Char) : Option Nat :=
  let body := (stripHead ['+'] cs).getD cs
  let isOctal (c : Char) : Bool := '0' ≤ c && c ≤ '7'
  let isBinary (c : Char) : Bool := c == '0' || c == '1'
  match body with
  | '0' :: 'x' :: rest => digitsOf? 16 isHexDigit rest
  | '0' :: 'o' :: rest => digitsOf? 8 isOctal rest
  | '0' :: 'b' :: rest => digitsOf? 2 isBinary rest
  | '0' :: _ :: _ => none
  | _ => digitsOf? 10 Char.isDigit body

/-- A plain scalar. -/
def plain (cs : List Char) : Value :=
  .scalar
    { text := some (String.ofList cs), truth := truth? cs, natural := natural? cs,
      isVoid := cs.isEmpty }

/-- A quoted scalar. -/
def quoted (cs : List Char) : Value := .scalar { text := some (String.ofList cs) }

/-- What stands where nothing is written. -/
def void : Value := plain []

/-- Space within a line. -/
def isSpace (c : Char) : Bool := c == ' ' || c == '\t'

/-- Ends a line, in a text whose other breaks are line feeds already. -/
def isBreak (c : Char) : Bool := c == '\n' || c == '\u2028' || c == '\u2029'

/-- The space and the line breaks at the head of a text, which hold a break; none if
the line goes on. -/
def gap? (cs : List Char) : Option (List Char) :=
  let gap := cs.takeWhile fun c => isSpace c || isBreak c
  if gap.any isBreak then some gap else none

/-- What a gap between lines folds to. A first break that is a line feed is a space,
and nothing if more breaks follow; all other breaks stay. -/
def folded (gap : List Char) : List Char :=
  match gap.filter isBreak with
  | ['\n'] => [' ']
  | '\n' :: more => more
  | all => all

/-- The character of an escape by a letter. -/
def lettered? : Char → Option Char
  | '0' => some '\x00'
  | 'a' => some '\x07'
  | 'b' => some '\x08'
  | 't' => some '\t'
  | '\t' => some '\t'
  | 'n' => some '\n'
  | 'v' => some '\x0B'
  | 'f' => some '\x0C'
  | 'r' => some '\r'
  | 'e' => some '\x1B'
  | ' ' => some ' '
  | '"' => some '"'
  | '/' => some '/'
  | '\\' => some '\\'
  | 'N' => some '\u0085'
  | '_' => some '\u00A0'
  | 'L' => some '\u2028'
  | 'P' => some '\u2029'
  | _ => none

/-- The number of digits after the letter of an escape by a code. -/
def codeLength? : Char → Option Nat
  | 'x' => some 2
  | 'u' => some 4
  | 'U' => some 8
  | _ => none

/-- The character of an escape by a code of `n` digits. -/
def coded? (n : Nat) (cs : List Char) : Option (Char × List Char) :=
  let digits := cs.take n
  let code := digitsValue 16 digits
  if digits.length = n ∧ digits.all isHexDigit ∧ code.isValidChar then
    some (Char.ofNat code, cs.drop n)
  else none

/-- The text of a scalar in double marks, from after the opening one. `fuel` is at
least the number of characters. -/
def doubleQuoted? : (fuel : Nat) → List Char → Option (List Char × List Char)
  | 0, _ => none
  | _ + 1, [] => none
  | fuel + 1, c :: cs =>
    let go (here rest : List Char) : Option (List Char × List Char) :=
      (doubleQuoted? fuel rest).map fun (text, rest) => (here ++ text, rest)
    match gap? (c :: cs) with
    | some gap => go (folded gap) ((c :: cs).drop gap.length)
    | none =>
      if c = '"' then some ([], cs)
      else if c = '\\' then
        match cs with
        | [] => none
        | d :: rest =>
          if isBreak d then
            let gap := rest.takeWhile fun e => isSpace e || isBreak e
            go (gap.filter isBreak) (rest.drop gap.length)
          else
            match lettered? d, codeLength? d with
            | some e, _ => go [e] rest
            | none, some n => (coded? n rest).bind fun (e, rest) => go [e] rest
            | none, none => none
      else go [c] cs

/-- The text of a scalar in single marks, from after the opening one. `fuel` is at
least the number of characters. -/
def singleQuoted? : (fuel : Nat) → List Char → Option (List Char × List Char)
  | 0, _ => none
  | _ + 1, [] => none
  | fuel + 1, c :: cs =>
    let go (here rest : List Char) : Option (List Char × List Char) :=
      (singleQuoted? fuel rest).map fun (text, rest) => (here ++ text, rest)
    match gap? (c :: cs) with
    | some gap => go (folded gap) ((c :: cs).drop gap.length)
    | none =>
      match c, cs with
      | '\'', '\'' :: rest => go ['\''] rest
      | '\'', _ => some ([], cs)
      | _, _ => go [c] cs

end PageLint.Yaml
