/-
# PageLint.Lint.Rules.Number — numbers and colours

Numbers between -1 and 1 leave out the zero before the point, lengths of zero leave
out their unit, and colours whose channels repeat a digit are written short.
-/
import PageLint.Css.Numeral
import PageLint.Lint.Rules.Tokens

namespace PageLint.Rules

set_option autoImplicit false

open Text

/-- Units of length. A zero of any other dimension keeps its unit. -/
def lengthUnits : List (List Char) :=
  words ["cap", "ch", "cm", "cqb", "cqh", "cqi", "cqmax", "cqmin", "cqw", "dvh", "dvw", "em", "ex",
    "ic", "in", "lh", "lvh", "lvw", "mm", "pc", "pt", "px", "q", "rem", "rlh", "svh", "svw", "vb",
    "vh", "vi", "vmax", "vmin", "vw"]

/-- A number with a zero before its point, without that zero. -/
def withoutLeadingZero? (text : List Char) : Option (List Char) :=
  let sign := text.take (Css.signExtent text)
  match text.drop sign.length with
  | '0' :: '.' :: d :: rest => if d.isDigit then some (sign ++ '.' :: d :: rest) else none
  | _ => none

/-- Numbers with a zero before the point. -/
def leadingZeros (ts : List CssToken) : List Finding :=
  (ts.filter fun t => t.kind == .number || t.kind == .percentage || t.kind == .dimension).filterMap
    fun t =>
      (withoutLeadingZero? t.text).map fun short =>
        (Finding.filled t.span [("number", t.text)]).suggest "Remove the leading zero" short

/-- Numbers leave out the zero before the point. -/
def leadingZero : Subject → List Finding
  | .cssDeclaration d => leadingZeros d.valueTokens
  | .cssAtRule r => leadingZeros r.preludeTokens
  | _ => []

/-- Whether a dimension is a length of zero. -/
def isZeroLength (text : List Char) : Bool :=
  let (number, unit) := Css.Numeral.split text
  number.isZero && lengthUnits.contains (lowerAscii unit)

/-- Lengths of zero outside parentheses, `depth` of which are open. -/
def zeroLengths (depth : Nat) : List CssToken → List Finding
  | [] => []
  | t :: rest =>
    match t.kind with
    | .function | .parenOpen => zeroLengths (depth + 1) rest
    | .parenClose => zeroLengths (depth - 1) rest
    | .dimension =>
      let own : List Finding :=
        if depth = 0 ∧ isZeroLength t.text then
          [(Finding.filled t.span [("value", t.text)]).suggest "Remove the unit" ['0']]
        else []
      own ++ zeroLengths depth rest
    | _ => zeroLengths depth rest

/-- Lengths of zero leave out their unit. The basis of a `flex` needs it. -/
def zeroUnit : Subject → List Finding
  | .cssDeclaration d =>
    if d.isCustom || "flex".toList.isSuffixOf d.name then [] else zeroLengths 0 d.valueTokens
  | _ => []

/-- Three digits for six, if each channel repeats its digit. -/
def shortHex? : List Char → Option (List Char)
  | [a, a', b, b', c, c'] =>
    if [a, a', b, b', c, c'].all isHexDigit && a.toLower == a'.toLower && b.toLower == b'.toLower &&
        c.toLower == c'.toLower then some [a, b, c]
    else none
  | _ => none

/-- Colours are written with three digits where they can be. -/
def threeDigitHex : Subject → List Finding
  | .cssDeclaration d =>
    (d.valueTokens.filter (·.kind == .hash)).filterMap fun t =>
      (shortHex? (t.text.drop 1)).map fun short =>
        (Finding.filled t.span [("color", t.text), ("short", '#' :: short)]).suggest
          "Use the short form" ('#' :: short)
  | _ => []

end PageLint.Rules
