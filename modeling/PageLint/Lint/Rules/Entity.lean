/-
# PageLint.Lint.Rules.Entity — character references

A character is written as itself rather than by a reference, unless it means
something in markup or cannot be seen. `references` finds the references of a text,
from left to right; a reference begins with `&`, which none holds again.
-/
import PageLint.Lint.Rule

namespace PageLint.Rules

set_option autoImplicit false

open Text

/-- Names of characters that mean something in markup or cannot be seen. -/
def keptNames : List (List Char) :=
  ["amp", "lt", "gt", "quot", "apos", "nbsp", "shy", "zwj", "zwnj", "lrm", "rlm", "ensp", "emsp",
    "thinsp"]

/-- Common names and the characters that they stand for. -/
def namedCharacters : List (List Char × Char) :=
  [("bull", '•'), ("cent", '¢'), ("copy", '©'), ("deg", '°'), ("divide", '÷'), ("eacute", 'é'),
    ("euro", '€'), ("frac12", '½'), ("hellip", '…'), ("laquo", '«'), ("larr", '←'),
    ("ldquo", '“'), ("lsquo", '‘'), ("mdash", '—'), ("middot", '·'), ("ndash", '–'),
    ("para", '¶'), ("pound", '£'), ("raquo", '»'), ("rarr", '→'), ("rdquo", '”'), ("reg", '®'),
    ("rsquo", '’'), ("sect", '§'), ("times", '×'), ("trade", '™'), ("yen", '¥')]

/-- What a reference names. -/
inductive Referent where
  | name (text : List Char)
  | code (value : Nat)
  deriving DecidableEq, Repr

/-- Reads a name or a code that `;` ends, with its number of characters, from after
the `&`. -/
def referent? (cs : List Char) : Option (Referent × Nat) :=
  let ended (r : List Char → Referent) (lead : Nat) (body : List Char) (p : Char → Bool) :
      Option (Referent × Nat) :=
    let run := body.takeWhile p
    if !run.isEmpty && body[run.length]? == some ';' then some (r run, lead + run.length + 1)
    else none
  match cs with
  | '#' :: x :: body =>
    if x = 'x' ∨ x = 'X' then ended (fun run => .code (digitsValue 16 run)) 2 body isHexDigit
    else ended (fun run => .code (digitsValue 10 run)) 1 (x :: body) Char.isDigit
  | c :: _ => if c.isAlpha then ended .name 0 cs Char.isAlphanum else none
  | [] => none

/-- The references of a text: what each names, its text, and where it lies. -/
def references (p : Position) : List Char → List (Referent × List Char × Span)
  | [] => []
  | c :: cs =>
    let rest := references (p.next c) cs
    if c = '&' then
      match referent? cs with
      | some (r, n) =>
        let text := c :: cs.take n
        (r, text, .covering p text) :: rest
      | none => rest
    else rest

/-- Whether a character has to be written by a reference: it means something in
markup, or cannot be seen. -/
def needsReference (c : Char) : Bool :=
  c == '&' || c == '<' || c == '>' || isQuote c || isControl c || isBlank c || c == '\u00AD' ||
    ('\u200B' ≤ c && c ≤ '\u200F') || ('\u202A' ≤ c && c ≤ '\u202E') ||
    ('\u2060' ≤ c && c ≤ '\u2064') || c == '\uFEFF'

/-- The character of a code, if there is one. -/
def characterOf? (code : Nat) : Option Char :=
  if code.isValidChar then some (Char.ofNat code) else none

/-- What there is to say about a reference. -/
def judgeReference (r : Referent) (text : List Char) (span : Span) : Option Finding :=
  let found := Finding.filled span [("entity", text)]
  let written (c : Char) : Finding := found.suggest "Use the character" [c]
  match r with
  | .name name =>
    if keptNames.contains name then none
    else some (((namedCharacters.lookup name).map written).getD found)
  | .code code => ((characterOf? code).filter fun c => !needsReference c).map written

/-- The references of a text that should be characters. -/
def referencesIn (p : Position) (cs : List Char) : List Finding :=
  (references p cs).filterMap fun (r, text, span) => judgeReference r text span

/-- Characters are written as themselves. -/
def entityReferences : Subject → List Finding
  | .htmlText t => if t.raw then [] else referencesIn t.span.start t.text
  | .htmlElement e _ =>
    e.tag.attributes.flatMap fun a =>
      match a.value, a.innerSpan? with
      | some value, some span => referencesIn span.start value
      | _, _ => []
  | _ => []

end PageLint.Rules
