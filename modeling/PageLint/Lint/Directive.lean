/-
# PageLint.Lint.Directive — comments that silence rules

A directive is a comment of the whole form

    <!-- frost-disable-next-line zero-unit, important: reason -->

with either kind of comment delimiter: a word that says how far it reaches, the
rules it names, separated by commas, and perhaps a reason, after a colon or after
`--` with white space on both sides. `Directive.parse?` reads a comment and
`Directive.render` writes one.
-/
import PageLint.Text.Ascii
import PageLint.Text.Word

namespace PageLint

set_option autoImplicit false

open Text

/-- How far a directive reaches: the lines of the comment itself, the line after
the comment, or the file. -/
inductive DirectiveKind where
  | here
  | nextLine
  | file
  deriving DecidableEq, Repr

/-- The word for a kind of directive. -/
def DirectiveKind.word : DirectiveKind → List Char
  | here => "disable"
  | nextLine => "disable-next-line"
  | file => "disable-file"

/-- A directive, read. -/
structure Directive where
  kind : DirectiveKind
  ids : List (List Char)
  reason : Option (List Char)
  deriving DecidableEq, Repr

namespace Directive

/-- May stand in the id of a rule. -/
def isIdChar (c : Char) : Bool := isWord c || c == '-'

/-- What precedes the closing delimiter of a comment. -/
def stripCloser? (cs : List Char) : Option (List Char) :=
  (stripTail "-->" cs).or (stripTail "*/" cs)

/-- What follows the opening delimiter of a comment. -/
def stripOpener? (cs : List Char) : Option (List Char) :=
  (stripHead "<!--" cs).or (stripHead "/*" cs)

/-- Reads the word of one kind, which white space must follow. -/
def readKindAs? (kind : DirectiveKind) (cs : List Char) : Option (DirectiveKind × List Char) :=
  match stripHead kind.word cs with
  | some (c :: rest) => if isBlank c then some (kind, trimStart (c :: rest)) else none
  | _ => none

/-- Reads the word that says how far the directive reaches. -/
def readKind? (cs : List Char) : Option (DirectiveKind × List Char) :=
  [DirectiveKind.nextLine, .file, .here].findSome? fun kind => readKindAs? kind cs

/-- Reads ids as far as commas join them, the first one beginning here. -/
def readIds (cs : List Char) : List (List Char) × List Char :=
  let id := cs.takeWhile isIdChar
  let rest := cs.dropWhile isIdChar
  match _h : rest.dropWhile isBlank with
  | ',' :: more =>
    let next := more.dropWhile isBlank
    if next.head?.any isIdChar then
      let (ids, rest) := readIds next
      (id :: ids, rest)
    else ([id], rest)
  | _ => ([id], rest)
termination_by cs.length
decreasing_by
  have first := (cs.dropWhile_suffix isIdChar).length_le
  have second := (rest.dropWhile_suffix isBlank).length_le
  have third := (more.dropWhile_suffix isBlank).length_le
  have joined := congrArg List.length _h
  simp only [List.length_cons] at joined
  simp only [next, rest] at *
  omega

/-- Reads what follows the ids: nothing, or a reason. A reason of white space alone
is an empty one. -/
def readReason? (cs : List Char) : Option (Option (List Char)) :=
  match trimStart cs with
  | [] => some none
  | ':' :: reason => if reason.isEmpty then none else some (some (trim reason))
  | '-' :: '-' :: reason =>
    if cs.head?.any isBlank && reason.head?.any isBlank && 2 ≤ reason.length then
      some (some (trim reason))
    else none
  | _ => none

/-- Reads a comment, delimiters included, as a directive. -/
def parse? (comment : List Char) : Option Directive := do
  let inside ← stripOpener? (← stripCloser? comment)
  let (kind, rest) ← readKind? (← stripHead "frost-" (trimStart inside))
  if rest.head?.any isIdChar then
    let (ids, rest) := readIds rest
    let reason ← readReason? rest
    some ⟨kind, ids, reason⟩
  else none

/-- Writes a directive as a comment of a page. -/
def render (d : Directive) : List Char :=
  "<!-- frost-".toList ++ d.kind.word ++ [' '] ++ joinWith ", " d.ids ++
    ((d.reason.map fun reason => ": ".toList ++ reason).getD []) ++ " -->".toList

end Directive

end PageLint
