/-
# PageLint.Lint.Rules.Todo — notes of work to do

A comment marks work to do by the word TODO with a contact in parentheses.
-/
import PageLint.Lint.Rule
import PageLint.Text.Letter

namespace PageLint.Rules

set_option autoImplicit false

open Text

/-- The word that marks work to do. -/
def todoWord : List Char := "TODO"

/-- May stand in a longer word, so that the mark is no word by itself. -/
def joinsWord (c : Char) : Bool := isLetter c || isNumeral c || c == '_'

/-- Whether a contact in parentheses comes first, of at least one character. -/
def startsContact : List Char → Bool
  | '(' :: c :: rest => c != ')' && rest.contains ')'
  | _ => false

/-- The marks of a text without a contact. `before` is the character ahead of `p`. -/
def todosIn (before : Option Char) (p : Position) : List Char → List Finding
  | [] => []
  | c :: cs =>
    let rest := todosIn (some c) (p.next c) cs
    match stripHead todoWord (c :: cs) with
    | none => rest
    | some after =>
      if before.any joinsWord || after.head?.any joinsWord || startsContact after then rest
      else .filled (.covering p todoWord) :: rest

/-- Marks of work to do name a contact. -/
def todoFormat : Subject → List Finding
  | .htmlComment c => todosIn none c.span.start c.text
  | .cssComment c => todosIn none c.span.start c.text
  | _ => []

end PageLint.Rules
