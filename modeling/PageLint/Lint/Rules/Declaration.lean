/-
# PageLint.Lint.Rules.Declaration — declarations of a block

Each declaration ends with a semicolon, has one space after its colon and none
before it, does without `!important`, stands on a line of its own in a block of
several lines, and comes in the order of the properties' names, vendor variants
first.
-/
import PageLint.Lint.Rule

namespace PageLint.Rules

set_option autoImplicit false

open Text

/-- Neighbours of a list. -/
def neighbours {α : Type} (xs : List α) : List (α × α) := xs.zip (xs.drop 1)

/-- The last declaration of a block ends with a semicolon. No other can lack one: it
would take in its successor. -/
def declarationSemicolon : Subject → List Finding
  | .cssBlock b =>
    match b.declarations.getLast? with
    | some d =>
      if d.semicolon.isNone then
        [(Finding.filled (.emptyAt d.span.finish) [("property", d.property)]).suggest
          "Add a semicolon" [';']]
      else []
    | none => []
  | _ => []

/-- No space before a colon, and one after it. -/
def propertyColonSpace (doc : Document) : Subject → List Finding
  | .cssDeclaration d =>
    let slots : Slots := [("property", d.property)]
    let before : List Finding :=
      if d.propertySpan.finish.offset < d.colon.start.offset then
        [(Finding.filled ⟨d.propertySpan.finish, d.colon.start⟩ slots).suggest
          "Remove the space before ':'" []]
      else []
    let after : List Finding :=
      match d.valueSpan with
      | none => []
      | some value =>
        let gap : Span := ⟨d.colon.finish, value.start⟩
        let spacing := doc.source.slice gap
        if spacing.isEmpty then
          [(Finding.filled d.colon slots).suggest "Add a space after ':'" ": "]
        else if spacing != [' '] && !spacing.contains '\n' then
          [(Finding.filled gap slots).suggest "Use a single space" [' ']]
        else []
    before ++ after
  | _ => []

/-- Where a property stands among others: by its name without a vendor's mark, then
with one before without, then by the mark. -/
structure SortKey where
  base : List Char
  standard : Bool
  vendor : List Char
  deriving DecidableEq, Repr

/-- The place of a property in the order of names. A vendor's mark is a word between
two hyphens at the head of a name. -/
def sortKey (property : List Char) : SortKey :=
  let small := lowerAscii property
  match small with
  | '-' :: rest =>
    let vendor := rest.takeWhile (· != '-')
    if !vendor.isEmpty && rest.contains '-' then
      ⟨rest.drop (vendor.length + 1), false, ['-'] ++ vendor ++ ['-']⟩
    else ⟨small, true, []⟩
  | _ => ⟨small, true, []⟩

/-- The order of texts by code points. -/
def compareTexts (a b : List Char) : Ordering :=
  compare (a.map Char.toNat) (b.map Char.toNat)

/-- The order of properties. -/
def SortKey.compare (a b : SortKey) : Ordering :=
  (compareTexts a.base b.base).then
    ((Ord.compare a.standard b.standard).then (compareTexts a.vendor b.vendor))

/-- Declarations come in the order of their properties; the author's own properties
are left where they are. -/
def alphabeticalDeclarations : Subject → List Finding
  | .cssBlock b =>
    (neighbours b.declarations).filterMap fun (previous, current) =>
      if previous.isCustom || current.isCustom then none
      else if (sortKey previous.property).compare (sortKey current.property) = .gt then
        some <| .filled current.propertySpan
          [("property", current.property), ("previous", previous.property)]
      else none
  | _ => []

/-- Declarations do without `!important`. -/
def important : Subject → List Finding
  | .cssDeclaration d =>
    (d.important.map fun span => Finding.filled span [("property", d.property)]).toList
  | _ => []

/-- Declarations of a block of several lines stand on lines of their own. -/
def declarationNewline : Subject → List Finding
  | .cssBlock b =>
    if b.span.start.line = b.span.finish.line then []
    else
      (neighbours b.declarations).filterMap fun (previous, current) =>
        if current.span.start.line = previous.span.finish.line then
          some (.filled current.propertySpan [("property", current.property)])
        else none
  | _ => []

end PageLint.Rules
