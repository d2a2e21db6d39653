/-
# PageLint.Lint.Path — names of files

A path is shown as it was given and compared by its components. Repeated and
trailing slashes and inner `.` components do not count; a leading `.` does. Roots
come before a leading `.`, that before `..`, and that before names, which compare
by their characters.
-/
import PageLint.Text.Ascii

namespace PageLint

set_option autoImplicit false

open Text

/-- A part of a path between slashes. -/
inductive Component where
  | root
  | here
  | up
  | name (text : List Char)
  deriving DecidableEq, Repr

namespace Component

/-- The rank of the kind of a component. -/
def rank : Component → Nat
  | root => 0
  | here => 1
  | up => 2
  | name _ => 3

/-- The characters of a name, as numbers. -/
def codes : Component → List Nat
  | name text => text.map Char.toNat
  | _ => []

/-- The order of components. -/
def compare (a b : Component) : Ordering :=
  (Ord.compare a.rank b.rank).then (Ord.compare a.codes b.codes)

end Component

/-- The name of a file, as given. -/
structure Path where
  text : String
  deriving DecidableEq, Repr

namespace Path

/-- The component that a piece between slashes is; none for an empty piece or a `.`. -/
def component? (piece : List Char) : Option Component :=
  if piece = [] ∨ piece = ['.'] then none
  else if piece = ['.', '.'] then some .up
  else some (.name piece)

/-- The components of a path. -/
def components (p : Path) : List Component :=
  let cs := p.text.toList
  let pieces := splitBy (· == '/') cs
  let lead : List Component :=
    if cs.head? = some '/' then [.root]
    else if pieces.head? = some ['.'] then [.here]
    else []
  lead ++ pieces.filterMap component?

/-- Order of lists of components, the first difference deciding. -/
def compareComponents : List Component → List Component → Ordering
  | [], [] => .eq
  | [], _ :: _ => .lt
  | _ :: _, [] => .gt
  | a :: as, b :: bs => (a.compare b).then (compareComponents as bs)

/-- The order of paths. -/
def compare (p q : Path) : Ordering :=
  compareComponents p.components q.components

/-- Whether two paths name the same file. -/
def same (p q : Path) : Bool := p.components == q.components

/-- What follows the last point of the last component, a point at its head apart. -/
def extension? (p : Path) : Option (List Char) :=
  match p.components.getLast? with
  | some (.name file) =>
    let ending := (file.reverse.takeWhile (· != '.')).reverse
    let stem := file.length - ending.length
    if stem ≤ 1 then none else some ending
  | _ => none

end Path

end PageLint
