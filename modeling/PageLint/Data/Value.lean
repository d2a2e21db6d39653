/-
# PageLint.Data.Value — values of a configuration text

What a text in JSON or YAML says, before it is known what is asked of it. A scalar
carries its readings: as a text, as a truth value, as a natural number. The two
languages differ in which readings a scalar has; in YAML a plain scalar of no
characters is `void` and stands for whatever is empty.
-/

namespace PageLint.Data

set_option autoImplicit false

/-- A scalar, by its readings. -/
structure Scalar where
  text : Option String := none
  truth : Option Bool := none
  natural : Option Nat := none
  isNull : Bool := false
  isVoid : Bool := false
  deriving DecidableEq, Repr

/-- A value. A map keeps its entries in order, repeated keys included. -/
inductive Value where
  | scalar (s : Scalar)
  | list (items : List Value)
  | map (entries : List (Value × Value))
  deriving Repr

namespace Value

/-- The value as a text. -/
def text? : Value → Option String
  | scalar s => s.text
  | _ => none

/-- The value as a truth value. -/
def truth? : Value → Option Bool
  | scalar s => s.truth
  | _ => none

/-- The value as a number of a machine word. -/
def word? : Value → Option Nat
  | scalar s => s.natural.filter (· < Nat.pow 2 64)
  | _ => none

/-- Stands for whatever is empty. -/
def isVoid : Value → Bool
  | scalar s => s.isVoid
  | _ => false

/-- The value as a list. -/
def list? : Value → Option (List Value)
  | list items => some items
  | v => if v.isVoid then some [] else none

/-- The value as entries with texts for keys. -/
def entries? : Value → Option (List (String × Value))
  | map entries => entries.mapM fun (key, value) => key.text?.map (·, value)
  | v => if v.isVoid then some [] else none

/-- The fields of a record, by name or as a list in the order of the names. A field
given twice and a list that is too long are refused; unknown names are not. -/
def fields? (names : List String) (v : Value) : Option (List (String × Value)) :=
  match v with
  | list items => if items.length ≤ names.length then some (names.zip items) else none
  | v => do
    let known := (← v.entries?).filter fun (name, _) => names.contains name
    if (known.map Prod.fst).Nodup then some known else none

end Value

end PageLint.Data
