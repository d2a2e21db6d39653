/-
# PageLint.Json.Value — writing JSON

A value of JSON as far as reports need it, written on one line or indented by two
spaces. Members keep their order. In strings the quotation mark, the backslash and
control characters below the space are escaped, by a letter where one is defined;
all else stands as it is.
-/

namespace PageLint

set_option autoImplicit false

/-- A value of JSON. -/
inductive JsonValue where
  | natural (n : Nat)
  | text (s : String)
  | list (items : List JsonValue)
  | object (members : List (String × JsonValue))
  deriving Repr

namespace JsonValue

/-- A digit of base sixteen in lower case. -/
def hexDigit (n : Nat) : Char := Char.ofNat (if n < 10 then '0'.toNat + n else 'a'.toNat + (n - 10))

/-- A character as it stands inside a string. -/
def escapeChar (c : Char) : List Char :=
  match c with
  | '"' => ['\\', '"']
  | '\\' => ['\\', '\\']
  | '\x08' => ['\\', 'b']
  | '\x0C' => ['\\', 'f']
  | '\n' => ['\\', 'n']
  | '\r' => ['\\', 'r']
  | '\t' => ['\\', 't']
  | c =>
    if c.toNat < 0x20 then
      ['\\', 'u', '0', '0', hexDigit (c.toNat / 16), hexDigit (c.toNat % 16)]
    else [c]

/-- A string in quotation marks. -/
def quoted (s : String) : List Char := ['"'] ++ s.toList.flatMap escapeChar ++ ['"']

/-- How values are laid out: on one line, or with a line for each item. -/
inductive Style where
  | compact
  | pretty
  deriving DecidableEq, Repr

namespace Style

/-- What comes ahead of an item at a depth. -/
def newline (style : Style) (depth : Nat) : List Char :=
  match style with
  | compact => []
  | pretty => '\n' :: List.replicate (2 * depth) ' '

/-- What comes between a name and its value. -/
def colon : Style → List Char
  | compact => [':']
  | pretty => [':', ' ']

/-- Items in brackets at a depth. -/
def bracket (style : Style) (depth : Nat) (opening closing : Char) (items : List (List Char)) :
    List Char :=
  if items.isEmpty then [opening, closing]
  else
    let inner := items.map (style.newline (depth + 1) ++ ·)
    [opening] ++ List.intercalate [','] inner ++ style.newline depth ++ [closing]

end Style

mutual

/-- A value as text at a depth. -/
def write (style : Style) (depth : Nat) : JsonValue → List Char
  | natural n => (toString n).toList
  | text s => quoted s
  | list items => style.bracket depth '[' ']' (writeItems style (depth + 1) items)
  | object members => style.bracket depth '\x7b' '\x7d' (writeMembers style (depth + 1) members)

/-- The items of a list as texts. -/
def writeItems (style : Style) (depth : Nat) : List JsonValue → List (List Char)
  | [] => []
  | item :: items => write style depth item :: writeItems style depth items

/-- The members of an object as texts. -/
def writeMembers (style : Style) (depth : Nat) : List (String × JsonValue) → List (List Char)
  | [] => []
  | (name, value) :: members =>
    (quoted name ++ style.colon ++ write style depth value) :: writeMembers style depth members

end

/-- A value as text. -/
def render (style : Style) (v : JsonValue) : String := String.ofList (v.write style 0)

end JsonValue

end PageLint
