/-
# PageLint.Css.Token — the lexemes of a stylesheet

The token shapes of CSS, told apart closely enough for numbers, dimensions,
hashes, strings, `url(...)`, functions and at-keywords. The lexer is total: a
string that the line or the text ends becomes `badString`, a stray backslash or
control character `unknown`. By construction nothing is lost and no lexeme is
empty.
-/
import PageLint.Text.Extent
import PageLint.Text.Token

namespace PageLint.Css

set_option autoImplicit false

open Text

/-- The kinds of lexeme. A `function` is a name with its opening parenthesis, a
`url` a whole unquoted `url(...)`; `cdo` is `<!--` and `cdc` is `-->`. -/
inductive TokenKind where
  | byteOrderMark
  | blank
  | comment
  | ident
  | function
  | atKeyword
  | hash
  | string
  | url
  | number
  | percentage
  | dimension
  | colon
  | semicolon
  | comma
  | braceOpen
  | braceClose
  | parenOpen
  | parenClose
  | bracketOpen
  | bracketClose
  | delim
  | cdo
  | cdc
  | badString
  | unknown
  deriving DecidableEq, Repr

/-- May begin a name. -/
def isNameStart (c : Char) : Bool :=
  c.isAlpha || c == '_' || 0x80 ≤ c.toNat

/-- May stand in a name. -/
def isNameChar (c : Char) : Bool :=
  isNameStart c || c.isDigit || c == '-'

/-- An escape: a backslash before anything but a line feed. -/
def startsEscape : List Char → Bool
  | '\\' :: c :: _ => c != '\n'
  | _ => false

/-- Whether a name begins here that may stand as an identifier. -/
def startsIdent (cs : List Char) : Bool :=
  match cs with
  | [] => false
  | '-' :: rest =>
    startsEscape rest ||
      match rest with
      | d :: _ => isNameStart d || d == '-'
      | [] => false
  | c :: _ => isNameStart c || startsEscape cs

/-- Whether a digit begins the text. -/
def startsDigit : List Char → Bool
  | c :: _ => c.isDigit
  | [] => false

/-- Whether digits, or a point before a digit, begin the text. -/
def startsUnsigned (cs : List Char) : Bool :=
  startsDigit cs || (cs.head? == some '.' && startsDigit (cs.drop 1))

/-- Whether a number begins here. -/
def startsNumber (cs : List Char) : Bool :=
  startsUnsigned cs || ((cs.head? == some '+' || cs.head? == some '-') && startsUnsigned (cs.drop 1))

/-- Number of leading characters that make up a name, escapes included. -/
def nameExtent : List Char → Nat
  | [] => 0
  | [c] => if isNameChar c then 1 else 0
  | c :: d :: cs =>
    if isNameChar c then 1 + nameExtent (d :: cs)
    else if c == '\\' && d != '\n' then 2 + nameExtent cs
    else 0

/-- Number of leading digits. -/
def digitsExtent (cs : List Char) : Nat :=
  extentWhile Char.isDigit cs

/-- Number of characters of a leading sign. -/
def signExtent (cs : List Char) : Nat :=
  if cs.head? = some '+' ∨ cs.head? = some '-' then 1 else 0

/-- Number of characters of a leading fraction: a point and digits. -/
def fractionExtent (cs : List Char) : Nat :=
  if cs.head? = some '.' ∧ startsDigit (cs.drop 1) then 1 + digitsExtent (cs.drop 1) else 0

/-- Number of characters of a leading exponent: `e`, perhaps a sign, and digits. -/
def exponentExtent (cs : List Char) : Nat :=
  if cs.head? = some 'e' ∨ cs.head? = some 'E' then
    let sign := signExtent (cs.drop 1)
    if startsDigit (cs.drop (1 + sign)) then 1 + sign + digitsExtent (cs.drop (1 + sign)) else 0
  else 0

/-- Number of characters of the number that begins here, without a unit. -/
def numberExtent (cs : List Char) : Nat :=
  let sign := signExtent cs
  let whole := sign + digitsExtent (cs.drop sign)
  let decimal := whole + fractionExtent (cs.drop whole)
  decimal + exponentExtent (cs.drop decimal)

/-- The rest of a string after its opening quote: number of characters, and
whether the closing quote is among them. A backslash takes the next character
with it. -/
def stringExtent (quote : Char) : List Char → Nat × Bool
  | [] => (0, false)
  | [c] => if c == '\n' then (0, false) else (1, c != '\\' && c == quote)
  | c :: d :: cs =>
    if c == '\n' then (0, false)
    else if c == '\\' then
      let (n, closed) := stringExtent quote cs
      (n + 2, closed)
    else if c == quote then (1, true)
    else
      let (n, closed) := stringExtent quote (d :: cs)
      (n + 1, closed)

/-- One cut of a stylesheet. The state says whether the character is the first of
the text, where a byte order mark may stand. -/
abbrev Cut := Scan Bool TokenKind

/-- The kind of a lexeme of one character. -/
def signKind (c : Char) : TokenKind :=
  match c with
  | ':' => .colon
  | ';' => .semicolon
  | ',' => .comma
  | '{' => .braceOpen
  | '}' => .braceClose
  | '(' => .parenOpen
  | ')' => .parenClose
  | '[' => .bracketOpen
  | ']' => .bracketClose
  | '\\' => .unknown
  | c => if isControl c then .unknown else .delim

/-- The kind and extent of a number with what is written at its end. -/
def numeric (cs : List Char) : TokenKind × Nat :=
  let n := numberExtent cs
  let after := cs.drop n
  if after.head? = some '%' then (.percentage, n + 1)
  else if startsIdent after then (.dimension, n + nameExtent after)
  else (.number, n)

/-- The kind and extent of an identifier, a function or a `url(...)`. -/
def identLike (cs : List Char) : TokenKind × Nat :=
  let n := nameExtent cs
  match cs.drop n with
  | '(' :: inside =>
    if sameIgnoringCase (cs.take n) "url" then
      if (trimStart inside).head?.any isQuote then (.function, n + 1)
      else (.url, n + 1 + extentThrough ")" inside)
    else (.function, n + 1)
  | _ => (.ident, n)

/-- The kind and extent of the lexeme at the head of `c :: rest`. -/
def lexemeAt (c : Char) (rest : List Char) : TokenKind × Nat :=
  let here := c :: rest
  if isBlank c then (.blank, extentWhile isBlank here)
  else if "/*".toList.isPrefixOf here then (.comment, 2 + extentThrough "*/" (here.drop 2))
  else if "<!--".toList.isPrefixOf here then (.cdo, 4)
  else if "-->".toList.isPrefixOf here then (.cdc, 3)
  else if startsNumber here then numeric here
  else if startsIdent here then identLike here
  else if isQuote c then
    let (n, closed) := stringExtent c rest
    (if closed then .string else .badString, n + 1)
  else if c == '#' && nameExtent rest != 0 then (.hash, 1 + nameExtent rest)
  else if c == '@' && startsIdent rest then (.atKeyword, 1 + nameExtent rest)
  else (signKind c, 1)

/-- The cut at a character. -/
def scan (atHead : Bool) (c : Char) (rest : List Char) : Cut :=
  if atHead ∧ c = '\uFEFF' then ⟨.byteOrderMark, 0, false⟩
  else
    let (kind, extent) := lexemeAt c rest
    ⟨kind, extent - 1, false⟩

/-- The lexemes of a stylesheet. -/
def lexemes (cs : List Char) : List (Lexeme TokenKind) :=
  cut scan true cs

/-- The tokens of a stylesheet whose first character lies at `origin`. -/
def tokenize (cs : List Char) (origin : Position) : List (Token TokenKind) :=
  locate origin (lexemes cs)

theorem textOf_tokenize (cs : List Char) (origin : Position) :
    textOf (tokenize cs origin) = cs := by
  simp [textOf, tokenize, lexemes, texts_cut]

end PageLint.Css
