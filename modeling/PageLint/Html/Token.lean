/-
# PageLint.Html.Token — the lexemes of an HTML text

The lexer is total: every text is cut into lexemes, malformed markup included.
What a character begins depends on where it stands: in content, inside a start
tag, or in the text of an element whose content is not markup. `Mode` is that
place, `scan` one cut. By construction nothing is lost and no lexeme is empty.
-/
import PageLint.Text.Extent
import PageLint.Text.Token

namespace PageLint.Html

set_option autoImplicit false

open Text

/-- The kinds of lexeme. `tagOpen` is `<` with the name, `tagClose` a whole end
tag; `attr` (an attribute) and `blank` lie inside a start tag, which `tagEnd` (`>`) or
`selfClosingTagEnd` (`/>`) ends. `rawText` is the content of an element that holds
no markup. `unknown` is markup of no use: a bogus comment, or a sign or a quoted
run where a start tag has no place for it. -/
inductive TokenKind where
  | byteOrderMark
  | doctype
  | tagOpen
  | attr
  | tagEnd
  | selfClosingTagEnd
  | tagClose
  | text
  | rawText
  | comment
  | cdata
  | blank
  | unknown
  deriving DecidableEq, Repr

/-- Elements whose content is not markup. -/
def rawTextElements : List (List Char) := ["script", "style"]

/-- Elements whose content is not markup but may hold character references. -/
def escapableElements : List (List Char) := ["textarea", "title"]

/-- Where the next character stands. -/
inductive Mode where
  /-- At the head of the text, where a byte order mark may stand. -/
  | head
  /-- Between tags. -/
  | content
  /-- Inside the start tag of the named element. -/
  | tag (name : List Char)
  /-- In content of the named element that is not markup. -/
  | raw (name : List Char) (kind : TokenKind)
  deriving DecidableEq, Repr

/-- One cut of an HTML text. -/
abbrev Cut := Scan Mode TokenKind

/-- Ends the name of a start tag. -/
def endsTagName (c : Char) : Bool :=
  isBlank c || c == '/' || c == '>' || c == '<'

/-- Ends the name of an attribute. -/
def endsAttributeName (c : Char) : Bool :=
  endsTagName c || c == '=' || isQuote c

/-- Whether markup begins here: `<` before a letter, `/`, `!` or `?`. -/
def startsMarkup : List Char → Bool
  | '<' :: c :: _ => c.isAlpha || c == '/' || c == '!' || c == '?'
  | _ => false

/-- Whether the content of the named raw element ends here: at `</` and the name,
up to case, before white space, `/`, `>` or the end of the text. -/
def endsRaw (name : List Char) (cs : List Char) : Bool :=
  startsIgnoringCase ('<' :: '/' :: name) cs &&
    match cs.drop (name.length + 2) with
    | [] => true
    | c :: _ => isBlank c || c == '/' || c == '>'

/-- Number of characters of an attribute's value, quotes included, from where it
begins: through the matching quote, or up to white space or `>`. -/
def valueExtent : List Char → Nat
  | [] => 0
  | c :: cs =>
    if isQuote c then 1 + extentThrough [c] cs
    else extentWhile (fun d => !isBlank d && d != '>') (c :: cs)

/-- Number of characters from the end of an attribute's name to the end of its
value; none if no `=` follows. -/
def assignmentExtent (cs : List Char) : Nat :=
  let gap := extentWhile isBlank cs
  match cs.drop gap with
  | '=' :: afterSign =>
    let margin := extentWhile isBlank afterSign
    gap + 1 + margin + valueExtent (afterSign.drop margin)
  | _ => 0

/-- What is read after the `>` of a start tag. -/
def modeAfterTag (name : List Char) : Mode :=
  if rawTextElements.contains name then .raw name .rawText
  else if escapableElements.contains name then .raw name .text
  else .content

/-- The cut at a character that stands between tags. -/
def scanContent (c : Char) (rest : List Char) : Cut :=
  let here := c :: rest
  if "<!--".toList.isPrefixOf here then
    ⟨.comment, 3 + extentThrough "-->" (rest.drop 3), .content⟩
  else if startsIgnoringCase "<!doctype" here then
    ⟨.doctype, extentThrough ">" rest, .content⟩
  else if "<![CDATA[".toList.isPrefixOf here then
    ⟨.cdata, 8 + extentThrough "]]>" (rest.drop 8), .content⟩
  else if startsMarkup here then
    match rest with
    | '/' :: d :: _ =>
      if d.isAlpha then
        let name := extentWhile (fun e => e != '>' && e != '<') (rest.drop 1)
        let sign := if (rest.drop (1 + name)).head? = some '>' then 1 else 0
        ⟨.tagClose, 1 + name + sign, .content⟩
      else ⟨.unknown, extentThrough ">" rest, .content⟩
    | d :: _ =>
      if d.isAlpha then
        let name := rest.takeWhile fun e => !endsTagName e
        ⟨.tagOpen, name.length, .tag (lowerAscii name)⟩
      else ⟨.unknown, extentThrough ">" rest, .content⟩
    | [] => ⟨.text, 0, .content⟩
  else ⟨.text, extentUntil startsMarkup rest, .content⟩

/-- The cut at a character of a start tag other than `<`, which ends the tag. -/
def scanTag (name : List Char) (c : Char) (rest : List Char) : Cut :=
  if isBlank c then ⟨.blank, extentWhile isBlank rest, .tag name⟩
  else if c == '>' then ⟨.tagEnd, 0, modeAfterTag name⟩
  else if c == '/' && rest.head? == some '>' then ⟨.selfClosingTagEnd, 1, .content⟩
  else if isQuote c then ⟨.unknown, extentThrough [c] rest, .tag name⟩
  else if c == '/' || c == '=' then ⟨.unknown, 0, .tag name⟩
  else
    let tail := extentWhile (fun d => !endsAttributeName d) rest
    ⟨.attr, tail + assignmentExtent (rest.drop tail), .tag name⟩

/-- The cut at a character, by where it stands. -/
def scan (mode : Mode) (c : Char) (rest : List Char) : Cut :=
  match mode with
  | .head => if c = '\uFEFF' then ⟨.byteOrderMark, 0, .content⟩ else scanContent c rest
  | .content => scanContent c rest
  | .tag name => if c = '<' then scanContent c rest else scanTag name c rest
  | .raw name kind =>
    match extentUntil (endsRaw name) (c :: rest) with
    | 0 => scanContent c rest
    | more + 1 => ⟨kind, more, .content⟩

/-- The lexemes of an HTML text. -/
def lexemes (cs : List Char) : List (Lexeme TokenKind) :=
  cut scan .head cs

/-- The tokens of an HTML text: its lexemes, each with its place. -/
def tokenize (cs : List Char) : List (Token TokenKind) :=
  locate .start (lexemes cs)

theorem textOf_tokenize (cs : List Char) : textOf (tokenize cs) = cs := by
  simp [textOf, tokenize, lexemes, texts_cut]

end PageLint.Html
