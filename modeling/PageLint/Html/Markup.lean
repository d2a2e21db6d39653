/-
# PageLint.Html.Markup — start tags put together

Between the lexemes of a page and its tree stand pieces of markup: a whole start
tag, from its name to its `>`, or any other token by itself. `Markup.ofTokens`
groups the tokens, and `Markup.startTag` reads the name and the attributes of a
start tag and says what is wrong with them.
-/
import PageLint.Html.Node
import PageLint.Html.Token

namespace PageLint.Html

set_option autoImplicit false

open Text

/-- What can be wrong with a page. -/
inductive Fault where
  | unterminatedComment
  | unterminatedCdata
  /-- A token that belongs inside a start tag, or markup of no use, between tags. -/
  | strayMarkup (text : List Char)
  /-- A sign or a quoted run of no use in the start tag of the named element. -/
  | strayInTag (text name : List Char)
  | unterminatedStartTag (name : List Char)
  | unterminatedEndTag (name : List Char)
  | unterminatedValue (name : List Char)
  /-- More elements are open than the tree keeps apart. -/
  | tooDeep (cap : Nat)
  | voidEndTag (name : List Char)
  /-- An end tag of an element that is not open. -/
  | unexpectedEndTag (name : List Char)
  /-- An element that the end tag of an outer one closes. -/
  | notClosed (name : List Char)
  /-- An element that the end of the page closes. -/
  | unclosed (name : List Char)
  deriving DecidableEq, Repr

/-- What the reader of a report is told. -/
def Fault.message : Fault → String
  | unterminatedComment => "unterminated comment"
  | unterminatedCdata => "unterminated CDATA section"
  | strayMarkup text => "unexpected markup '" ++ String.ofList text ++ "'"
  | strayInTag text name =>
    "unexpected '" ++ String.ofList text ++ "' in <" ++ String.ofList name ++ "> tag"
  | unterminatedStartTag name => "unterminated <" ++ String.ofList name ++ "> tag"
  | unterminatedEndTag name => "unterminated </" ++ String.ofList name ++ "> tag"
  | unterminatedValue name => "unterminated value for attribute '" ++ String.ofList name ++ "'"
  | tooDeep cap => "elements nested more than " ++ toString cap ++ " levels deep are flattened"
  | voidEndTag name => "void element <" ++ String.ofList name ++ "> must not have an end tag"
  | unexpectedEndTag name => "unexpected closing tag </" ++ String.ofList name ++ ">"
  | notClosed name => "element <" ++ String.ofList name ++ "> is not closed"
  | unclosed name => "unclosed element <" ++ String.ofList name ++ ">"

/-- A fault and where it lies. -/
structure Issue where
  fault : Fault
  span : Span
  deriving DecidableEq, Repr

/-- A start tag with all that belongs to it, or any other token. -/
inductive Markup where
  | tag (name : Token TokenKind) (parts : List (Token TokenKind)) (close : Option (Token TokenKind))
  | single (token : Token TokenKind)
  deriving DecidableEq, Repr

/-- May stand between the name of a start tag and its end. -/
def isTagPart (t : Token TokenKind) : Bool :=
  t.kind == .blank || t.kind == .attr || t.kind == .unknown

/-- Ends a start tag. -/
def isTagEnd (t : Token TokenKind) : Bool :=
  t.kind == .tagEnd || t.kind == .selfClosingTagEnd

namespace Markup

/-- Groups tokens: a name with the parts that follow it and the sign that ends the
tag, if one comes next. -/
def ofTokens : List (Token TokenKind) → List Markup
  | [] => []
  | t :: ts =>
    if t.kind = .tagOpen then
      let parts := ts.takeWhile isTagPart
      match _h : ts.dropWhile isTagPart with
      | [] => [.tag t parts none]
      | e :: rest =>
        if isTagEnd e then .tag t parts (some e) :: ofTokens rest
        else .tag t parts none :: ofTokens (e :: rest)
    else .single t :: ofTokens ts
termination_by ts => ts.length
decreasing_by
  all_goals try have shorter := congrArg List.length _h
  all_goals try have within := (ts.dropWhile_suffix isTagPart).length_le
  all_goals simp only [List.length_cons] at *
  all_goals omega

/-- The tokens that a piece of markup is made of. -/
def tokens : Markup → List (Token TokenKind)
  | .tag name parts close => name :: parts ++ close.toList
  | .single t => [t]

/-- **Grouping loses nothing**: the pieces hold the tokens in order. -/
theorem flatMap_tokens_ofTokens (ts : List (Token TokenKind)) :
    (ofTokens ts).flatMap tokens = ts := by
  fun_induction ofTokens ts with
  | case1 => rfl
  | case2 t ts _ parts h =>
    have whole := ts.takeWhile_append_dropWhile (p := isTagPart)
    rw [h] at whole
    simpa [tokens, parts] using whole
  | case3 t ts _ parts e rest h _ ih =>
    have whole := ts.takeWhile_append_dropWhile (p := isTagPart)
    rw [h] at whole
    simpa [tokens, parts, ih] using whole
  | case4 t ts _ parts e rest h _ ih =>
    have whole := ts.takeWhile_append_dropWhile (p := isTagPart)
    rw [h] at whole
    simpa [tokens, parts, ih] using whole
  | case5 t ts _ ih => simp [tokens, ih]

end Markup

/-- The value that an attribute's text assigns after its name, with the place where
it begins and, for a quoted value that lacks its closing quote, the fault. -/
def Attribute.readValue (rawName : List Char) (p : Position) (raw : List Char) :
    List Char × Quote × List Issue :=
  match raw with
  | [] => ([], .unquoted, [])
  | q :: body =>
    if isQuote q then
      let quote := if q = '"' then Quote.double else .single
      match stripTail [q] body with
      | some inner => (inner, quote, [])
      | none => (body, quote, [⟨.unterminatedValue rawName, .covering p raw⟩])
    else (raw, .unquoted, [])

/-- Reads an attribute off its token. -/
def Attribute.ofToken (t : Token TokenKind) : Attribute × List Issue :=
  let rawName := t.text.takeWhile fun c => !(c == '=' || isBlank c)
  let start := t.span.start
  match trimStart (t.text.drop rawName.length) with
  | '=' :: afterSign =>
    let raw := trimStart afterSign
    let p := start.after (t.text.take (t.text.length - raw.length))
    let (value, quote, issues) := readValue rawName p raw
    ({ rawName, nameSpan := .covering start rawName, value := some value,
       valueSpan := some (.covering p raw), quote, span := t.span }, issues)
  | _ =>
    ({ rawName, nameSpan := .covering start rawName, value := none, valueSpan := none,
       quote := .absent, span := t.span }, [])

/-- The attributes among the parts of a start tag, with the faults of all parts in
the order of the parts. -/
def readParts (name : List Char) : List (Token TokenKind) → List Attribute × List Issue
  | [] => ([], [])
  | t :: ts =>
    let (attributes, issues) := readParts name ts
    match t.kind with
    | .attr =>
      let (first, own) := Attribute.ofToken t
      (first :: attributes, own ++ issues)
    | .unknown => (attributes, ⟨.strayInTag t.text name, t.span⟩ :: issues)
    | _ => (attributes, issues)

/-- Reads a start tag: its name, its attributes, and what is wrong with it. -/
def StartTag.ofTokens (head : Token TokenKind) (parts : List (Token TokenKind))
    (close : Option (Token TokenKind)) : StartTag × List Issue :=
  let rawName := head.text.drop 1
  let name := lowerAscii rawName
  let last := ((head :: parts ++ close.toList).getLast (by simp)).span.finish
  let span : Span := ⟨head.span.start, last⟩
  let (attributes, issues) := readParts name parts
  let tag : StartTag :=
    { rawName
      nameSpan := ⟨head.span.start.next '<', head.span.finish⟩
      attributes
      selfClosing := close.any (·.kind == .selfClosingTagEnd)
      finish := close.map Token.span
      span }
  (tag, if close.isNone then issues ++ [⟨.unterminatedStartTag name, span⟩] else issues)

end PageLint.Html
