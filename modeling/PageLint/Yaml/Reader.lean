/-
# PageLint.Yaml.Reader — reading YAML

Reads a text that holds one document of YAML, as far as configurations need it:
maps and lists in blocks and in brackets, plain and quoted scalars, comments, and
the marks of a document's begin and end. Anchors, tags, block scalars, keys behind a
`?` and directives are refused.

`At` is what is left to read, the column where it begins, and whether a block may
begin there: at the head of a line, after spaces alone, or after the `-` of an item.
Readers answer the place where they stop; `fuel` bounds the depth of recursion, of
which every step reads a character or ends. `least` is the least column at which a
line still belongs to the node that is read: one more than the column of the
collection around it, or 0.
-/
import PageLint.Yaml.Scalar

namespace PageLint.Yaml

set_option autoImplicit false

open Text
open PageLint.Data (Scalar Value)

/-- What is left to read, the column of its first character, and whether a block may
begin there. -/
structure At where
  rest : List Char
  column : Nat
  opens : Bool

namespace At

/-- The place after the first `n` characters, where no block may begin unless a line
does. -/
def ahead (s : At) (n : Nat) : At :=
  (s.rest.take n).foldl
    (fun at_ c => if isBreak c then { at_ with column := 0, opens := true }
      else { at_ with column := at_.column + 1, opens := at_.opens && c == ' ' })
    { s with rest := s.rest.drop n }

/-- The place where `rest` begins, which ends what is left here. -/
def skipTo (s : At) (rest : List Char) : At := s.ahead (s.rest.length - rest.length)

/-- The place after space within the line. A tab counts as space only where no block
may begin. -/
def pastSpace (s : At) : At :=
  s.ahead (s.rest.takeWhile fun c => c == ' ' || (c == '\t' && !s.opens)).length

/-- Whether the line ends here, a comment apart. -/
def endsLine (s : At) : Bool :=
  match s.rest with
  | [] => true
  | c :: _ => isBreak c || c == '#'

/-- The place of the next character that is neither space nor in a comment, on this
line or a later one. -/
def pastGap (s : At) : At := go (s.rest.length + 1) s
where
  /-- The same with a bound on the number of lines and comments. -/
  go : Nat → At → At
    | 0, s => s
    | fuel + 1, s =>
      let s := s.pastSpace
      match s.rest with
      | [] => s
      | c :: rest =>
        if c = '#' then go fuel (s.skipTo (rest.dropWhile fun d => !isBreak d))
        else if isBreak c then go fuel (s.ahead 1)
        else s

/-- The same within brackets, where no block may begin. -/
def pastFlowGap (s : At) : At := go (s.rest.length + 1) s
where
  /-- The same with a bound on the number of comments. -/
  go : Nat → At → At
    | 0, s => s
    | fuel + 1, s =>
      let s := s.skipTo (s.rest.dropWhile fun c => isSpace c || isBreak c)
      match s.rest with
      | '#' :: rest => go fuel (s.skipTo (rest.dropWhile fun d => !isBreak d))
      | _ => s

end At

/-- White space or the end of the text. -/
def startsGap : List Char → Bool
  | [] => true
  | c :: _ => isSpace c || isBreak c

/-- Begins or ends a collection in brackets, or parts its entries. -/
def isFlowSign (c : Char) : Bool :=
  c == ',' || c == '[' || c == ']' || c == '\x7b' || c == '\x7d'

/-- Whether a `-` or another sign stands here by itself. -/
def isSign (sign : Char) : List Char → Bool
  | c :: rest => c == sign && startsGap rest
  | [] => false

/-- Whether a plain scalar may begin here. -/
def startsPlain (inFlow : Bool) : List Char → Bool
  | [] => false
  | c :: rest =>
    if c = '-' then !startsGap rest
    else if c = '?' ∨ c = ':' then !inFlow && !startsGap rest
    else
      !isSpace c && !isBreak c && !isFlowSign c &&
        !("#&*!|>'\"%@\x60".toList.contains c)

/-- The characters of a plain scalar up to the end of its line: up to a colon that
ends a key, a comment, or in brackets a sign of theirs. `afterSpace` says whether
space comes before. In brackets a colon right before a sign is refused. -/
def plainLine? (inFlow afterSpace : Bool) : List Char → Option (List Char)
  | [] => some []
  | c :: cs =>
    if isBreak c ∨ (c = '#' ∧ afterSpace) then some []
    else if inFlow ∧ c = ':' ∧ cs.head?.any (fun d => d == '?' || isFlowSign d) then none
    else if inFlow && isFlowSign c then some []
    else if c = ':' ∧ startsGap cs then some []
    else (plainLine? inFlow (isSpace c) cs).map (c :: ·)

/-- A plain scalar on one line, and where it ends. -/
def plainOnLine? (inFlow : Bool) (s : At) : Option (List Char × At) :=
  (plainLine? inFlow false s.rest).map fun cs =>
    let text := trimEndBy isSpace cs
    (text, s.ahead text.length)

/-- Whether a tab of a gap between lines stands in a column before `least`. -/
def abusesTab (least : Nat) (s : At) (gap : List Char) : Bool :=
  (List.range gap.length).any fun n =>
    let before := s.ahead n
    gap[n]? == some '\t' && (gap.take n).any isBreak && before.column < least

/-- The lines that continue a plain scalar, and where it ends: after the gap that
follows, if a line ends there. -/
def plainMore? (inFlow : Bool) (least : Nat) : (fuel : Nat) → At → Option (List Char × At)
  | 0, s => some ([], s)
  | fuel + 1, s =>
    match gap? s.rest with
    | none => some ([], s)
    | some gap => do
      if abusesTab least s gap then none
      let next := { s.ahead gap.length with opens := true }
      if next.rest.head? = some '#' ∨ (!inFlow ∧ next.column < least) then some ([], next)
      else
        let (text, after) ← plainOnLine? inFlow next
        if text.isEmpty then some ([], next)
        else
          let (more, last) ← plainMore? inFlow least fuel after
          some (folded gap ++ text ++ more, last)

/-- A plain scalar, with the lines that continue it. -/
def plain? (inFlow : Bool) (least : Nat) (s : At) : Option (Value × At) :=
  if startsPlain inFlow s.rest then do
    let (first, after) ← plainOnLine? inFlow s
    let (more, last) ← plainMore? inFlow least s.rest.length after
    some (plain (first ++ more), last)
  else none

/-- A quoted scalar. -/
def quoted? (s : At) : Option (Value × At) :=
  let read : Option (List Char × List Char) :=
    match s.rest with
    | '"' :: rest => doubleQuoted? (rest.length + 1) rest
    | '\'' :: rest => singleQuoted? (rest.length + 1) rest
    | _ => none
  read.map fun (text, rest) => (quoted text, { s.skipTo rest with opens := false })

/-- Whether what is read from `start` to the colon at `finish` may be a key: it is on
one line and holds no more than 1024 characters. -/
def fitsKey (start finish : At) : Bool :=
  let passed := start.rest.take (start.rest.length - finish.rest.length)
  decide (passed.length ≤ 1024) && !passed.any isBreak

mutual

/-- A scalar or a collection in brackets, within brackets. -/
def flowNode? : (fuel least : Nat) → At → Option (Value × At)
  | 0, _, _ => none
  | fuel + 1, least, s =>
    match s.rest with
    | '[' :: _ => (flowItems? fuel least (s.ahead 1)).map fun (items, s) => (.list items, s)
    | '\x7b' :: _ =>
      (flowEntries? fuel least (s.ahead 1)).map fun (entries, s) => (.map entries, s)
    | _ => (quoted? s).or (plain? true least s)

/-- The value after a colon within brackets; void if an entry ends here. -/
def flowValue? : (fuel least : Nat) → At → Option (Value × At)
  | 0, _, _ => none
  | fuel + 1, least, s =>
    let s := s.pastFlowGap
    match s.rest with
    | ',' :: _ => some (void, s)
    | ']' :: _ => some (void, s)
    | '\x7d' :: _ => some (void, s)
    | _ => flowNode? fuel least s

/-- A node within brackets, and the value after a colon if it is a key. -/
def flowPair? : (fuel least : Nat) → At → Option (Value × Option Value × At)
  | 0, _, _ => none
  | fuel + 1, least, s => do
    let (key, after) ← flowNode? fuel least s
    let next := after.pastFlowGap
    match next.rest with
    | ':' :: _ =>
      if fitsKey s next then
        let (value, last) ← flowValue? fuel least (next.ahead 1)
        some (key, some value, last.pastFlowGap)
      else none
    | _ => some (key, none, next)

/-- The items of a list in brackets, to the closing one. A pair by itself is a map. -/
def flowItems? : (fuel least : Nat) → At → Option (List Value × At)
  | 0, _, _ => none
  | fuel + 1, least, s => do
    let s := s.pastFlowGap
    match s.rest with
    | ']' :: _ => some ([], s.ahead 1)
    | _ =>
      let (key, value, s) ← flowPair? fuel least s
      let item := (value.map fun v => Value.map [(key, v)]).getD key
      match s.rest with
      | ',' :: _ =>
        let (items, s) ← flowItems? fuel least (s.ahead 1)
        some (item :: items, s)
      | ']' :: _ => some ([item], s.ahead 1)
      | _ => none

/-- The entries of a map in braces, to the closing one. -/
def flowEntries? : (fuel least : Nat) → At → Option (List (Value × Value) × At)
  | 0, _, _ => none
  | fuel + 1, least, s => do
    let s := s.pastFlowGap
    match s.rest with
    | '\x7d' :: _ => some ([], s.ahead 1)
    | _ =>
      let (key, value, s) ← flowPair? fuel least s
      let entry := (key, value.getD void)
      match s.rest with
      | ',' :: _ =>
        let (entries, s) ← flowEntries? fuel least (s.ahead 1)
        some (entry :: entries, s)
      | '\x7d' :: _ => some ([entry], s.ahead 1)
      | _ => none

end

/-- A collection in brackets, outside brackets. -/
def flow? (least : Nat) (s : At) : Option (Value × At) :=
  match s.rest with
  | '[' :: _ => flowNode? (4 * s.rest.length + 4) least s
  | '\x7b' :: _ => flowNode? (4 * s.rest.length + 4) least s
  | _ => none

/-- The key of an entry, and the place after its colon. -/
def key? (s : At) : Option (Value × At) := do
  let (key, after) ←
    (flow? 0 s).or <| (quoted? s).or <|
      if startsPlain false s.rest then
        (plainOnLine? false s).map fun (text, after) => (plain text, after)
      else none
  let colon := { after with opens := false }.pastSpace
  if fitsKey s colon && isSign ':' colon.rest then some (key, colon.ahead 1) else none

/-- A scalar or a collection in brackets that is the last of its line. -/
def lastOnLine? (least : Nat) (s : At) : Option (Value × At) :=
  match plain? false least s with
  | some (value, after) =>
    let after := after.pastSpace
    if after.opens || after.endsLine then some (value, after) else none
  | none => do
    let (value, after) ← (flow? least s).or (quoted? s)
    let after := { after with opens := false }.pastSpace
    if after.endsLine then some (value, after) else none

mutual

/-- A node that begins here. -/
def node? : (fuel least : Nat) → At → Option (Value × At)
  | 0, _, _ => none
  | fuel + 1, least, s =>
    if s.opens && isSign '-' s.rest then
      (items? fuel s.column s).map fun (items, s) => (.list items, s)
    else if s.opens && (key? s).isSome then
      (entries? fuel s.column s).map fun (entries, s) => (.map entries, s)
    else lastOnLine? least s

/-- The items of a list at a column, the first one beginning here. -/
def items? : (fuel column : Nat) → At → Option (List Value × At)
  | 0, _, _ => none
  | fuel + 1, column, s => do
    let inside := { s.ahead 1 with opens := true }.pastGap
    let (item, after) ←
      if !inside.rest.isEmpty && column < inside.column then node? fuel (column + 1) inside
      else some (void, inside)
    let next := after.pastGap
    if !next.rest.isEmpty && column < next.column then none
    else if next.column = column && isSign '-' next.rest then
      let (items, last) ← items? fuel column next
      some (item :: items, last)
    else some ([item], next)

/-- The entries of a map at a column, the first one beginning here. The items of a list
that is a value may stand at that column too. -/
def entries? : (fuel column : Nat) → At → Option (List (Value × Value) × At)
  | 0, _, _ => none
  | fuel + 1, column, s => do
    let (key, after) ← key? s
    let inside := after.pastGap
    let (value, after) ←
      if inside.rest.isEmpty then some (void, inside)
      else if column < inside.column then node? fuel (column + 1) inside
      else if inside.column = column && isSign '-' inside.rest then
        (items? fuel column inside).map fun (items, s) => (Value.list items, s)
      else some (void, inside)
    let next := after.pastGap
    if !next.rest.isEmpty && column < next.column then none
    else if next.column = column && !next.rest.isEmpty then
      let (entries, last) ← entries? fuel column next
      some ((key, value) :: entries, last)
    else some ([(key, value)], next)

end

/-- The text with each line break of one or two characters as a line feed. -/
def withLineFeeds : List Char → List Char
  | [] => []
  | '\r' :: '\n' :: cs => '\n' :: withLineFeeds cs
  | '\r' :: cs => '\n' :: withLineFeeds cs
  | '\u0085' :: cs => '\n' :: withLineFeeds cs
  | c :: cs => c :: withLineFeeds cs

/-- The lines of a text, each with its break. -/
def linesOf : List Char → List (List Char)
  | [] => []
  | c :: cs =>
    if isBreak c then [c] :: linesOf cs
    else
      match linesOf cs with
      | [] => [[c]]
      | line :: lines => (c :: line) :: lines

/-- Lines lose nothing. -/
theorem flatten_linesOf (cs : List Char) : (linesOf cs).flatten = cs := by
  induction cs with
  | nil => rfl
  | cons c cs ih =>
    rw [linesOf]
    split
    · simp [ih]
    · split
      · rename_i empty
        rw [← ih, empty]
        rfl
      · rename_i line lines cut
        rw [cut] at ih
        simpa using ih

/-- Whether a text may hold the character. -/
def isPrintable (c : Char) : Bool :=
  c == '\t' || c == '\n' || c == '\r' || c == '\u0085' || (' ' ≤ c && c ≤ '~') ||
    ('\u00A0' ≤ c && c ≤ '\uFFFD') || '\uFFFF' < c

/-- What follows a mark that begins a line. -/
def afterMark? (mark line : List Char) : Option (List Char) :=
  (stripHead mark line).filter startsGap

/-- Whether nothing but space and comments is left. -/
def holdsNothing (s : At) : Bool := s.pastGap.rest.isEmpty

/-- The one document of a text, as a place from which to read it; none if there are
several. A mark may begin it and another may end it. -/
def document? (lines : List (List Char)) : Option (Bool × At) :=
  let body := lines.dropWhile fun line => holdsNothing ⟨line, 0, true⟩
  let begun : Option (List (List Char)) :=
    match body with
    | [] => none
    | line :: rest => (afterMark? "---" line).map (· :: rest)
  let lines := begun.getD lines
  let inside := lines.takeWhile fun line =>
    (afterMark? "---" line).isNone && (afterMark? "..." line).isNone
  let ended := (lines.drop inside.length).all fun line =>
    match afterMark? "..." line with
    | some rest => holdsNothing ⟨rest, "...".length, false⟩
    | none => holdsNothing ⟨line, 0, true⟩
  let start : At :=
    if begun.isSome then ⟨inside.flatten, "---".length, false⟩ else ⟨inside.flatten, 0, true⟩
  if ended then some (begun.isSome, start) else none

/-- Reads a text that holds one document. A text of nothing is refused; a document
of nothing, after its mark, is void. -/
def read? (cs : List Char) : Option Value := do
  let cs := (stripHead ['\uFEFF'] cs).getD cs
  if !cs.all isPrintable then none
  let (marked, start) ← document? (linesOf (withLineFeeds cs))
  let start := start.pastGap
  if start.rest.isEmpty then
    if marked then some void else none
  else
    let (value, last) ← node? (4 * start.rest.length + 4) 0 start
    if holdsNothing last then some value else none

end PageLint.Yaml
