/-
# PageLint.Proofs.Css.Descent — reading stylesheets by recursive descent

A second way to read the items of a stylesheet: by recursive descent over positions in the tokens,
with a count of the open blocks. Everything that could go wrong is checked, and the answer is `none`
if it does: a token or a slice that is not there (`slice?`), a count that would go below zero
(`down?`), a turn of a loop that does not come further than the one before.

The loops over items and over the entries of a block call what they read, and are called by it in
turn. They come to an end because each turn is only followed by another one if it has come further.
-/
import PageLint.Proofs.Css.Building
import PageLint.Proofs.Text.Extent

namespace PageLint.Css

set_option autoImplicit false

open Text

namespace Descent

/-! ## Checked access -/

/-- One less; nothing is below zero. -/
def down? : Nat → Option Nat
  | 0 => none
  | n + 1 => some n

/-- The tokens from one position up to another, if there are such. -/
def slice? (ts : Tokens) (start finish : Nat) : Option Tokens :=
  if start ≤ finish ∧ finish ≤ ts.length then some ((ts.drop start).take (finish - start)) else none

/-- The last position of a token that is no trivia. -/
def lastSolid? : Tokens → Option Nat
  | [] => none
  | t :: ts =>
    match lastSolid? ts with
    | some i => some (i + 1)
    | none => if isTrivia t then none else some 0

/-- The tokens without trivia at either end, as a slice. -/
def trim? (part : Tokens) : Option Tokens :=
  let start := part.findIdx fun t => !isTrivia t
  let finish := ((lastSolid? part).map (· + 1)).getD start
  slice? part start finish

/-- Cuts a prelude at its commas, a slice for each part. The part that is not cut off yet begins at
`start`, and the next token is the one at `i`. -/
def splits? (prelude : Tokens) (depth start i : Nat) :
    Option (List (Tokens × Option (Token TokenKind))) :=
  match _ : prelude[i]? with
  | none => (slice? prelude start i).map fun part => [(part, none)]
  | some t =>
    if t.kind = .comma ∧ depth = 0 then do
      let part ← slice? prelude start i
      let parts ← splits? prelude depth (i + 1) (i + 1)
      some ((part, some t) :: parts)
    else
      splits? prelude
        (if opensBracket t then depth + 1 else if closesBracket t then depth - 1 else depth)
        start (i + 1)
termination_by prelude.length - i
decreasing_by
  all_goals
    have := (List.getElem?_eq_some_iff.mp ‹_›).1
    omega

/-- What one part of a prelude adds to the selectors and to the faults. -/
def addPart? (prelude : Tokens) (part : Tokens × Option (Token TokenKind))
    (read : List Selector × List Issue) : Option (List Selector × List Issue) := do
  let tokens ← trim? part.1
  match spanOf? tokens, part.2.or prelude.getLast? with
  | some span, _ => some (⟨textOf tokens, span, tokens⟩ :: read.1, read.2)
  | none, some t => some (read.1, ⟨.emptySelector, t.span⟩ :: read.2)
  | none, none => some read

/-- The selectors of a prelude, and its empty ones as faults. -/
def selectors? (prelude : Tokens) : Option (List Selector × List Issue) := do
  let parts ← splits? prelude 0 0 0
  parts.foldrM (addPart? prelude) ([], [])

section Scans

variable (ts : Tokens)

/-- The position of the first brace or `;` outside parentheses and brackets. -/
def scan (pos : Nat) : Nat := pos + preludeExtent 0 (ts.drop pos)

/-- The position of the next token that is no trivia. -/
def pastTrivia (pos : Nat) : Nat :=
  match _ : ts[pos]? with
  | none => pos
  | some t => if isTrivia t then pastTrivia (pos + 1) else pos
termination_by ts.length - pos
decreasing_by
  all_goals
    have := (List.getElem?_eq_some_iff.mp ‹_›).1
    omega

/-- The position where a value ends, `depth` brackets and braces being open. -/
def valueEnd? (depth pos : Nat) : Option Nat :=
  match _ : ts[pos]? with
  | none => some pos
  | some t =>
    if opensBracket t || t.kind == .braceOpen then valueEnd? (depth + 1) (pos + 1)
    else if closesBracket t then valueEnd? (depth - 1) (pos + 1)
    else if t.kind = .braceClose then
      if depth = 0 then some pos
      else do
        let depth ← down? depth
        valueEnd? depth (pos + 1)
    else if t.kind = .semicolon ∧ depth = 0 then some pos
    else valueEnd? depth (pos + 1)
termination_by ts.length - pos
decreasing_by
  all_goals
    have := (List.getElem?_eq_some_iff.mp ‹_›).1
    omega

/-- The position after a malformed entry, `depth` braces being open. -/
def recover? (depth pos : Nat) : Option Nat :=
  match _ : ts[pos]? with
  | none => some pos
  | some t =>
    if t.kind = .braceOpen then recover? (depth + 1) (pos + 1)
    else if t.kind = .braceClose then
      if depth = 0 then some pos
      else do
        let depth ← down? depth
        if depth = 0 then some (pos + 1) else recover? depth (pos + 1)
    else if t.kind = .semicolon ∧ depth = 0 then some (pos + 1)
    else recover? depth (pos + 1)
termination_by ts.length - pos
decreasing_by
  all_goals
    have := (List.getElem?_eq_some_iff.mp ‹_›).1
    omega

/-- The `}` that ends a block, if there is one, and the position after it, `depth` blocks of its own
being open. -/
def skip? (depth pos : Nat) : Option (Option Span × Nat) :=
  match _ : ts[pos]? with
  | none => some (none, pos)
  | some t =>
    if t.kind = .braceOpen then skip? (depth + 1) (pos + 1)
    else if t.kind = .braceClose then
      if depth = 0 then some (some t.span, pos + 1)
      else do
        let depth ← down? depth
        skip? depth (pos + 1)
    else skip? depth (pos + 1)
termination_by ts.length - pos
decreasing_by
  all_goals
    have := (List.getElem?_eq_some_iff.mp ‹_›).1
    omega

/-! ## Declarations -/

/-- Whether an identifier stands here and then, after trivia, a colon. -/
def looksLikeDeclaration? (pos : Nat) : Option Bool :=
  match ts[pos]? with
  | none => some false
  | some t =>
    if t.kind = .ident then do
      let rest ← slice? ts (pos + 1) ts.length
      some ((rest.find? fun t => !isTrivia t).any (·.kind == .colon))
    else some false

/-- Takes `!important` off the end of a trimmed value, and trims what is before it. -/
def splitImportant? (value : Tokens) : Option (Tokens × Option Span) :=
  match value.reverse with
  | word :: bang :: front =>
    if !isImportantWord word then some (value, none)
    else if bang.kind == .delim && bang.text == ['!'] then do
      let kept ← trim? front.reverse
      some (kept, some ⟨bang.span.start, word.span.finish⟩)
    else
      match front with
      | [] => some (value, none)
      | sign :: front =>
        if isTrivia bang && sign.text == ['!'] then do
          let kept ← trim? front.reverse
          some (kept, some ⟨sign.span.start, word.span.finish⟩)
        else some (value, none)
  | _ => some (value, none)

/-- The declaration that stands here, and the position after it. -/
def declaration? (pos : Nat) : Option (Declaration × Nat) := do
  let property ← ts[pos]?
  let sign := pastTrivia ts (pos + 1)
  let colon ← ts[sign]?.filter (·.kind == .colon)
  let finish ← valueEnd? ts 0 (sign + 1)
  let inside ← slice? ts (sign + 1) finish
  let trimmed ← trim? inside
  let (value, important) ← splitImportant? trimmed
  let valueSpan := spanOf? value
  let semicolon := ts[finish]?.filter (·.kind == .semicolon)
  let last := (important.or valueSpan).getD colon.span
  some
    ({ property := property.text
       propertySpan := property.span
       colon := colon.span
       value := textOf value
       valueSpan
       valueTokens := value
       important
       semicolon := semicolon.map Token.span
       span := ⟨property.span.start, last.finish⟩ },
      finish + semicolon.toList.length)

end Scans

/-! ## Items and blocks -/

/-- Where the descent stands: the position in the tokens and how many blocks are open. -/
structure Place where
  pos : Nat
  depth : Nat

/-- What a part of the descent has read, what is wrong with it, and where it has come to. -/
structure Answer (α : Type) where
  value : α
  issues : List Issue
  place : Place

/-- What a block contains so far, last first, and its `}`. -/
structure Entries where
  declarations : List Declaration
  comments : List Comment
  nested : List Item
  closing : Option Span

/-- The end of a block: its `}`, or else the last token. -/
def blockEnd (ts : Tokens) (opening : Span) (closing : Option Span) : Position :=
  ((closing.or (ts.getLast?.map Token.span)).getD opening).finish

/-- What is written after the `@` of an at-keyword. -/
def afterSign? : List Char → Option (List Char)
  | '@' :: word => some word
  | _ => none

/-- A block without a `}` is a fault. -/
def unclosed (opening : Span) (closing : Option Span) : List Issue :=
  if closing.isNone then [⟨.unclosedBlock, opening⟩] else []

/-- Skips the block whose `{` is `opening`, the position being the one after it. -/
def skipBlock? (cap : Nat) (ts : Tokens) (opening : Span) (place : Place) :
    Option (Answer (Option Span)) := do
  let (closing, pos) ← skip? ts 0 place.pos
  some ⟨closing, ⟨.tooDeep cap, opening⟩ :: unclosed opening closing, ⟨pos, place.depth⟩⟩

variable (cap : Nat) (ts : Tokens)

mutual

/-- Reads items up to the end of the tokens or, inside a block, up to its `}`. What has been read is
`items`, last first. -/
def items? (nested keyframes : Bool) (items : List Item) (place : Place) :
    Option (Answer (List Item)) :=
  match _ : ts[place.pos]? with
  | none => some ⟨items, [], place⟩
  | some t =>
    if nested && t.kind == .braceClose then some ⟨items, [], place⟩
    else do
      let turn ← itemTurn? keyframes items t place
      if _ : place.pos < turn.place.pos then
        let rest ← items? nested keyframes turn.value turn.place
        some { rest with issues := turn.issues ++ rest.issues }
      else none
termination_by (ts.length - place.pos, 5)
decreasing_by
  all_goals
    have := (List.getElem?_eq_some_iff.mp ‹_›).1
    simp only [Prod.lex_def, true_and]
    omega

/-- One turn of the loop over items. -/
def itemTurn? (keyframes : Bool) (items : List Item) (t : Token TokenKind) (place : Place) :
    Option (Answer (List Item)) :=
  match t.kind with
  | .blank | .cdo | .cdc | .byteOrderMark | .semicolon =>
    some ⟨items, [], ⟨place.pos + 1, place.depth⟩⟩
  | .comment => some ⟨.comment ⟨t.text, t.span⟩ :: items, [], ⟨place.pos + 1, place.depth⟩⟩
  | .braceClose => some ⟨items, [⟨.unexpectedClose, t.span⟩], ⟨place.pos + 1, place.depth⟩⟩
  | .atKeyword => do
    let rule ← atRule? place
    some ⟨.atRule rule.value :: items, rule.issues, rule.place⟩
  | _ => ruleOrDeclaration? keyframes items place
termination_by (ts.length - place.pos, 4)

/-- Reads a rule or a declaration outside blocks of declarations. -/
def ruleOrDeclaration? (keyframes : Bool) (items : List Item) (place : Place) :
    Option (Answer (List Item)) := do
  let finish := scan ts place.pos
  if ts[finish]?.any (·.kind == .braceOpen) then
    let rule ← styleRule? keyframes place
    some ⟨.style rule.value :: items, rule.issues, rule.place⟩
  else if ← looksLikeDeclaration? ts place.pos then
    let (d, pos) ← declaration? ts place.pos
    some ⟨Builder.addBare d items, [], ⟨pos, place.depth⟩⟩
  else
    let part ← slice? ts place.pos finish
    let stray ← trim? part
    let ending := ts[finish]?.filter (·.kind == .semicolon)
    some ⟨items, ((spanOf? stray).map fun span => ⟨.strayTokens, span⟩).toList,
      ⟨finish + ending.toList.length, place.depth⟩⟩
termination_by (ts.length - place.pos, 3)

/-- Reads a style rule: its prelude and its block. -/
def styleRule? (keyframe : Bool) (place : Place) : Option (Answer (StyleRule Item)) := do
  let brace := scan ts place.pos
  let part ← slice? ts place.pos brace
  let prelude ← trim? part
  let (selectors, issues) ← selectors? prelude
  let block ← block? ⟨brace, place.depth⟩
  let span := ((spanOf? prelude).map (·.join block.value.span)).getD block.value.span
  some ⟨⟨selectors, spanOf? prelude, keyframe, block.value, span⟩, issues ++ block.issues,
    block.place⟩
termination_by (ts.length - place.pos, 2)
decreasing_by simp only [Prod.lex_def, scan]; omega

/-- Reads the block that the `{` here opens. -/
def block? (place : Place) : Option (Answer (Block Item)) :=
  match _ : ts[place.pos]?.filter (·.kind == .braceOpen) with
  | none => none
  | some e =>
    if cap ≤ place.depth then do
      let skipped ← skipBlock? cap ts e.span ⟨place.pos + 1, place.depth⟩
      some ⟨⟨some e.span, skipped.value, [], [], [],
        ⟨e.span.start, blockEnd ts e.span skipped.value⟩⟩, skipped.issues, skipped.place⟩
    else do
      let inside ← entries? ⟨[], [], [], none⟩ ⟨place.pos + 1, place.depth + 1⟩
      let depth ← down? inside.place.depth
      let closing := inside.value.closing
      some ⟨⟨some e.span, closing, inside.value.declarations.reverse,
        inside.value.comments.reverse, inside.value.nested.reverse,
        ⟨e.span.start, blockEnd ts e.span closing⟩⟩, inside.issues ++ unclosed e.span closing,
        ⟨inside.place.pos, depth⟩⟩
termination_by (ts.length - place.pos, 1)
decreasing_by
  have := (List.getElem?_eq_some_iff.mp (Option.filter_eq_some_iff.mp ‹_›).1).1
  simp only [Prod.lex_def]
  omega

/-- Reads the items of an at-rule, whose block the `{` here opens. -/
def ruleBlock? (head : AtHead) (place : Place) : Option (Answer (AtRule Item)) :=
  match _ : ts[place.pos]?.filter (·.kind == .braceOpen) with
  | none => none
  | some e =>
    if cap ≤ place.depth then do
      let skipped ← skipBlock? cap ts e.span ⟨place.pos + 1, place.depth⟩
      some ⟨head.toRule (.rules e.span skipped.value []) (blockEnd ts e.span skipped.value),
        skipped.issues, skipped.place⟩
    else do
      let inside ← items? true (namesKeyframes head.name) [] ⟨place.pos + 1, place.depth + 1⟩
      let depth ← down? inside.place.depth
      let brace := ts[inside.place.pos]?.filter (·.kind == .braceClose)
      let closing := brace.map Token.span
      let last := (closing.or (inside.value.head?.map Item.span)).getD e.span
      some ⟨head.toRule (.rules e.span closing inside.value.reverse) last.finish,
        inside.issues ++ unclosed e.span closing, ⟨inside.place.pos + brace.toList.length, depth⟩⟩
termination_by (ts.length - place.pos, 1)
decreasing_by
  have := (List.getElem?_eq_some_iff.mp (Option.filter_eq_some_iff.mp ‹_›).1).1
  simp only [Prod.lex_def]
  omega

/-- Reads the entries of a block, through its `}`. -/
def entries? (entries : Entries) (place : Place) : Option (Answer Entries) :=
  match _ : ts[place.pos]? with
  | none => some ⟨entries, [], place⟩
  | some t =>
    if t.kind = .braceClose then
      some ⟨{ entries with closing := some t.span }, [], ⟨place.pos + 1, place.depth⟩⟩
    else do
      let turn ← entryTurn? entries t place
      if _ : place.pos < turn.place.pos then
        let rest ← entries? turn.value turn.place
        some { rest with issues := turn.issues ++ rest.issues }
      else none
termination_by (ts.length - place.pos, 5)
decreasing_by
  all_goals
    have := (List.getElem?_eq_some_iff.mp ‹_›).1
    simp only [Prod.lex_def, true_and]
    omega

/-- One turn of the loop over the entries of a block. -/
def entryTurn? (entries : Entries) (t : Token TokenKind) (place : Place) :
    Option (Answer Entries) :=
  match t.kind with
  | .blank | .semicolon => some ⟨entries, [], ⟨place.pos + 1, place.depth⟩⟩
  | .comment =>
    some ⟨{ entries with comments := ⟨t.text, t.span⟩ :: entries.comments }, [],
      ⟨place.pos + 1, place.depth⟩⟩
  | .atKeyword => do
    let rule ← atRule? place
    some ⟨{ entries with nested := .atRule rule.value :: entries.nested }, rule.issues, rule.place⟩
  | _ => nestedOrDeclaration? entries place
termination_by (ts.length - place.pos, 4)

/-- Reads a nested rule or a declaration, or passes over a malformed entry. -/
def nestedOrDeclaration? (entries : Entries) (place : Place) : Option (Answer Entries) := do
  if startsNestedRule (ts.drop place.pos) then
    let rule ← styleRule? false place
    some ⟨{ entries with nested := .style rule.value :: entries.nested }, rule.issues, rule.place⟩
  else if ← looksLikeDeclaration? ts place.pos then
    let (d, pos) ← declaration? ts place.pos
    some ⟨{ entries with declarations := d :: entries.declarations }, [], ⟨pos, place.depth⟩⟩
  else
    let finish ← recover? ts 0 place.pos
    let part ← slice? ts place.pos finish
    let skipped ← trim? part
    let issues : List Issue :=
      match skipped.head?, spanOf? skipped with
      | some first, some span => [⟨.strayInBlock first.text, span⟩]
      | _, _ => []
    some ⟨entries, issues, ⟨finish, place.depth⟩⟩
termination_by (ts.length - place.pos, 3)

/-- Reads an at-rule up to its `;`, or with its block. -/
def atRule? (place : Place) : Option (Answer (AtRule Item)) :=
  match _ : ts[place.pos]? with
  | none => none
  | some keyword => do
    let word ← afterSign? keyword.text
    let name := lowerAscii word
    let finish := scan ts (place.pos + 1)
    let part ← slice? ts (place.pos + 1) finish
    let prelude ← trim? part
    let head : AtHead := ⟨name, keyword.span, prelude⟩
    let broken : Answer (AtRule Item) := ⟨head.toRule .statement head.finish,
      [⟨.unterminatedAtRule name, ⟨keyword.span.start, head.finish⟩⟩], ⟨finish, place.depth⟩⟩
    match ts[finish]? with
    | none => some broken
    | some e =>
      if e.kind = .semicolon then
        some ⟨head.toRule .statement e.span.finish, [], ⟨finish + 1, place.depth⟩⟩
      else if e.kind = .braceOpen then
        if declarationAtRules.contains name then do
          let block ← block? ⟨finish, place.depth⟩
          some ⟨head.toRule (.declarations block.value) block.value.span.finish, block.issues,
            block.place⟩
        else ruleBlock? head ⟨finish, place.depth⟩
      else some broken
termination_by (ts.length - place.pos, 2)
decreasing_by
  all_goals
    have := (List.getElem?_eq_some_iff.mp ‹_›).1
    simp only [Prod.lex_def, scan]
    omega

end

/-- Reads all items of a stylesheet. -/
def sheet? : Option (Answer (List Item)) := do
  let all ← items? cap ts false false [] ⟨0, 0⟩
  some ⟨all.value.reverse, tokenIssues ts ++ all.issues, all.place⟩

/-! ## Checks that hold -/

section Checks

variable {ts : Tokens} {t : Token TokenKind} {pos start finish depth : Nat}

theorem drop_of_none (none_ : ts[pos]? = none) : ts.drop pos = [] :=
  List.drop_eq_nil_iff.mpr (List.getElem?_eq_none_iff.mp none_)

theorem drop_of_some (found : ts[pos]? = some t) : ts.drop pos = t :: ts.drop (pos + 1) := by
  obtain ⟨lt, rfl⟩ := List.getElem?_eq_some_iff.mp found
  exact List.drop_eq_getElem_cons lt

theorem slice?_of_le (ordered : start ≤ finish) (inside : finish ≤ ts.length) :
    slice? ts start finish = some ((ts.drop start).take (finish - start)) :=
  if_pos ⟨ordered, inside⟩

theorem lastSolid?_take (ts : Tokens) :
    (lastSolid? ts).all (· < ts.length) ∧
      trimTriviaEnd ts = ts.take (((lastSolid? ts).map (· + 1)).getD 0) := by
  induction ts with
  | nil => simp [lastSolid?, trimTriviaEnd]
  | cons t ts ih =>
      obtain ⟨bound, kept⟩ := ih
      rw [lastSolid?, trimTriviaEnd, kept]
      cases last : lastSolid? ts with
      | none => cases trivial_ : isTrivia t <;> simp
      | some i =>
          rw [last] at bound
          cases ts with
          | nil => simp [lastSolid?] at last
          | cons u ts => simpa using bound

theorem slice?_cons (t : Token TokenKind) (ts : Tokens) (start finish : Nat) :
    slice? (t :: ts) (start + 1) (finish + 1) = slice? ts start finish := by
  simp [slice?]

/-- **The slice without trivia is in range**, whatever is trimmed. -/
theorem trim?_eq (part : Tokens) : trim? part = some (trimTrivia part) := by
  induction part with
  | nil => rfl
  | cons t ts ih =>
      cases trivial_ : isTrivia t with
      | true =>
          have last : lastSolid? (t :: ts) = (lastSolid? ts).map (· + 1) := by
            rw [lastSolid?]
            cases lastSolid? ts <;> simp [trivial_]
          have shifted : trim? (t :: ts) = trim? ts := by
            simp only [trim?, last, List.findIdx_cons, trivial_, Bool.not_true, cond_false]
            cases lastSolid? ts <;> exact slice?_cons t ts _ _
          have same : trimTrivia (t :: ts) = trimTrivia ts := by
            rw [trimTrivia, trimTrivia, List.dropWhile_cons_of_pos trivial_]
          rw [shifted, same, ih]
      | false =>
          obtain ⟨bound, kept⟩ := lastSolid?_take (t :: ts)
          have first : (t :: ts).findIdx (fun t => !isTrivia t) = 0 := by
            simp [List.findIdx_cons, trivial_]
          have inside : ((lastSolid? (t :: ts)).map (· + 1)).getD 0 ≤ (t :: ts).length := by
            cases last : lastSolid? (t :: ts) with
            | none => exact Nat.zero_le _
            | some i => simpa [last] using bound
          have same : trimTrivia (t :: ts) = trimTriviaEnd (t :: ts) := by
            rw [trimTrivia, List.dropWhile_cons_of_neg (by simp [trivial_])]
          simp only [trim?, first]
          rw [slice?_of_le (Nat.zero_le _) inside, same, kept, List.drop_zero, Nat.sub_zero]

/-- **The slices between the commas are in range.** The induction is on the positions; the part that
is not cut off yet is what stands from `start` on. -/
theorem splits?_eq (prelude : Tokens) (depth start i : Nat) (ordered : start ≤ i)
    (inside : i ≤ prelude.length) :
    ∃ part comma parts, splitAtCommas depth (prelude.drop i) = (part, comma) :: parts ∧
      splits? prelude depth start i =
        some (((prelude.drop start).take (i - start) ++ part, comma) :: parts) := by
  fun_induction splits? prelude depth start i with
  | case1 depth start i none_ =>
      refine ⟨[], none, [], by rw [drop_of_none none_, splitAtCommas], ?_⟩
      rw [slice?_of_le ordered inside, List.append_nil]
      rfl
  | case2 depth start i t found comma ih =>
      have lt := (List.getElem?_eq_some_iff.mp found).1
      obtain ⟨part, next, parts, split, rest⟩ := ih (Nat.le_refl _) lt
      refine ⟨[], some t, (part, next) :: parts, ?_, ?_⟩
      · rw [drop_of_some found, splitAtCommas, if_pos comma, split]
      · rw [slice?_of_le ordered inside, rest]
        simp
  | case3 depth start i t found other ih =>
      have lt := (List.getElem?_eq_some_iff.mp found).1
      simp only [dite_eq_ite] at ih
      obtain ⟨part, next, parts, split, rest⟩ := ih (by omega) lt
      refine ⟨t :: part, next, parts, ?_, ?_⟩
      · rw [drop_of_some found, splitAtCommas, if_neg other]
        dsimp only
        rw [split]
      · have grown : (prelude.drop start).take (i + 1 - start) =
            (prelude.drop start).take (i - start) ++ [t] := by
          rw [show i + 1 - start = i - start + 1 by omega, List.take_add_one, List.getElem?_drop,
            Nat.add_sub_cancel' ordered, found]
          rfl
        rw [rest, grown, List.append_assoc]
        rfl

theorem addPart?_eq (prelude : Tokens) (last : Token TokenKind) (final : prelude.getLast? = some last)
    (part : Tokens × Option (Token TokenKind)) (read : List Selector × List Issue) :
    addPart? prelude part read = some (addPart last part read) := by
  simp only [addPart?, trim?_eq, final, addPart, Option.bind_eq_bind, Option.bind_some]
  cases spanOf? (trimTrivia part.1) <;> cases part.2 <;> rfl

/-- **The selectors of a prelude are read**, each of their slices being in range. -/
theorem selectors?_eq (prelude : Tokens) : selectors? prelude = some (readSelectors prelude) := by
  obtain ⟨part, comma, parts, split, cut⟩ :=
    splits?_eq prelude 0 0 0 (Nat.le_refl _) (Nat.zero_le _)
  rw [List.drop_zero] at split
  rw [selectors?, cut, readSelectors_eq]
  cases final : prelude.getLast? with
  | none =>
      obtain rfl := List.getLast?_eq_none_iff.mp final
      cases split
      rfl
  | some last =>
      have folded : ∀ parts : List (Tokens × Option (Token TokenKind)),
          parts.foldrM (addPart? prelude) ([], []) =
            some (parts.foldr (addPart last) ([], [])) := by
        intro parts
        induction parts with
        | nil => rfl
        | cons part parts ih =>
            rw [List.foldrM_cons, ih, List.foldr_cons]
            exact addPart?_eq prelude last final part _
      rw [split]
      exact folded _

/-! ### Scans -/

theorem preludeExtent_le (depth : Nat) (ts : Tokens) : preludeExtent depth ts ≤ ts.length := by
  induction ts generalizing depth with
  | nil => exact Nat.le_refl _
  | cons t ts ih =>
      rw [preludeExtent, List.length_cons]
      split_ifs
      · exact Nat.succ_le_succ (ih _)
      · exact Nat.succ_le_succ (ih _)
      · exact Nat.zero_le _
      · exact Nat.succ_le_succ (ih _)

theorem scan_le (inside : pos ≤ ts.length) : scan ts pos ≤ ts.length := by
  have le := preludeExtent_le 0 (ts.drop pos)
  rw [List.length_drop] at le
  rw [scan]
  omega

theorem pastTrivia_eq (ts : Tokens) (pos : Nat) :
    pastTrivia ts pos = pos + ((ts.drop pos).takeWhile isTrivia).length := by
  fun_induction pastTrivia ts pos with
  | case1 pos none_ => rw [drop_of_none none_]; rfl
  | case2 pos t found trivial_ ih =>
      rw [ih, drop_of_some found, List.takeWhile_cons_of_pos trivial_, List.length_cons]
      omega
  | case3 pos t found solid =>
      rw [drop_of_some found, List.takeWhile_cons_of_neg solid]
      rfl

@[simp] theorem down?_succ (n : Nat) : down? (n + 1) = some n := rfl

/-- **No count goes below zero** where the end of a value is looked for. -/
theorem valueEnd?_eq (ts : Tokens) (depth pos : Nat) :
    valueEnd? ts depth pos = some (pos + valueExtent depth (ts.drop pos)) := by
  fun_induction valueEnd? ts depth pos with
  | case1 depth pos none_ => rw [drop_of_none none_]; rfl
  | case2 depth pos t found opens ih =>
      simp only [ih, drop_of_some found, valueExtent, if_pos opens, Option.some.injEq]
      omega
  | case3 depth pos t found opens closes ih =>
      simp only [ih, drop_of_some found, valueExtent, if_neg opens, if_pos closes,
        Option.some.injEq]
      omega
  | case4 pos t found opens closes ends =>
      simp only [drop_of_some found, valueExtent, if_neg opens, if_neg closes, if_pos ends]
      rfl
  | case5 depth pos t found opens closes ends some_ ih =>
      obtain ⟨depth, rfl⟩ := Nat.exists_eq_succ_of_ne_zero some_
      simp only [Option.bind_eq_bind, down?_succ, Option.bind_some, ih, drop_of_some found,
        valueExtent, if_neg opens, if_neg closes, if_pos ends, Option.some.injEq]
      omega
  | case6 depth pos t found opens closes ends semicolon =>
      simp only [drop_of_some found, valueExtent, if_neg opens, if_neg closes, if_neg ends,
        if_pos semicolon]
      rfl
  | case7 depth pos t found opens closes ends semicolon ih =>
      simp only [ih, drop_of_some found, valueExtent, if_neg opens, if_neg closes, if_neg ends,
        if_neg semicolon, Option.some.injEq]
      omega

/-- **No count goes below zero** where a malformed entry is skipped. -/
theorem recover?_eq (ts : Tokens) (depth pos : Nat) :
    recover? ts depth pos = some (pos + entryExtent depth (ts.drop pos)) := by
  fun_induction recover? ts depth pos with
  | case1 depth pos none_ => rw [drop_of_none none_]; rfl
  | case2 depth pos t found opens ih =>
      simp only [ih, drop_of_some found, entryExtent, if_pos opens, Option.some.injEq]
      omega
  | case3 pos t found opens ends =>
      simp only [drop_of_some found, entryExtent, if_neg opens, if_pos ends]
      rfl
  | case4 depth pos t found opens ends some_ ih =>
      obtain ⟨depth, rfl⟩ := Nat.exists_eq_succ_of_ne_zero some_
      cases depth with
      | zero =>
          simp only [drop_of_some found, entryExtent, if_neg opens, if_pos ends]
          rfl
      | succ depth =>
          have deeper := ih (depth + 1)
          simp only [Option.bind_eq_bind, down?_succ, Option.bind_some, deeper,
            drop_of_some found, entryExtent, if_neg opens, if_pos ends,
            if_neg (Nat.succ_ne_zero depth), Option.some.injEq]
          omega
  | case5 depth pos t found opens ends semicolon =>
      simp only [drop_of_some found, entryExtent, if_neg opens, if_neg ends, if_pos semicolon]
  | case6 depth pos t found opens ends semicolon ih =>
      simp only [ih, drop_of_some found, entryExtent, if_neg opens, if_neg ends,
        if_neg semicolon, Option.some.injEq]
      omega

/-- **No count goes below zero** where a block is skipped. -/
theorem skip?_eq (ts : Tokens) (depth pos : Nat) :
    skip? ts depth pos = some ((blockExtent depth (ts.drop pos)).2,
      pos + (blockExtent depth (ts.drop pos)).1) := by
  fun_induction skip? ts depth pos with
  | case1 depth pos none_ => rw [drop_of_none none_]; rfl
  | case2 depth pos t found opens ih =>
      simp only [ih, drop_of_some found, blockExtent, if_pos opens, Option.some.injEq,
        Prod.mk.injEq, true_and]
      omega
  | case3 pos t found opens ends =>
      simp only [drop_of_some found, blockExtent, if_neg opens, if_pos ends]
  | case4 depth pos t found opens ends some_ ih =>
      obtain ⟨depth, rfl⟩ := Nat.exists_eq_succ_of_ne_zero some_
      simp only [Option.bind_eq_bind, down?_succ, Option.bind_some, ih, drop_of_some found,
        blockExtent, if_neg opens, if_pos ends, Option.some.injEq, Prod.mk.injEq, true_and]
      omega
  | case5 depth pos t found opens ends ih =>
      simp only [ih, drop_of_some found, blockExtent, if_neg opens, if_neg ends,
        Option.some.injEq, Prod.mk.injEq, true_and]
      omega

theorem valueExtent_le (depth : Nat) (ts : Tokens) : valueExtent depth ts ≤ ts.length := by
  induction ts generalizing depth with
  | nil => exact Nat.le_refl _
  | cons t ts ih =>
      simp only [valueExtent, List.length_cons]
      split_ifs
      · exact Nat.succ_le_succ (ih _)
      · exact Nat.succ_le_succ (ih _)
      · split
        · exact Nat.zero_le _
        · exact Nat.succ_le_succ (ih _)
      · exact Nat.zero_le _
      · exact Nat.succ_le_succ (ih _)

theorem entryExtent_le (depth : Nat) (ts : Tokens) : entryExtent depth ts ≤ ts.length := by
  induction ts generalizing depth with
  | nil => exact Nat.le_refl _
  | cons t ts ih =>
      simp only [entryExtent, List.length_cons]
      split_ifs
      · exact Nat.succ_le_succ (ih _)
      · split
        · exact Nat.zero_le _
        · exact Nat.succ_le_succ (Nat.zero_le _)
        · exact Nat.succ_le_succ (ih _)
      · exact Nat.succ_le_succ (Nat.zero_le _)
      · exact Nat.succ_le_succ (ih _)

theorem blockExtent_le (depth : Nat) (ts : Tokens) : (blockExtent depth ts).1 ≤ ts.length := by
  induction ts generalizing depth with
  | nil => exact Nat.le_refl _
  | cons t ts ih =>
      simp only [blockExtent, List.length_cons]
      split_ifs
      · exact Nat.succ_le_succ (ih _)
      · split
        · exact Nat.succ_le_succ (Nat.zero_le _)
        · exact Nat.succ_le_succ (ih _)
      · exact Nat.succ_le_succ (ih _)

/-! ### Declarations -/

variable {rest : Tokens} {d : Declaration} {n : Nat}

theorem tail_of_drop (here : ts.drop pos = t :: rest) :
    ts[pos]? = some t ∧ ts.drop (pos + 1) = rest ∧ pos < ts.length := by
  have found : ts[pos]? = some t := by
    rw [← List.head?_drop, here]
    rfl
  refine ⟨found, ?_, (List.getElem?_eq_some_iff.mp found).1⟩
  have cut := drop_of_some found
  rw [here] at cut
  exact (List.cons.inj cut).2.symm

/-- A token at a place, if there is one of some sort, is in range. -/
theorem length_filter_le (p : Token TokenKind → Bool) (inside : n ≤ ts.length) :
    n + (ts[n]?.filter p).toList.length ≤ ts.length := by
  cases found : ts[n]?.filter p with
  | none => exact inside
  | some t => exact (List.getElem?_eq_some_iff.mp (Option.filter_eq_some_iff.mp found).1).1

theorem splitImportant?_eq (value : Tokens) :
    splitImportant? value = some (splitImportant value) := by
  rw [splitImportant?, splitImportant]
  rcases value.reverse with - | ⟨word, - | ⟨bang, - | ⟨sign, front⟩⟩⟩
  · rfl
  · dsimp only
    split <;> rfl
  · simp only [trim?_eq]
    split_ifs <;> rfl
  · simp only [trim?_eq]
    split_ifs <;> rfl

/-- What looks like a declaration is one. -/
theorem looksLikeDeclaration?_eq (here : ts.drop pos = t :: rest) :
    looksLikeDeclaration? ts pos = some (Declaration.read? t rest).isSome := by
  obtain ⟨found, tail, lt⟩ := tail_of_drop here
  have sign : rest.find? (fun t => !isTrivia t) =
      (rest.drop (rest.takeWhile isTrivia).length).head? := by
    rw [List.find?_eq_head?_dropWhile_not, drop_length_takeWhile]
    simp
  have whole : slice? ts (pos + 1) ts.length = some rest := by
    rw [slice?_of_le lt (Nat.le_refl _), tail, List.take_of_length_le]
    rw [← tail, List.length_drop]
  simp only [looksLikeDeclaration?, found, whole, Declaration.read?, Option.bind_eq_bind,
    Option.bind_some, sign]
  cases rest.drop (rest.takeWhile isTrivia).length with
  | nil => split_ifs <;> rfl
  | cons colon after =>
      by_cases ident : t.kind = .ident <;> by_cases isColon : colon.kind = .colon <;>
        simp [ident, isColon]

/-- **A declaration is read**, its colon and its value being in range. -/
theorem declaration?_eq (here : ts.drop pos = t :: rest)
    (read : Declaration.read? t rest = some (d, n)) :
    declaration? ts pos = some (d, pos + n) ∧ 0 < n ∧ pos + n ≤ ts.length := by
  obtain ⟨found, tail, lt⟩ := tail_of_drop here
  simp only [Declaration.read?] at read
  split at read
  · cases read
  next colon after left =>
    split at read
    next kinds =>
      obtain ⟨rfl, rfl⟩ := Prod.mk.inj (Option.some.inj read)
      have passed : pastTrivia ts (pos + 1) = pos + 1 + (rest.takeWhile isTrivia).length := by
        rw [pastTrivia_eq, tail]
      generalize (rest.takeWhile isTrivia).length = gap at left passed ⊢
      have sign : ts.drop (pos + 1 + gap) = colon :: after := by
        rw [← List.drop_drop, tail, left]
      obtain ⟨isColon, value, inside⟩ := tail_of_drop sign
      have size : after.length = ts.length - (pos + 1 + gap + 1) := by
        rw [← value, List.length_drop]
      have extent := valueExtent_le 0 after
      have ends : valueEnd? ts 0 (pos + 1 + gap + 1) =
          some (pos + 1 + gap + 1 + valueExtent 0 after) := by
        rw [valueEnd?_eq, value]
      generalize valueExtent 0 after = n at extent ends ⊢
      have cut : slice? ts (pos + 1 + gap + 1) (pos + 1 + gap + 1 + n) = some (after.take n) := by
        rw [slice?_of_le (Nat.le_add_right _ _) (by omega), value, Nat.add_sub_cancel_left]
      have final : ts[pos + 1 + gap + 1 + n]? = after[n]? := by
        rw [← value, List.getElem?_drop]
      refine ⟨?_, by omega, ?_⟩
      · simp only [declaration?, found, passed, isColon, ends, cut, trim?_eq, splitImportant?_eq, final,
          Option.bind_eq_bind, Option.bind_some, Option.filter_some, kinds.2, beq_self_eq_true,
          if_true]
        simp only [Option.some.injEq, Prod.mk.injEq, true_and]
        omega
      · have through := length_filter_le (·.kind == .semicolon) extent
        omega
    next => cases read

end Checks

end Descent

end PageLint.Css
