/-
# PageLint.Text.Blank — white space, and the ends of a text

A text is a list of characters. White space is the White_Space property, all
twenty-five characters of it: wider than core's `Char.isWhitespace`, which it
contains (`isBlank_of_isWhitespace`). `trimStart`, `trimEnd` and `trim` cut white
space off the ends of a text; `stripHead` and `stripTail` cut a given text off,
if it is there.
-/

namespace PageLint.Text

set_option autoImplicit false

/-- A string literal may stand where a text is expected. -/
instance textOfString : Coe String (List Char) := ⟨String.toList⟩

/-- A list of words, each as a text. -/
def words (ws : List String) : List (List Char) :=
  ws.map String.toList

/-- White space of any script. -/
def isBlank (c : Char) : Bool :=
  c == ' ' || ('\t' ≤ c && c ≤ '\r') || c == '\u0085' || c == '\u00A0' || c == '\u1680' ||
    ('\u2000' ≤ c && c ≤ '\u200A') || c == '\u2028' || c == '\u2029' || c == '\u202F' ||
    c == '\u205F' || c == '\u3000'

theorem isBlank_of_isWhitespace {c : Char} (white : c.isWhitespace = true) : isBlank c = true := by
  simp only [Char.isWhitespace, Bool.or_eq_true, decide_eq_true_eq] at white
  rcases white with ((rfl | rfl) | rfl) | rfl <;> decide

/-- A quotation mark that may enclose a value. -/
def isQuote (c : Char) : Bool :=
  c == '"' || c == '\''

/-- A control character: U+0000 to U+001F and U+007F to U+009F. -/
def isControl (c : Char) : Bool :=
  c.toNat < 0x20 || (0x7F ≤ c.toNat && c.toNat < 0xA0)

/-- The text without its leading characters in `p`. -/
def trimStartBy (p : Char → Bool) (cs : List Char) : List Char :=
  cs.dropWhile p

/-- The text without its trailing characters in `p`. -/
def trimEndBy (p : Char → Bool) : List Char → List Char
  | [] => []
  | c :: cs =>
    match trimEndBy p cs with
    | [] => if p c then [] else [c]
    | kept => c :: kept

/-- The text without leading white space. -/
def trimStart (cs : List Char) : List Char :=
  trimStartBy isBlank cs

/-- The text without trailing white space. -/
def trimEnd (cs : List Char) : List Char :=
  trimEndBy isBlank cs

/-- The text without white space at either end. -/
def trim (cs : List Char) : List Char :=
  trimEnd (trimStart cs)

/-- What follows `lead`, if the text begins with it. -/
def stripHead : (lead cs : List Char) → Option (List Char)
  | [], cs => some cs
  | _ :: _, [] => none
  | l :: lead, c :: cs => if l = c then stripHead lead cs else none

theorem stripHead_eq_some_iff {lead cs rest : List Char} :
    stripHead lead cs = some rest ↔ cs = lead ++ rest := by
  induction lead generalizing cs with
  | nil => simp [stripHead, eq_comm]
  | cons l lead ih =>
    cases cs with
    | nil => simp [stripHead]
    | cons c cs =>
      by_cases same : l = c
      · simp [stripHead, same, ih]
      · simp [stripHead, same, Ne.symm same]

/-- What precedes `tail`, if the text ends with it. -/
def stripTail (tail cs : List Char) : Option (List Char) :=
  if tail.isSuffixOf cs then some (cs.take (cs.length - tail.length)) else none

/-- Cuts a text at every character in `p`: one piece more than there are cuts. -/
def splitBy (p : Char → Bool) : List Char → List (List Char)
  | [] => [[]]
  | c :: cs =>
    match p c, splitBy p cs with
    | true, pieces => [] :: pieces
    | false, piece :: pieces => (c :: piece) :: pieces
    | false, [] => [[c]]

theorem splitBy_ne_nil (p : Char → Bool) (cs : List Char) : splitBy p cs ≠ [] := by
  cases cs with
  | nil => simp [splitBy]
  | cons c cs => simp only [splitBy]; split <;> simp

/-- Puts `sep` between the pieces of a text. -/
def joinWith (sep : List Char) (pieces : List (List Char)) : List Char :=
  List.intercalate sep pieces

/-- Replaces every occurrence of `old`, found from left to right without overlap.
An empty `old` occurs before every character and at the end. -/
def replace (old new : List Char) (cs : List Char) : List Char :=
  match old with
  | [] => new ++ cs.flatMap fun c => c :: new
  | o :: old => go o old new cs
where
  go (o : Char) (old new : List Char) (cs : List Char) : List Char :=
    match cs with
    | [] => []
    | c :: rest =>
      if (o :: old).isPrefixOf (c :: rest) then
        new ++ go o old new (rest.drop old.length)
      else c :: go o old new rest
  termination_by cs.length
  decreasing_by all_goals (simp only [List.length_drop, List.length_cons]; omega)

end PageLint.Text
