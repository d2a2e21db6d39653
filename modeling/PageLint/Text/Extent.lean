/-
# PageLint.Text.Extent — how far a piece of text reaches

Lexers measure pieces by their number of characters. `extentWhile p` counts the
leading characters in `p`; `extentThrough close` counts up to and including the
first `close`, or to the end where there is none.
-/
import PageLint.Text.Ascii

namespace PageLint.Text

set_option autoImplicit false

/-- Number of leading characters in `p`. -/
def extentWhile (p : Char → Bool) (cs : List Char) : Nat :=
  (cs.takeWhile p).length

theorem take_extentWhile (p : Char → Bool) (cs : List Char) :
    cs.take (extentWhile p cs) = cs.takeWhile p := by
  induction cs with
  | nil => rfl
  | cons c cs ih =>
    simp only [extentWhile] at ih ⊢
    by_cases h : p c <;> simp [h, ih]

theorem drop_extentWhile (p : Char → Bool) (cs : List Char) :
    cs.drop (extentWhile p cs) = cs.dropWhile p := by
  induction cs with
  | nil => rfl
  | cons c cs ih =>
    simp only [extentWhile] at ih ⊢
    by_cases h : p c <;> simp [h, ih]

/-- Number of characters up to and including the first `close`; all of them if
there is none. -/
def extentThrough (close : List Char) : List Char → Nat
  | [] => 0
  | c :: cs =>
    if close.isPrefixOf (c :: cs) then close.length else extentThrough close cs + 1

/-- Number of characters before the first place where `stop` holds of the rest. -/
def extentUntil (stop : List Char → Bool) : List Char → Nat
  | [] => 0
  | c :: cs => if stop (c :: cs) then 0 else extentUntil stop cs + 1

end PageLint.Text
