/-
# PageLint.Lint.Severity — how grave a finding is
-/

namespace PageLint

set_option autoImplicit false

/-- How grave a finding is: a deviation from the style, or a definite problem. -/
inductive Severity where
  | warning
  | error
  deriving DecidableEq, Repr

namespace Severity

/-- The word for a severity. -/
def word : Severity → String
  | warning => "warning"
  | error => "error"

/-- Whether `s` is less grave than `t`. -/
def below (s t : Severity) : Bool := s == .warning && t == .error

/-- A word that names no severity. -/
structure Unknown where
  word : String
  deriving DecidableEq, Repr

/-- What the reader of a configuration is told. -/
def Unknown.message (u : Unknown) : String := "Unknown severity: " ++ u.word

/-- Reads a severity off its word or the short form of it, in either case. Letters
outside ASCII have no small form that occurs in these words. -/
def ofWord (word : String) : Except Unknown Severity :=
  let small := String.ofList (word.toList.map Char.toLower)
  if small = "warning" ∨ small = "warn" then .ok .warning
  else if small = "error" ∨ small = "err" then .ok .error
  else .error ⟨word⟩

end Severity

end PageLint
