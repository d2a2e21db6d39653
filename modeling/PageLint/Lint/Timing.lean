/-
# PageLint.Lint.Timing — how long rules took

The time that a rule took over all subjects, with how often it looked and what it
found. Times are whole nanoseconds. Where a table shows them, they pass through
numbers of double precision: seconds first, then the unit of the column.
-/
import PageLint.Number.Rounding

namespace PageLint

set_option autoImplicit false

open Number

/-- The work of one rule. -/
structure Timing where
  ruleId : String
  /-- Nanoseconds. -/
  total : Nat := 0
  evaluations : Nat := 0
  findings : Nat := 0
  deriving DecidableEq, Repr

/-- Nanoseconds as seconds in double precision: the whole seconds and the rest are
rounded, and so is their sum. -/
def secondsOf (nanoseconds : Nat) : Ratio :=
  let whole := (Ratio.ofNat (nanoseconds / Nat.pow 10 9)).toBinary
  let rest := ((Ratio.ofNat (nanoseconds % Nat.pow 10 9)).divBy (Nat.pow 10 9)).toBinary
  (whole.add rest).toBinary

/-- Fills up a text on the left to a width. -/
def padLeft (width : Nat) (s : String) : String :=
  String.ofList (List.replicate (width - s.length) ' ') ++ s

/-- Fills up a text on the right to a width. -/
def padRight (width : Nat) (s : String) : String :=
  s ++ String.ofList (List.replicate (width - s.length) ' ')

namespace Timing

/-- The time of one evaluation, in whole nanoseconds. The count wraps at 2 to the
power of 32. -/
def average (t : Timing) : Nat :=
  if t.evaluations > 0 then t.total / (t.evaluations % Nat.pow 2 32) else 0

/-- Two parts of the work of one rule, together. -/
def add (t u : Timing) : Timing :=
  { t with
    total := t.total + u.total
    evaluations := t.evaluations + u.evaluations
    findings := t.findings + u.findings }

/-- Adds work to a list that ascends by rules. -/
def absorb (u : Timing) : List Timing → List Timing
  | [] => [u]
  | t :: ts =>
    if u.ruleId < t.ruleId then u :: t :: ts
    else if u.ruleId = t.ruleId then t.add u :: ts
    else t :: absorb u ts

/-- The work of rules, gathered by rule, in ascending order of the rules. -/
def gather (ts : List Timing) : List Timing := ts.foldl (fun all t => absorb t all) []

/-- The longest first, then by rule. -/
def sorted (ts : List Timing) : List Timing :=
  ts.mergeSort fun t u => t.total > u.total || (t.total == u.total && t.ruleId ≤ u.ruleId)

/-- A line of the table. -/
def row (t : Timing) : String :=
  let total := ((secondsOf t.total).times 1000).toBinary.fixedPlaces 2
  let average := ((secondsOf t.average).times 1000000).toBinary.fixedPlaces 2
  padRight 32 t.ruleId ++ " " ++ padLeft 10 total ++ "ms " ++ padLeft 10 average ++ "µs " ++
    padLeft 10 (toString t.evaluations) ++ " " ++ padLeft 10 (toString t.findings) ++ "\n"

/-- The table of all rules, the longest first. -/
def table (ts : List Timing) : String :=
  if ts.isEmpty then "No timing data available"
  else
    "Rule Timing Statistics:\n" ++ padRight 32 "Rule ID" ++ " " ++ padLeft 12 "Total" ++ " " ++
      padLeft 12 "Avg" ++ " " ++ padLeft 10 "Evals" ++ " " ++ padLeft 10 "Matches" ++ "\n" ++
      String.ofList (List.replicate 80 '-') ++ "\n" ++ String.join ((sorted ts).map row)

end Timing

end PageLint
