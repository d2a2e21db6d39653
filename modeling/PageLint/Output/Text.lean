/-
# PageLint.Output.Text — findings for a reader

Findings under the names of their files, each with its source line, the stretch
marked, help, fix and notes; then the files that could not be checked, the counts
and the time. Colours are control sequences around a text. A sequence inside the
text that ends a colour is followed by the colour again.
-/
import PageLint.Lint.Checker

namespace PageLint

set_option autoImplicit false

open Text

/-- The colours in use. -/
inductive Colour where
  | red
  | green
  | yellow
  | blue
  | cyan
  | boldRed
  | boldYellow
  | underline
  deriving DecidableEq, Repr

/-- The codes that begin a colour. -/
def Colour.codes : Colour → String
  | red => "31"
  | green => "32"
  | yellow => "33"
  | blue => "34"
  | cyan => "36"
  | boldRed => "1;31"
  | boldYellow => "1;33"
  | underline => "4"

/-- A text in a colour. -/
def Colour.wrap (colour : Colour) (s : String) : String :=
  let start := "\x1b[" ++ colour.codes ++ "m"
  let reset := "\x1b[0m"
  let kept := String.ofList (replace reset.toList (reset ++ start).toList s.toList)
  start ++ kept ++ reset

/-- What is shown. -/
structure TextOutput where
  colored : Bool := true
  source : Bool := true
  help : Bool := true
  fixes : Bool := true
  stats : Bool := true
  deriving DecidableEq, Repr

namespace TextOutput

/-- A text in a colour, if colours are shown. -/
def paint (out : TextOutput) (colour : Colour) (s : String) : String :=
  if out.colored then colour.wrap s else s

/-- The word for a severity. -/
def severityWord (out : TextOutput) (s : Severity) : String :=
  out.paint (match s with | .error => .boldRed | .warning => .boldYellow) s.word

/-- A number with what it counts. -/
def count (out : TextOutput) (n : Nat) (noun : String) (colour : Colour) : String :=
  out.paint colour (toString n ++ " " ++ noun ++ (if n = 1 then "" else "s"))

/-- A text of one character, so often. -/
def repeated (n : Nat) (c : Char) : String := String.ofList (List.replicate n c)

/-- The source line of a finding with the stretch marked. -/
def sourceLines (out : TextOutput) (d : Diagnostic) (line : String) : String :=
  let bar := out.paint .blue "|"
  "   " ++ bar ++ "\n" ++
    out.paint .blue (padLeft 4 (toString d.line)) ++ " " ++ bar ++ " " ++ line ++ "\n" ++
    "   " ++ bar ++ " " ++ repeated (d.column - 1) ' ' ++ out.paint .red (repeated d.width '^') ++ "\n"

/-- The line of a fix. -/
def fixLine (out : TextOutput) (f : Fix) : String :=
  let replacement := if f.replacement.isEmpty then "(remove)" else f.replacement
  "   " ++ out.paint .green "=" ++ " fix: " ++ f.description ++ " -> " ++
    out.paint .green replacement ++ "\n"

/-- A line with what else there is to say. -/
def remark (out : TextOutput) (label s : String) : String :=
  "   " ++ out.paint .blue "=" ++ " " ++ label ++ ": " ++ s ++ "\n"

/-- A finding. -/
def diagnostic (out : TextOutput) (d : Diagnostic) : String :=
  let head :=
    d.file.text ++ ":" ++ toString d.line ++ ":" ++ toString d.column ++ ": " ++
      out.severityWord d.severity ++ "[" ++ out.paint .cyan d.ruleId ++ "]: " ++ d.message ++ "\n"
  let shown (show_ : Bool) (part : Option String) : String :=
    if show_ then part.getD "" else ""
  head ++ shown out.source (d.sourceLine.map (out.sourceLines d)) ++
    shown out.help (d.help.map (out.remark "help")) ++ shown out.fixes (d.fix.map out.fixLine) ++
    String.join (d.notes.map (out.remark "note"))

/-- Findings under the names of their files. `current` is the file of the one before. -/
def byFile (out : TextOutput) (current : Option Path) : List Diagnostic → String
  | [] => if current.isSome then "\n" else ""
  | d :: ds =>
    let title :=
      if current.any d.file.same then ""
      else
        (if current.isSome then "\n" else "") ++ out.paint .underline d.file.text ++ "\n"
    title ++ out.diagnostic d ++ byFile out (some d.file) ds

/-- A file that could not be checked. -/
def failure (out : TextOutput) (f : FileFailure) : String :=
  out.paint .red "failure" ++ ": " ++ f.message ++ "\n"

/-- The counts and the time of a run. -/
def statistics (out : TextOutput) (s : Summary) (elapsed : Nat) : String :=
  let counted (n : Nat) (noun : String) (colour : Colour) : List String :=
    if n > 0 then [out.count n noun colour] else []
  let counts :=
    counted s.errorCount "error" .red ++ counted s.warningCount "warning" .yellow ++
      counted s.failureCount "failure" .red
  "\n" ++ toString s.filesProcessed ++ (if s.filesProcessed = 1 then " file" else " files") ++
    " processed" ++ (if counts.isEmpty then "" else ": " ++ ", ".intercalate counts) ++ "\n" ++
    "Finished in " ++ (secondsOf elapsed).fixedPlaces 2 ++ "s\n"

/-- A run. -/
def result (out : TextOutput) (r : LintResult) : String :=
  out.byFile none r.diagnostics ++ String.join (r.failures.map out.failure) ++
    (if out.stats then out.statistics r.summary r.elapsed else "")

end TextOutput

end PageLint
