/-
# PageLint.Lint.Suppression — which rules are silent on which lines

The directives of a document, each with the stretch of lines it reaches. A rule is
silent on a line if some directive reaches the line and names the rule or `all`.
Faults of structure and failures of rules are never silenced.
-/
import PageLint.Lint.Directive
import PageLint.Lint.Document

namespace PageLint

set_option autoImplicit false

open Text

/-- The id under which faults of structure are reported. -/
def parseErrorId : String := "parse-error"

/-- The id under which failures of rules are reported. -/
def ruleFailureId : String := "internal-rule-error"

/-- Ids that no rule may have. -/
def isReserved (id : String) : Bool := id == parseErrorId || id == ruleFailureId

/-- The id that stands for every rule. -/
def everyRule : String := "all"

/-- The lines that a directive reaches. -/
inductive Reach where
  | file
  | lines (range : LineRange)
  deriving DecidableEq, Repr

/-- Whether a line is reached. -/
def Reach.covers (r : Reach) (line : Nat) : Bool :=
  match r with
  | file => true
  | lines range => range.covers line

/-- A directive at work: the rules it names, the lines it reaches, and why. -/
structure Suppression where
  ids : List String
  reach : Reach
  reason : Option String
  deriving DecidableEq, Repr

namespace Suppression

/-- The suppression that a directive at a place makes. -/
def ofDirective (d : Directive) (span : Span) : Suppression :=
  { ids := d.ids.map String.ofList
    reach :=
      match d.kind with
      | .here => .lines ⟨span.start.line, span.finish.line⟩
      | .nextLine => .lines ⟨span.finish.line + 1, span.finish.line + 1⟩
      | .file => .file
    reason := d.reason.map String.ofList }

/-- Whether a rule is named, by its id or by `all`. -/
def names (s : Suppression) (id : String) : Bool :=
  s.ids.contains id || s.ids.contains everyRule

end Suppression

/-- The suppressions of a document, in the order of its comments. -/
abbrev Suppressions := List Suppression

namespace Suppressions

/-- Reads the suppressions of a document. -/
def ofDocument (doc : Document) : Suppressions :=
  doc.comments.filterMap fun c =>
    (Directive.parse? c.text).map (Suppression.ofDirective · c.span)

/-- Whether a rule is silent on a line. -/
def isSuppressed (ss : Suppressions) (id : String) (line : Nat) : Bool :=
  !isReserved id && ss.any fun s => s.names id && s.reach.covers line

/-- The last reason given for an id by a suppression that `p` accepts. -/
def lastReason? (ss : Suppressions) (id : String) (p : Reach → Bool) : Option String :=
  (ss.filterMap fun s =>
    if s.ids.contains id && p s.reach then s.reason else none).getLast?

/-- Why a rule is silent on a line: what names the rule goes before what names all,
and what reaches the line goes before what reaches the file. -/
def reason? (ss : Suppressions) (id : String) (line : Nat) : Option String :=
  [id, everyRule].findSome? fun id =>
    (ss.lastReason? id fun reach => reach != .file && reach.covers line).or
      (ss.lastReason? id (· == .file))

end Suppressions

end PageLint
