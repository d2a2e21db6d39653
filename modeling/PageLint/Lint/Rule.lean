/-
# PageLint.Lint.Rule — rules and what they find

A rule is a function from a subject of a document to findings. It may fail on a
subject, with a reason; what it would have found there is then lost. Its message is
a template with named slots in braces, which a finding fills (`fillTemplate`).
-/
import PageLint.Lint.Diagnostic
import PageLint.Lint.Document

namespace PageLint

set_option autoImplicit false

open Text

/-- Slots of a template with the texts that fill them. -/
abbrev Slots := List (String × List Char)

/-- Fills the slots of a template, one name after the other: each occurrence of the
name in braces, in what the ones before have left. -/
def fillTemplate (template : List Char) (slots : Slots) : List Char :=
  slots.foldl (fun text (name, value) => replace ('\x7b' :: name.toList ++ ['\x7d']) value text)
    template

/-- The message of a finding: the rule's template, filled, or one of its own. -/
inductive Wording where
  | template (slots : Slots)
  | own (message : String)
  deriving DecidableEq, Repr

/-- What a rule finds in a subject. -/
structure Finding where
  span : Span
  wording : Wording
  fix : Option Fix
  deriving DecidableEq, Repr

namespace Finding

/-- A finding that fills the rule's template. -/
def filled (span : Span) (slots : Slots := []) : Finding := ⟨span, .template slots, none⟩

/-- A finding with a message of its own. -/
def saying (span : Span) (message : String) : Finding := ⟨span, .own message, none⟩

/-- The finding with a fix. -/
def suggest (f : Finding) (description : String) (replacement : List Char) : Finding :=
  { f with fix := some ⟨description, String.ofList replacement⟩ }

end Finding

/-- What a rule looks for: all that it finds in a subject, or why it failed. -/
abbrev Check := Document → Subject → Except String (List Finding)

/-- A rule of a style guide. -/
structure Rule where
  id : String
  /-- Its message, with slots in braces. -/
  message : String
  check : Check
  targets : List Target := []
  description : Option String := none
  severity : Severity := .warning
  /-- The languages of the subjects that it looks at. -/
  languages : List Language := [.html, .css]
  /-- Whether it is part of the recommended set. -/
  recommended : Bool := true

/-- The language of a kind of subject; a source has that of its document. -/
def Target.language? : Target → Option Language
  | .source => none
  | .htmlElement | .htmlText | .htmlComment | .htmlDoctype => some .html
  | .cssRuleList | .cssStyleRule | .cssAtRule | .cssBlock | .cssDeclaration | .cssComment =>
    some .css

namespace Rule

/-- Whether the rule looks at a kind of subject in a document of a language. -/
def appliesTo (r : Rule) (target : Target) (language : Language) : Bool :=
  r.targets.contains target && r.languages.contains (target.language?.getD language)

/-- The message of a finding of the rule. -/
def messageOf (r : Rule) (f : Finding) : String :=
  match f.wording with
  | .template slots => String.ofList (fillTemplate r.message.toList slots)
  | .own message => message

/-- A finding of the rule in a file. -/
def diagnostic (r : Rule) (severity : Severity) (file : Path) (f : Finding) : Diagnostic :=
  { ruleId := r.id, severity, message := r.messageOf f, file, span := f.span, fix := f.fix }

end Rule

/-- A check that does not fail. -/
def Check.total (find : Document → Subject → List Finding) : Check :=
  fun doc subject => .ok (find doc subject)

end PageLint
