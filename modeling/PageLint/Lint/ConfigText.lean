/-
# PageLint.Lint.ConfigText — configurations as texts

Reads a configuration from JSON or YAML. Fields that are missing take their
defaults and unknown ones are passed over; every field has one type and no other
will do. A severity in JSON may also be an object whose only member it names, with
the value null.
-/
import PageLint.Json.Reader
import PageLint.Lint.Config
import PageLint.Yaml.Reader

namespace PageLint

set_option autoImplicit false

open Data (Value)

/-- The languages of configuration texts. -/
inductive ConfigFormat where
  | json
  | yaml
  deriving DecidableEq, Repr

namespace Config

/-- A severity as a configuration spells it. -/
def severityOf? (format : ConfigFormat) (v : Value) : Option Severity := do
  let word ←
    match format, v with
    | .json, .map [(key, .scalar s)] => if s.isNull then key.text? else none
    | _, v => v.text?
  if word = Severity.warning.word then some .warning
  else if word = Severity.error.word then some .error
  else none

/-- A field, or what stands for it if it is missing. -/
def field? {α : Type} (fields : List (String × Value)) (name : String) (missing : α)
    (read : Value → Option α) : Option α :=
  match fields.lookup name with
  | none => some missing
  | some v => read v

/-- Names of rules, in any order. -/
def idsOf? (v : Value) : Option (List String) := do
  let ids ← (← v.list?).mapM Value.text?
  some (ids.foldl (fun all id => insertId id all) [])

/-- Severities by rule; of several for one rule the last counts. -/
def severitiesOf? (format : ConfigFormat) (v : Value) : Option (List (String × Severity)) := do
  let entries ← (← v.entries?).mapM fun (id, s) => (severityOf? format s).map (id, ·)
  some (entries.foldl (fun all (id, s) => insertEntry id s all) [])

/-- How files are shared among workers. -/
def engineOf? (v : Value) : Option EngineSettings := do
  let fields ← v.fields? ["parallel", "jobs"]
  let missing : EngineSettings := {}
  let parallel ← field? fields "parallel" missing.parallel Value.truth?
  let jobs ← field? fields "jobs" missing.jobs Value.word?
  some { parallel, jobs }

/-- A configuration. -/
def ofValue? (format : ConfigFormat) (v : Value) : Option Config := do
  let fields ← v.fields? ["enabled_rules", "severity_overrides", "engine"]
  let enabled ← field? fields "enabled_rules" default.enabled idsOf?
  let severities ← field? fields "severity_overrides" default.severities (severitiesOf? format)
  let engine ← field? fields "engine" default.engine engineOf?
  some { enabled, severities, engine }

/-- Reads a text. -/
def ofText? (format : ConfigFormat) (cs : List Char) : Option Config := do
  let value ←
    match format with
    | .json => Json.read? cs
    | .yaml => Yaml.read? cs
  ofValue? format value

end Config

end PageLint
