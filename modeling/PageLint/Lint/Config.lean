/-
# PageLint.Lint.Config — which rules run, and how gravely

A configuration names the rules that run, the severities that stand in for those of
the rules, and how files are shared among workers. Names are kept in ascending
order, each once.
-/
import PageLint.Lint.StyleGuide

namespace PageLint

set_option autoImplicit false

/-- How files are shared among workers; no number of jobs means as many as there
are processors. -/
structure EngineSettings where
  parallel : Bool := true
  jobs : Nat := 0
  deriving DecidableEq, Repr

/-- A configuration. -/
structure Config where
  /-- The rules that run, in ascending order. -/
  enabled : List String
  /-- Severities by rule, in ascending order of the rules. -/
  severities : List (String × Severity) := []
  engine : EngineSettings := {}
  deriving DecidableEq, Repr

/-- Adds a name to an ascending list, if it is not there. -/
def insertId (id : String) : List String → List String
  | [] => [id]
  | a :: as => if id < a then id :: a :: as else if id = a then a :: as else a :: insertId id as

/-- Sets the value of a name in a list that ascends by names. -/
def insertEntry {α : Type} (id : String) (value : α) : List (String × α) → List (String × α)
  | [] => [(id, value)]
  | a :: as =>
    if id < a.1 then (id, value) :: a :: as
    else if id = a.1 then (id, value) :: as
    else a :: insertEntry id value as

namespace Config

/-- The configuration under which just the given rules run. -/
def only (ids : List String) : Config := { enabled := ids.foldr insertId [] }

/-- The rules of a catalog that are part of the recommended set. -/
def recommended (c : Catalog) : Config := only ((c.rules.filter (·.recommended)).map Rule.id)

/-- All rules of a catalog. -/
def all (c : Catalog) : Config := only c.ids

/-- The configuration for want of another: the style guide as recommended. -/
def default : Config := recommended StyleGuide.catalog

/-- Lets a rule run. -/
def enable (c : Config) (id : String) : Config := { c with enabled := insertId id c.enabled }

/-- Keeps a rule from running. -/
def disable (c : Config) (id : String) : Config := { c with enabled := c.enabled.filter (· != id) }

/-- Sets the severity of a rule. -/
def withSeverity (c : Config) (id : String) (s : Severity) : Config :=
  { c with severities := insertEntry id s c.severities }

/-- Sets how files are shared. -/
def withEngine (c : Config) (engine : EngineSettings) : Config := { c with engine }

/-- Whether a rule runs. -/
def isEnabled (c : Config) (id : String) : Bool := c.enabled.contains id

/-- The severity set for a rule. -/
def severity? (c : Config) (id : String) : Option Severity := c.severities.lookup id

/-- Names in a configuration that no rule of the catalog bears. -/
structure UnknownRules where
  ids : List String
  deriving DecidableEq, Repr

/-- What the author of a configuration is told. -/
def UnknownRules.message (u : UnknownRules) : String :=
  "Invalid configuration: unknown rule id(s): " ++ ", ".intercalate u.ids

/-- Checks that every name is that of a rule. -/
def validate (c : Config) (catalog : Catalog) : Except UnknownRules Unit :=
  match (c.enabled ++ c.severities.map Prod.fst).filter fun id => (catalog.get? id).isNone with
  | [] => .ok ()
  | unknown => .error ⟨unknown⟩

end Config

end PageLint
