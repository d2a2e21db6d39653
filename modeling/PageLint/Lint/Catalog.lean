/-
# PageLint.Lint.Catalog — sets of rules

A catalog holds rules in order, no two of one id and none of a reserved id. Both
are part of the type: `add` refuses a rule that would break them and says why.
-/
import PageLint.Lint.Rule
import PageLint.Lint.Suppression

namespace PageLint

set_option autoImplicit false

/-- Why a rule cannot be added. -/
inductive CatalogError where
  | duplicate (id : String)
  | reserved (id : String)
  deriving DecidableEq, Repr

/-- What the author of a rule is told. -/
def CatalogError.message : CatalogError → String
  | duplicate id => "duplicate rule id: " ++ id
  | reserved id => "rule id '" ++ id ++ "' is reserved"

/-- Rules of different ids, in order. -/
structure Catalog where
  rules : List Rule
  distinct : (rules.map Rule.id).Nodup
  unreserved : ∀ r ∈ rules, isReserved r.id = false

namespace Catalog

/-- A catalog of no rules. -/
def empty : Catalog := ⟨[], by simp, by simp⟩

/-- The ids, in the order of the rules. -/
def ids (c : Catalog) : List String := c.rules.map Rule.id

/-- The rule of an id. -/
def get? (c : Catalog) (id : String) : Option Rule := c.rules.find? (·.id == id)

/-- Adds a rule at the end. -/
def add (c : Catalog) (r : Rule) : Except CatalogError Catalog :=
  if reserved : isReserved r.id = true then .error (.reserved r.id)
  else if known : r.id ∈ c.ids then .error (.duplicate r.id)
  else
    .ok
      { rules := c.rules ++ [r]
        distinct := by
          rw [List.map_append, List.nodup_append]
          refine ⟨c.distinct, by simp, ?_⟩
          intro a ha b hb same
          simp only [List.map_cons, List.map_nil, List.mem_singleton] at hb
          exact known (hb ▸ same ▸ ha)
        unreserved := by
          intro s hs
          rcases List.mem_append.mp hs with old | new
          · exact c.unreserved s old
          · rw [List.mem_singleton] at new
            subst new
            simpa using reserved }

/-- Adds rules in order, up to the first that cannot be added. -/
def addAll (c : Catalog) (rules : List Rule) : Except CatalogError Catalog :=
  rules.foldlM add c

/-- The catalog of some rules. -/
def ofRules (rules : List Rule) : Except CatalogError Catalog := empty.addAll rules

end Catalog

end PageLint
