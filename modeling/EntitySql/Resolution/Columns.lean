import EntitySql.Lookup
import EntitySql.Resolution.Sweep

/-!
# Resolving names to columns

The fourth pass. A name is looked up in the visible scopes and becomes a column with its type.
Wildcards stay, and so do result aliases in the clauses that admit them. A resolved name is left
alone, so the pass changes nothing the second time.
-/

namespace EntitySql

namespace Columns

/-- Whether a name is a result alias of its query, in a clause that admits these. -/
def isLabel (p : Place) (i : Identifier) : Bool :=
  i.qualifier?.isNone && p.labelled && match p.scopes with
    | facts :: _ => facts.isLabel i.value
    | [] => false

/-- The name as a column, with what it denotes. -/
def resolve (p : Place) (i : Identifier) : Except QueryError Identifier :=
  if i.isResolved || i.isWildcard || isLabel p i then .ok i
  else do
    match ← Lookup.find i.value p.scopes with
    | none => return i
    | some m => return { value := m.column, resolution := some m.resolution }

/-- The resolution of names, with the result aliases noted first. -/
def sweep : Sweep where
  opening fields facts := { facts with labels := fields.filterMap (·.label) }
  ident := resolve

end Columns

end EntitySql
