import EntitySql.Resolution.Columns
import EntitySql.Resolution.Derived
import EntitySql.Resolution.Joins
import EntitySql.Resolution.Parameters
import EntitySql.Resolution.Results
import EntitySql.Resolution.Sources

/-!
# Resolution

A query becomes one that can be written as SQL by six passes, each over the whole query and each
relying on what the earlier ones noted.
-/

namespace EntitySql

/-- A pass of the resolution. -/
inductive Pass where
  | sources
  | derived
  | joins
  | columns
  | results
  | parameters
  deriving DecidableEq, Repr, Inhabited

namespace Pass

def name : Pass → String
  | sources => "entity"
  | derived => "subquery"
  | joins => "join"
  | columns => "identifier"
  | results => "result"
  | parameters => "parameter"

/-- The passes in their order. -/
def all : List Pass := [sources, derived, joins, columns, results, parameters]

/-- The query after one pass. -/
def run (naming : Naming) : Pass → Query → Except CompileError Query
  | sources, q => QueryError.lift (naming.sweep.query q)
  | derived, q => QueryError.lift (Derived.sweep.query q)
  | joins, q => Joins.query naming.schema q
  | columns, q => QueryError.lift (Columns.sweep.query q)
  | results, q => QueryError.lift (Results.query q)
  | parameters, q => QueryError.lift (Parameters.query q)

/-- The query after each pass in turn, up to the first that fails. -/
def trace (naming : Naming) : List Pass → Query → List (Pass × Except CompileError Query)
  | [], _ => []
  | p :: ps, q =>
    match p.run naming q with
    | .ok q' => (p, .ok q') :: trace naming ps q'
    | .error e => [(p, .error e)]

end Pass

/-- The resolved query. -/
def Query.resolve (naming : Naming) (q : Query) : Except CompileError Query :=
  Pass.all.foldlM (fun q p => p.run naming q) q

end EntitySql
