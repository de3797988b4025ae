import EntitySql.Entity

/-!
# Schemas

The entities known to a compilation. A name written in a query is looked up as an entity's name
first and as a table second; the latest registration of a name counts.
-/

namespace EntitySql

/-- Registered entities, the latest first. -/
structure Schema where
  entities : List Entity := []
  deriving DecidableEq, Repr, Inhabited

namespace Schema

def register (s : Schema) (e : Entity) : Schema := ⟨e :: s.entities⟩

/-- The schema after registering the entities in turn. -/
def ofList (es : List Entity) : Schema := es.foldl register {}

/-- The latest entity of that name. -/
def named? (s : Schema) (name : String) : Option Entity :=
  s.entities.find? fun e => e.name == name

/-- The entity that a name in a query denotes: one of that name, else the one to which the table of
that name was given last. -/
def entity? (s : Schema) (name : String) : Option Entity :=
  match s.named? name with
  | some e => some e
  | none =>
    match s.entities.find? fun e => e.table == name with
    | some e => s.named? e.name
    | none => none

/-- The names of the registered entities, sorted. -/
def names (s : Schema) : List String :=
  ((s.entities.map (·.name)).eraseDups).mergeSort fun a b => decide (a ≤ b)

/-- The number of relations that the registrations declare. -/
def relationCount (s : Schema) : Nat :=
  s.entities.foldl (fun n e => n + e.relations.length) 0

/-- The filters of the relations that the registrations declare. -/
def filters (s : Schema) : List String :=
  s.entities.flatMap fun e => e.relations.filterMap fun r => r.2.filter

end Schema

end EntitySql
