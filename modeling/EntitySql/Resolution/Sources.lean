import EntitySql.Resolution.Sweep

/-!
# Mapping tables to sources

The first pass. Every table name becomes a source of its query: the entity it denotes, the target
of a relation where it is a path in a join, or a raw table. Derived tables are left to the second
pass.
-/

namespace EntitySql

/-- What tables are looked up in, and whether unknown ones are refused. -/
structure Naming where
  schema : Schema
  strict : Bool

namespace Naming

variable (n : Naming)

/-- A relation path `source.relation`: the relation's target under an alias, by default the name of
the relation. -/
def navigate (scopes : List Facts) (path : RelationPath) (label : Option String) :
    Except QueryError (Table × Source) :=
  match scopedSource? scopes path.source with
  | none => .error (.unknownAlias path.source)
  | some source =>
    match source.entity.bind fun e => e.relation? path.relation with
    | none => .error (.unknownRelation source.name path.relation)
    | some relation =>
      match n.schema.entity? relation.target with
      | none => .error (.unknownEntity relation.target)
      | some target =>
        let label := label.getD path.relation
        .ok (.named target.table (some label), .mapped (some label) target)

/-- A plain name: an entity, or a raw table where these are allowed. -/
def plain (name : String) (label : Option String) : Except QueryError (Table × Source) :=
  match n.schema.entity? name with
  | some e => .ok (.named e.table label, .mapped label e)
  | none =>
    if n.strict then .error (.unknownTable name)
    else .ok (.named name label, .raw label name)

/-- The table and the source that a name stands for. -/
def resolve (joined : Bool) (scopes : List Facts) (name : String) (label : Option String) :
    Except QueryError (Table × Source) :=
  match RelationPath.ofName? name with
  | some path =>
    if joined then n.navigate scopes path label
    else .error (.queryConstruction
      ("relation path " ++ path.source ++ "." ++ path.relation ++ " can only be joined"))
  | none => n.plain name label

/-- The mapping of tables to sources. -/
def sweep : Sweep where
  table joined visible facts
    | .named name label => do
      let (t, s) ← n.resolve joined (facts :: visible) name label
      return (t, ← facts.addSource s)
    | t => return (t, facts)

end Naming

end EntitySql
