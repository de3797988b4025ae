import EntitySql.Assembly

/-!
# Drafts

A statement over one entity, collected request by request and then built into a query tree with the
values of its positional markers. Each statement refuses some kinds of requests.
-/

namespace EntitySql

inductive Statement where
  | select
  | insert
  | update
  | delete
  deriving DecidableEq, Repr, Inhabited

def Statement.keyword : Statement → String
  | select => "SELECT"
  | insert => "INSERT"
  | update => "UPDATE"
  | delete => "DELETE"

/-- A requested join: along a relation, or with a condition written as text. -/
structure DraftJoin where
  kind : JoinKind
  /-- A relation path, or a table where there is a condition. -/
  target : String
  label : Option String := none
  condition : Option String := none
  deriving DecidableEq, Repr, Inhabited

structure Draft where
  statement : Statement
  entity : String
  label : Option String := none
  distinct : Bool := false
  fields : List String := []
  joins : List DraftJoin := []
  filters : List (List Condition) := []
  ordering : List String := []
  limit : Option Nat := none
  offset : Option Nat := none
  rows : List (List (String × Value)) := []
  assignments : List (String × Value) := []
  returning : List String := []

/-- A query and the values of its positional markers. -/
structure Built where
  query : Query
  arguments : List Value

namespace Draft

variable (d : Draft)

/-! ## Requests -/

/-- Further result fields; without any, all properties are selected. -/
def addFields (fields : List String) : Draft := { d with fields := d.fields ++ fields }

def addJoin (j : DraftJoin) : Draft := { d with joins := d.joins ++ [j] }

/-- A further restriction. -/
def addFilter (cs : List Condition) : Draft := { d with filters := d.filters ++ [cs] }

def addOrder (text : String) : Draft := { d with ordering := d.ordering ++ [text] }

def addRow (row : List (String × Value)) : Draft := { d with rows := d.rows ++ [row] }

/-- The value for a property, in place of an earlier one. -/
def assign (property : String) (v : Value) : Draft :=
  { d with assignments := Pairs.insert property v d.assignments }

def addReturning (fields : List String) : Draft := { d with returning := d.returning ++ fields }

/-! ## Building -/

/-- Refuses requests that the statement does not take. -/
def reject (present : Bool) (what : String) : Assembly Unit :=
  if present then
    Assembly.refuse (.queryConstruction (d.statement.keyword ++ " does not take " ++ what))
  else return ()

def table : Table := .named d.entity d.label

/-- All fields of the entity. -/
def wildcard : ResultField :=
  ⟨.name (match d.label with
    | some label => label ++ ".*"
    | none => "*"), none⟩

/-- The selected fields. -/
def selected : Assembly (List ResultField) :=
  if d.fields.isEmpty then return [d.wildcard] else Assembly.resultFields d.fields

/-- The expressions of the filters that test something. -/
def restrictions : List (List Condition) → Assembly (List Expr)
  | [] => return []
  | cs :: filters => do
    match ← Assembly.conditions cs with
    | some e => return e :: (← restrictions filters)
    | none => restrictions filters

/-- The conjunction of the filters. -/
def criteria : Assembly (Option Expr) := return Expr.joinAll .and (← restrictions d.filters)

/-- A join in the tree. -/
def join (j : DraftJoin) : Assembly Join := do
  let table : Table := .named j.target j.label
  match j.condition with
  | some text =>
    let condition ← Assembly.ofParse (Expr.ofDetached text)
    return ⟨j.kind, table, some condition, none⟩
  | none =>
    match RelationPath.ofName? j.target with
    | some path => return ⟨j.kind, table, none, some path⟩
    | none => Assembly.refuse (.queryConstruction
        ("join on " ++ j.target ++ " needs a relation path or a condition"))

def joinAll : List DraftJoin → Assembly (List Join)
  | [] => return []
  | j :: js => return (← join j) :: (← joinAll js)

def select : Assembly Select := do
  d.reject (!d.rows.isEmpty || !d.assignments.isEmpty) "values"
  let fields ← d.selected
  let joins ← joinAll d.joins
  let criteria ← d.criteria
  let ordering ← Assembly.orders d.ordering
  return { distinct := d.distinct, fields, source := some d.table, joins, criteria, grouping := []
           having := none, ordering, limit := d.limit.map Expr.rowCount
           offset := d.offset.map Expr.rowCount, unions := [], facts := {} }

def insert : Assembly Insert := do
  d.reject (!d.filters.isEmpty || !d.joins.isEmpty) "conditions or joins"
  d.reject (!d.ordering.isEmpty || d.limit.isSome || d.offset.isSome) "ORDER BY, LIMIT or OFFSET"
  match d.rows with
  | [] => Assembly.refuse (.queryConstruction "INSERT needs at least one row")
  | first :: _ =>
    let columns := Pairs.keys first
    let rows ← Assembly.valuesRows columns d.rows
    let returning ← Assembly.resultFields d.returning
    return { table := d.table, columns := columns.map Expr.name, source := .values rows, returning }

def update : Assembly Update := do
  d.reject (!d.rows.isEmpty || !d.returning.isEmpty) "rows or RETURNING"
  if d.assignments.isEmpty then
    Assembly.refuse (.queryConstruction "UPDATE needs at least one assignment")
  let assignments ← Assembly.assignments d.assignments
  let criteria ← d.criteria
  let ordering ← Assembly.orders d.ordering
  return { table := d.table, assignments, criteria, ordering, limit := d.limit.map Expr.rowCount
           offset := d.offset.map Expr.rowCount }

def delete : Assembly Delete := do
  d.reject (!d.rows.isEmpty || !d.assignments.isEmpty) "values"
  let criteria ← d.criteria
  let ordering ← Assembly.orders d.ordering
  return { table := d.table, criteria, ordering, limit := d.limit.map Expr.rowCount
           offset := d.offset.map Expr.rowCount }

/-- The tree of the statement. -/
def query : Assembly Query :=
  match d.statement with
  | .select => .select <$> d.select
  | .insert => .insert <$> d.insert
  | .update => .update <$> d.update
  | .delete => .delete <$> d.delete

/-- The query with the values of its markers. -/
def build : Except CompileError Built :=
  match d.query.run [] with
  | .ok query arguments => .ok ⟨query, arguments⟩
  | .error e _ => .error e

end Draft

/-- The values of a built query's markers, by position. -/
def Built.bindings (b : Built) : Bindings := { positional := b.arguments }

end EntitySql
