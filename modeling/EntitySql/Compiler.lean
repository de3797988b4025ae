import EntitySql.Artifact
import EntitySql.Dialect.Rendering
import EntitySql.Resolution

/-!
# Compiling queries

A compiler turns query texts and trees into compiled queries for one schema and one dialect.
-/

namespace EntitySql

structure Settings where
  /-- Keep compiled queries by their text. -/
  memoize : Bool := true
  /-- Refuse tables that are no entities. -/
  strict : Bool := false
  deriving DecidableEq, Repr, Inhabited

namespace Settings

/-- Tables have to be entities. -/
def strictTables : Settings := { strict := true }

/-- Nothing is kept. -/
def uncached : Settings := { memoize := false }

end Settings

/-- A query on its way through a compilation, as an observer sees it. -/
inductive Event where
  /-- The query is about to be resolved. -/
  | resolving (q : Query)
  /-- The query is about to be rendered. -/
  | rendering (q : Query)

def Event.text : Event → String
  | resolving q => "resolve " ++ q.text
  | rendering q => "render " ++ q.text

/-- A compilation: what an observer saw, and the outcome. -/
structure Compilation where
  events : List Event
  outcome : Except CompileError Artifact

structure Compiler where
  schema : Schema
  dialect : Dialect
  settings : Settings := {}
  deriving DecidableEq, Repr, Inhabited

namespace Compiler

variable (c : Compiler)

def naming : Naming := ⟨c.schema, c.settings.strict⟩

/-- The statement that fetches the key which an insert generates, where the dialect cannot return it.
The first returned field names the key's column. -/
def generated? : Query → Option String
  | .insert i =>
    if c.dialect.supportsReturning then none
    else do
      let table ← i.table.name?
      let key ← i.returning.head?
      let column ← key.expr.underlying?
      c.dialect.generatedKey? table column.name
  | _ => none

/-- The compiled query of a resolved one. -/
def finish (q : Query) : Except CompileError Artifact :=
  match q.render c.dialect with
  | .ok sql => .ok ⟨sql, q.facts.slots, q.facts.results, c.generated? q⟩
  | .error e => .error (.internal e)

/-- The compilation of a tree. -/
def trace (q : Query) : Compilation :=
  match q.resolve c.naming with
  | .ok resolved => ⟨[.resolving q, .rendering resolved], c.finish resolved⟩
  | .error e => ⟨[.resolving q], .error e⟩

/-- The compilation of a text. -/
def traceText (text : String) : Compilation :=
  match Query.ofText text with
  | .ok q => c.trace q
  | .error e => ⟨[], .error (.parse e)⟩

/-- The compiled form of a tree. -/
def compile (q : Query) : Except CompileError Artifact := (c.trace q).outcome

/-- The compiled form of a text. -/
def compileText (text : String) : Except CompileError Artifact := (c.traceText text).outcome

end Compiler

end EntitySql
