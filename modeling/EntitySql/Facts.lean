import EntitySql.Parameter
import EntitySql.Schema

/-!
# Facts about a query

What resolution notes on a query: the sources it reads from, its result columns, its parameter
slots, the values known at compile time and its result aliases.

* `Sources.register` keeps sources apart by key: the alias; without one, the empty key for the first
  source and the table for later ones.
-/

namespace EntitySql

/-- A table a query reads from: a mapped entity, a derived table, or a raw table of which nothing is
known. -/
structure Source where
  label : Option String
  /-- The entity's name; the table for raw and derived sources. -/
  name : String
  table : String
  entity : Option Entity := none
  /-- The properties; `none` for a raw table. -/
  properties : Option (List (String × Property)) := none
  deriving DecidableEq, Repr, Inhabited

namespace Source

def mapped (label : Option String) (e : Entity) : Source :=
  { label, name := e.name, table := e.table, entity := some e, properties := some e.properties }

def raw (label : Option String) (table : String) : Source := { label, name := table, table }

def derived (label : String) (properties : List (String × Property)) : Source :=
  { label := some label, name := label, table := label, properties := some properties }

/-- The name that qualifies the source's columns in SQL. -/
def qualifier (s : Source) : String := s.label.getD s.table

def isRaw (s : Source) : Bool := s.properties.isNone

/-- Whether a qualifier in a query means this source. An alias hides table and name. -/
def answersTo (s : Source) (qualifier : String) : Bool :=
  match s.label with
  | some label => label == qualifier
  | none => s.table == qualifier || s.name == qualifier

def property? (s : Source) (name : String) : Option Property :=
  match s.properties with
  | some ps => Pairs.find? name ps
  | none => none

end Source

/-- The sources of one query with their keys, in order of registration. -/
structure Sources where
  entries : List (Option String × Source) := []
  deriving DecidableEq, Repr, Inhabited

namespace Sources

def toList (m : Sources) : List Source := m.entries.map (·.2)

def hasKey (m : Sources) (key : Option String) : Bool := m.entries.any fun e => e.1 == key

/-- The key under which a source is registered. -/
def keyOf (m : Sources) (s : Source) : Option String :=
  match s.label with
  | some label => some label
  | none => if m.hasKey none then some s.table else none

/-- The sources with one more; a taken key is refused. -/
def register (m : Sources) (s : Source) : Except QueryError Sources :=
  let key := m.keyOf s
  if m.hasKey key then .error (.duplicateAlias s.qualifier) else .ok ⟨m.entries ++ [(key, s)]⟩

/-- The first source that answers to a qualifier. -/
def byQualifier? (m : Sources) (qualifier : String) : Option Source :=
  m.toList.find? fun s => s.answersTo qualifier

def size (m : Sources) : Nat := m.entries.length

def isEmpty (m : Sources) : Bool := m.entries.isEmpty

def hasRaw (m : Sources) : Bool := m.toList.any Source.isRaw

end Sources

/-- A column of the result. -/
structure ResultColumn where
  /-- The label that the database returns. -/
  column : String
  ty : Option FieldType
  nullable : Bool
  /-- `Entity.property` it was read from. -/
  source : Option String
  deriving DecidableEq, Repr, Inhabited

/-- What is known of one query. -/
structure Facts where
  sources : Sources := {}
  /-- Result columns by output name, in select order. -/
  results : List (String × ResultColumn) := []
  /-- Slots in the order of the native placeholders; only on the outermost query. -/
  slots : List Slot := []
  /-- Values that markers of this query take when it is compiled. -/
  literals : Option Bindings := none
  /-- Explicit result aliases. -/
  labels : List String := []
  deriving DecidableEq, Repr, Inhabited

namespace Facts

/-- The facts with one more source. -/
def addSource (f : Facts) (s : Source) : Except QueryError Facts :=
  match f.sources.register s with
  | .ok sources => .ok { f with sources }
  | .error e => .error e

/-- The facts with one more result column; an output name is used once. -/
def addResult (f : Facts) (name : String) (column : ResultColumn) : Except QueryError Facts :=
  if Pairs.contains name f.results then .error (.duplicateResultAlias name)
  else .ok { f with results := f.results ++ [(name, column)] }

def isLabel (f : Facts) (name : String) : Bool := f.labels.contains name

end Facts

/-- The source that a qualifier means in the innermost of the scopes that has one. -/
def scopedSource? (scopes : List Facts) (qualifier : String) : Option Source :=
  scopes.findSome? fun f => f.sources.byQualifier? qualifier

end EntitySql
