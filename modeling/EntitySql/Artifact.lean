import EntitySql.Conversion
import EntitySql.Facts

/-!
# Compiled queries

What a compilation yields: the SQL, its parameter slots in the order of the placeholders, the result
columns, and the statement that fetches a generated key. It is run any number of times with
different values.
-/

namespace EntitySql

/-- How a message names a parameter. -/
def ParameterKey.describe : ParameterKey → String
  | .name n => ":" ++ n
  | .position i => "at position " ++ toString i

namespace Slot

/-- The key of a slot that the caller supplies. -/
def key? : Slot → Option ParameterKey
  | required key _ => some key
  | fixed .. => none

/-- The value of a slot. -/
def bind (b : Bindings) : Slot → Except QueryError Value
  | fixed v _ => .ok v
  | required key _ =>
    match b.get? key with
    | some v => .ok v
    | none => .error (.missingParameter key.describe)

/-- One value per slot. -/
def bindAll (b : Bindings) (slots : List Slot) : Except QueryError (List Value) := slots.mapM (bind b)

/-- One value per slot, as the database takes them. All are bound before the first is converted. -/
def bindFor (d : Dialect) (b : Bindings) (slots : List Slot) : Except QueryError (List Value) := do
  let values ← bindAll b slots
  (slots.zip values).mapM fun sv => d.toDatabase sv.2 sv.1.ty

end Slot

structure Artifact where
  sql : String
  slots : List Slot := []
  /-- Result columns by output name, in select order. -/
  results : List (String × ResultColumn) := []
  /-- The statement that fetches the generated key, where the insert cannot return it. -/
  generated : Option String := none
  deriving DecidableEq, Repr, Inhabited

namespace Artifact

/-- The keys that a caller supplies, in the order of the placeholders. -/
def required (a : Artifact) : List ParameterKey := a.slots.filterMap Slot.key?

def bind (a : Artifact) (b : Bindings) : Except QueryError (List Value) := Slot.bindAll b a.slots

def bindFor (a : Artifact) (d : Dialect) (b : Bindings) : Except QueryError (List Value) :=
  Slot.bindFor d b a.slots

def resultNames (a : Artifact) : List String := Pairs.keys a.results

end Artifact

end EntitySql
