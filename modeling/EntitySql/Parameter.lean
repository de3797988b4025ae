import EntitySql.Pairs
import EntitySql.Value

/-!
# Parameters

Markers are the places of a query that take a value: `?` by position, `:name` by name. A compiled
query has one `Slot` per marker, in the order of the native placeholders, and `Bindings` are the
values a caller supplies.
-/

namespace EntitySql

/-- An anonymous marker. -/
structure Marker where
  /-- Its number among the `?` of the source text. -/
  position : Option Nat := none
  /-- The name of the marker it took the place of. -/
  replaces : Option String := none
  ty : Option FieldType := none
  nullable : Option Bool := none
  value : Option Value := none
  /-- The ordinal of its native placeholder. -/
  ordinal : Option Nat := none
  deriving DecidableEq, Repr, Inhabited

/-- A marker `:name`. -/
structure NamedMarker where
  name : String
  ty : Option FieldType := none
  deriving DecidableEq, Repr, Inhabited

/-- The anonymous marker that takes the place of a named one. -/
def Marker.replacing (m : NamedMarker) : Marker := { replaces := some m.name, ty := m.ty }

/-- What a caller names a required value by. -/
inductive ParameterKey where
  | name (name : String)
  | position (index : Nat)
  deriving DecidableEq, Repr, Inhabited

/-- A parameter of a compiled query. -/
inductive Slot where
  /-- The caller supplies the value. -/
  | required (key : ParameterKey) (ty : Option FieldType)
  /-- The value was known when the query was compiled. -/
  | fixed (value : Value) (ty : Option FieldType)
  deriving DecidableEq, Repr, Inhabited

namespace Slot

def ty : Slot → Option FieldType
  | required _ ty => ty
  | fixed _ ty => ty

def isRequired : Slot → Bool
  | required .. => true
  | fixed .. => false

end Slot

/-- Values by position and by name. -/
structure Bindings where
  positional : List Value := []
  named : List (String × Value) := []
  deriving DecidableEq, Repr, Inhabited

/-- The value bound to a key. -/
def Bindings.get? (b : Bindings) : ParameterKey → Option Value
  | .name n => Pairs.find? n b.named
  | .position i => b.positional[i]?

end EntitySql
