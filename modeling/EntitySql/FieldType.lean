/-!
# Field types

The coarse logical type of a property, a result column or a parameter slot: enough to choose the
conversion of a bound value and to describe a result column.
-/

namespace EntitySql

inductive FieldType where
  /-- The type of the literal `NULL`; no property declares it. -/
  | null
  | bool
  | int
  | float
  | string
  | date
  | time
  | dateTime
  /-- A structured value. -/
  | json
  deriving DecidableEq, Repr, Inhabited

namespace FieldType

/-- The name of a type in data. -/
def name : FieldType → String
  | null => "Null"
  | bool => "Bool"
  | int => "Int"
  | float => "Float"
  | string => "String"
  | date => "Date"
  | time => "Time"
  | dateTime => "DateTime"
  | json => "Json"

def all : List FieldType := [null, bool, int, float, string, date, time, dateTime, json]

/-- The type of a given name. -/
def ofName? (s : String) : Option FieldType := all.find? fun t => t.name == s

/-- The common type of two operands: `int` and `float` meet in `float`, `null` yields to the other
side, and else the left one wins. -/
def promote : FieldType → FieldType → FieldType
  | int, float => float
  | null, t => t
  | t, _ => t

def isTemporal : FieldType → Bool
  | date | time | dateTime => true
  | _ => false

theorem ofName?_name (t : FieldType) : ofName? t.name = some t := by
  cases t <;> decide

end FieldType

end EntitySql
