import EntitySql.Calendar.Reading
import EntitySql.Dialect
import EntitySql.Error
import EntitySql.Value.Text

/-!
# Converting values

Values on their way to the database and back. Booleans, dates and times are accepted in several
spellings and given one; all other values pass through, and so does null.
-/

namespace EntitySql

namespace Conversion

/-- What `read` makes of a text; all else is refused. -/
def ofString {α : Type} (target : String) (read : String → Option α) (v : Value) :
    Except QueryError α :=
  match v with
  | .string s =>
    match read s with
    | some a => .ok a
    | none => .error (.invalidValue v.text target)
  | _ => .error (.invalidValue v.text target)

/-- A boolean: itself, 0 or 1, or a word for it. -/
def bool (v : Value) : Except QueryError Bool :=
  match v with
  | .bool b => .ok b
  | .int 0 => .ok false
  | .int 1 => .ok true
  | v => ofString "bool" word? v
where
  word? (s : String) : Option Bool :=
    match Text.lower s with
    | "true" | "t" | "1" => some true
    | "false" | "f" | "0" => some false
    | _ => none

def date : Value → Except QueryError Date := ofString "date" Date.ofText?

def clock : Value → Except QueryError Clock := ofString "time" Clock.ofText?

def stamp : Value → Except QueryError Stamp := ofString "datetime" Stamp.ofText?

end Conversion

namespace Dialect

/-- The pattern of date and time in a dialect. -/
def stampPattern : Dialect → String
  | postgres => "%Y-%m-%d %H:%M:%S%.f"
  | _ => "%Y-%m-%d %H:%M:%S"

/-- Date and time as the dialect takes them. -/
def stampText : Dialect → Stamp → String
  | postgres, s => s.text
  | _, s => s.wholeText " "

/-- A boolean as the dialect takes it. -/
def boolValue : Dialect → Bool → Value
  | mysql, b => .int (if b then 1 else 0)
  | _, b => .bool b

/-- The value that the database takes for a parameter of a type. -/
def toDatabase (d : Dialect) (v : Value) (ty : Option FieldType) : Except QueryError Value :=
  if v.isNull then .ok .null
  else match ty with
    | some .bool => return d.boolValue (← Conversion.bool v)
    | some .date => return .string (← Conversion.date v).text
    | some .time => return .string (← Conversion.clock v).wholeText
    | some .dateTime => return .string (d.stampText (← Conversion.stamp v))
    | _ => .ok v

end Dialect

/-- The portable form of a value that a column of a type gave. -/
def Value.fromDatabase (v : Value) (ty : FieldType) : Except QueryError Value :=
  if v.isNull then .ok .null
  else match ty with
    | .bool => return .bool (← Conversion.bool v)
    | .date => return .string (← Conversion.date v).text
    | .time => return .string (← Conversion.clock v).wholeText
    | .dateTime => return .string ((← Conversion.stamp v).wholeText "T")
    | _ => .ok v

end EntitySql
