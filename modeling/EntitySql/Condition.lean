import EntitySql.Query.Tree
import EntitySql.Text.Reader
import EntitySql.Value.Text

/-!
# Condition maps

Restrictions as ordered entries: a property with a value, a group, an expression, or the connective
between two entries. They are also read from an object, where a key that is a number stands for a
group or a connective and any other key for a property.
-/

namespace EntitySql

inductive Condition where
  /-- `property [operator]` with a value; the operator is `=` where there is none. -/
  | field (key : String) (value : Value)
  /-- Entries in parentheses. -/
  | group (entries : List Condition)
  /-- An expression taken as it is. -/
  | raw (e : Expr)
  /-- The connective between the entry before and the entry after. -/
  | connective (op : LogicOp)

namespace Condition

/-- The connective that a text names. -/
def connective? (s : String) : Option LogicOp :=
  match Text.lower s with
  | "and" => some .and
  | "or" => some .or
  | _ => none

/-- A key that is a number of 64 bits, perhaps after a plus. -/
def isPosition (key : String) : Bool :=
  let ds := match key.toList with
    | '+' :: ds => ds
    | ds => ds
  !ds.isEmpty && ds.all Char.isDigit && Text.natOfDigits ds < 0x10000000000000000

mutual
/-- The entry under a key that is a number. -/
def positional (key : String) : Value → Except QueryError Condition
  | .object members => return .group (← ofMembers members)
  | .array items => return .group (← ofItems key items)
  | .string s =>
    match connective? s with
    | some op => return .connective op
    | none => .error (.queryConstruction ("unknown connective \x27" ++ s ++ "\x27 at key " ++ key))
  | v => .error (.queryConstruction ("unexpected " ++ v.text ++ " at key " ++ key))
/-- The entries of an array, each under the key of the array. -/
def ofItems (key : String) : List Value → Except QueryError (List Condition)
  | [] => return []
  | v :: vs => return (← positional key v) :: (← ofItems key vs)
/-- The entries of an object. -/
def ofMembers : List (String × Value) → Except QueryError (List Condition)
  | [] => return []
  | (key, v) :: ms => do
    let entry ← if isPosition key then positional key v else pure (.field key v)
    return entry :: (← ofMembers ms)
end

/-- The entries of a value, which has to be an object. -/
def ofValue : Value → Except QueryError (List Condition)
  | .object members => ofMembers members
  | v => .error (.queryConstruction ("conditions must be an object, got " ++ v.text))

end Condition

end EntitySql
