import EntitySql.Condition
import EntitySql.Grammar.Rules

/-!
# Assembling parts of queries

Parts of query trees from structured input. Every value becomes a positional marker, and the values
are collected in the order of the markers. An assembly that fails keeps what it collected before.
-/

namespace EntitySql

/-- An assembly, with the values collected so far. -/
abbrev Assembly := EStateM CompileError (List Value)

namespace Assembly

/-- Refuses with a cause. -/
def refuse {α : Type} (e : QueryError) : Assembly α := throw (.query e)

/-- A marker for a value. -/
def parameter (v : Value) : Assembly Expr := do
  let values ← get
  set (values ++ [v])
  return .marker { position := some values.length }

/-- One marker per value. -/
def parameters : List Value → Assembly (List Expr)
  | [] => return []
  | v :: vs => return (← parameter v) :: (← parameters vs)

/-! ## Conditions -/

/-- The operators that a condition may name. -/
def operators : List CompareOp :=
  [.eq, .notEq, .gt, .gtEq, .lt, .ltEq, .like, .contains, .oneOf, .noneOf]

/-- The property and the operator of a key without blanks at its ends. -/
def splitKey (key : String) : String × String :=
  match Text.splitAtBlank? key with
  | some (property, operator) => (property, Text.trim operator)
  | none => (key, "=")

/-- The operator that a condition names. -/
def operator? (s : String) : Option CompareOp :=
  (CompareOp.ofText? s).filter fun op => operators.contains op

/-- The list that a value is looked for in. -/
def membership (property : String) : Value → Assembly Expr
  | .array [] => refuse (.invalidInOperand property "empty list")
  | .array items =>
    if items.all Value.isScalar then return .list (← parameters items)
    else refuse (.invalidInOperand property "list items must be scalars")
  | _ => refuse (.invalidInOperand property "expected an array of values")

/-- The comparison of a property with a value. Equality with null is a test for null; no other
operator takes it. -/
def comparison (property : String) (op : CompareOp) (v : Value) : Assembly Expr := do
  let field := Expr.name property
  if op.isMembership then return .compare op field (← membership property v)
  else if v.isNull then
    match op with
    | .eq => return .compare .is field (.literal .null)
    | .notEq => return .compare .isNot field (.literal .null)
    | op => refuse (.invalidValue "null" (op.text ++ " operand"))
  else return .compare op field (← parameter v)

/-- The condition of a key and a value. -/
def condition (key : String) (v : Value) : Assembly Expr :=
  let key := Text.trim key
  let (property, operator) := splitKey key
  match operator? operator with
  | some op => comparison property op v
  | none => refuse (.invalidOperator operator key)

/-- An expression after those folded so far. -/
def attach (folded : Option Expr) (op : LogicOp) (e : Expr) : Expr :=
  match folded with
  | some left => .logic op left e
  | none => e

mutual
/-- What is folded with one more entry, and the connective for the entry after it. A connective counts for
the next entry that is no empty group, and `AND` is the connective of all others. -/
def entry (folded : Option Expr) (op : LogicOp) : Condition → Assembly (Option Expr × LogicOp)
  | .connective op => return (folded, op)
  | .field key v => return (some (attach folded op (← condition key v)), .and)
  | .raw e => return (some (attach folded op e), .and)
  | .group entries => do
    match ← fold none .and entries with
    | some e => return (some (attach folded op e), .and)
    | none => return (folded, op)
/-- The entries after those folded so far. -/
def fold (folded : Option Expr) (op : LogicOp) : List Condition → Assembly (Option Expr)
  | [] => return folded
  | c :: cs => do
    let (folded, op) ← entry folded op c
    fold folded op cs
end

/-- The expression of condition entries; none where there is nothing to test. -/
def conditions (cs : List Condition) : Assembly (Option Expr) := fold none .and cs

/-! ## Rows and assignments -/

/-- The value of a row for a column. -/
def cell (row : List (String × Value)) (column : String) : Assembly Expr :=
  match Pairs.find? column row with
  | some v => parameter v
  | none => refuse (.queryConstruction ("row has no value for column " ++ column))

/-- The values of a row in the order of the columns. -/
def cells (row : List (String × Value)) : List String → Assembly (List Expr)
  | [] => return []
  | column :: columns => return (← cell row column) :: (← cells row columns)

/-- A row that sets exactly the columns. -/
def valuesRow (columns : List String) (row : List (String × Value)) : Assembly Expr := do
  let items ← cells row columns
  if row.length = columns.length then return .list items
  else refuse (.queryConstruction "rows must all set the same columns")

def valuesRows (columns : List String) : List (List (String × Value)) → Assembly (List Expr)
  | [] => return []
  | row :: rows => return (← valuesRow columns row) :: (← valuesRows columns rows)

def assignments : List (String × Value) → Assembly (List Assignment)
  | [] => return []
  | (property, v) :: vs => return ⟨.name property, ← parameter v⟩ :: (← assignments vs)

/-! ## Parts written as text -/

/-- A result that may fail on a text, as an assembly. -/
def ofParse {α : Type} : Except ParseError α → Assembly α
  | .ok a => return a
  | .error e => throw (.parse e)

/-- Result fields such as `name` and `COUNT(*) AS total`. -/
def resultFields : List String → Assembly (List ResultField)
  | [] => return []
  | text :: texts =>
    return (← ofParse (Parse.detached Grammar.field text)) :: (← resultFields texts)

/-- An order item such as `name DESC`. -/
def order (text : String) : Assembly OrderItem := ofParse (Parse.detached Grammar.order text)

def orders : List String → Assembly (List OrderItem)
  | [] => return []
  | text :: texts => return (← order text) :: (← orders texts)

end Assembly

/-- A row count; one that no integer holds becomes the largest that does. -/
def Expr.rowCount (n : Nat) : Expr := .literal (.int (min n 0x7fffffffffffffff : Nat))

end EntitySql
