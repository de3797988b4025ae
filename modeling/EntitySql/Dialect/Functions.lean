import EntitySql.Pairs
import EntitySql.Text.Letter

/-!
# Function names of a dialect

A table from portable function names, in any case of letters, to the names of a dialect. An entry may
be bound to one number of arguments; calls without a matching entry are written as they are.
-/

namespace EntitySql

/-- A function of a dialect. -/
structure NativeFunction where
  name : String
  /-- The number of arguments it takes; any, where there is none. -/
  arity : Option Nat
  deriving DecidableEq, Repr, Inhabited

/-- Native functions by portable name in small letters. -/
structure FunctionTable where
  entries : List (String × NativeFunction) := []
  deriving DecidableEq, Repr, Inhabited

namespace FunctionTable

/-- The table with one more entry, in place of the earlier one of that name. -/
def register (t : FunctionTable) (portable native : String) (arity : Option Nat) : FunctionTable :=
  ⟨Pairs.insert (Text.lower portable) ⟨native, arity⟩ t.entries⟩

def get? (t : FunctionTable) (name : String) : Option NativeFunction :=
  Pairs.find? (Text.lower name) t.entries

/-- The native name for a call with that many arguments. -/
def native? (t : FunctionTable) (name : String) (args : Nat) : Option String :=
  match t.get? name with
  | some f => if f.arity.all (· == args) then some f.name else none
  | none => none

/-- The portable names, sorted. -/
def names (t : FunctionTable) : List String :=
  (Pairs.keys t.entries).mergeSort fun a b => decide (a ≤ b)

/-- The aggregates and text functions that all dialects spell alike. -/
def standard : FunctionTable :=
  FunctionTable.mk []
    |>.register "count" "COUNT" (some 1)
    |>.register "sum" "SUM" (some 1)
    |>.register "avg" "AVG" (some 1)
    |>.register "min" "MIN" (some 1)
    |>.register "max" "MAX" (some 1)
    |>.register "upper" "UPPER" (some 1)
    |>.register "lower" "LOWER" (some 1)
    |>.register "trim" "TRIM" (some 1)
    |>.register "abs" "ABS" (some 1)
    |>.register "coalesce" "COALESCE" none

end FunctionTable

end EntitySql
