/-!
# Ordered maps

Maps from texts as lists of pairs, in the order of insertion. Inserting a known key keeps its place
and takes the new value.
-/

namespace EntitySql.Pairs

variable {α : Type}

/-- The value of a key. -/
def find? (key : String) : List (String × α) → Option α
  | [] => none
  | (k, v) :: rest => if k = key then some v else find? key rest

/-- The map with `key` set to `value`. -/
def insert (key : String) (value : α) : List (String × α) → List (String × α)
  | [] => [(key, value)]
  | (k, v) :: rest => if k = key then (k, value) :: rest else (k, v) :: insert key value rest

def keys (m : List (String × α)) : List String := m.map (·.1)

def contains (key : String) (m : List (String × α)) : Bool := (find? key m).isSome

/-- The map of a list of pairs, the last value of a repeated key standing at its first place. -/
def ofList (ps : List (String × α)) : List (String × α) :=
  ps.foldl (fun m p => insert p.1 p.2 m) []

end EntitySql.Pairs

