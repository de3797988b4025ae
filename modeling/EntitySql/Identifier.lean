import EntitySql.FieldType
import EntitySql.Text.Dotted

/-!
# Identifiers

A name in a query, plain or dotted, and what it was resolved to. `*` and `alias.*` are wildcards.
-/

namespace EntitySql

/-- What an identifier denotes once it is resolved. -/
structure Resolution where
  ty : FieldType
  nullable : Bool
  /-- The entity that declares the property. -/
  entity : Option String := none
  /-- The property as it was written, before its column took its place. -/
  property : Option String := none
  deriving DecidableEq, Repr, Inhabited

structure Identifier where
  value : String
  resolution : Option Resolution := none
  deriving DecidableEq, Repr, Inhabited

namespace Identifier

def isResolved (i : Identifier) : Bool := i.resolution.isSome

/-- The identifier with what it denotes; the first resolution stays. -/
def resolve (i : Identifier) (r : Resolution) : Identifier :=
  match i.resolution with
  | some _ => i
  | none => { i with resolution := some r }

def isWildcard (i : Identifier) : Bool :=
  i.value == "*" || match i.value.toList.reverse with
    | '*' :: '.' :: _ => true
    | _ => false

/-- The last segment: `name` for `u.name`. -/
def name (i : Identifier) : String := Text.lastSegment i.value

/-- Everything before the last segment: `u` for `u.name`. -/
def qualifier? (i : Identifier) : Option String := Text.qualifier? i.value

end Identifier

end EntitySql
