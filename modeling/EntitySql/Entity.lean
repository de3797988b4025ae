import EntitySql.Error
import EntitySql.FieldType
import EntitySql.Pairs

/-!
# Entities

What the compiler knows of a mapped entity: its table, its properties with their columns, and its
relations to other entities. A property may embed parts, each with a column of its own
(`address.city`).
-/

namespace EntitySql

/-- A property of an entity. -/
structure Property where
  column : String
  ty : FieldType
  nullable : Bool := false
  /-- Embedded parts by name, in order of declaration. -/
  parts : List (String × Property) := []
  deriving Inhabited, Repr

namespace Property

mutual
/-- Equality of properties is decidable. -/
def decEq : (a b : Property) → Decidable (a = b)
  | ⟨c, t, n, ps⟩, ⟨c', t', n', ps'⟩ =>
    if h : c = c' ∧ t = t' ∧ n = n' then
      match decEqParts ps ps' with
      | isTrue hp => isTrue (by rw [h.1, h.2.1, h.2.2, hp])
      | isFalse hp => isFalse (by simp [hp])
    else isFalse (by simp only [Property.mk.injEq]; intro e; exact h ⟨e.1, e.2.1, e.2.2.1⟩)
/-- Equality of embedded parts is decidable. -/
def decEqParts : (a b : List (String × Property)) → Decidable (a = b)
  | [], [] => isTrue rfl
  | (k, p) :: ps, (k', p') :: ps' =>
    if hk : k = k' then
      match decEq p p', decEqParts ps ps' with
      | isTrue h, isTrue hs => isTrue (by rw [hk, h, hs])
      | isFalse h, _ => isFalse (by simp [h])
      | _, isFalse h => isFalse (by simp [h])
    else isFalse (by simp [hk])
  | [], _ :: _ | _ :: _, [] => isFalse nofun
end

instance : DecidableEq Property := decEq

/-- Whether the property is made of parts. -/
def isEmbedded (p : Property) : Bool := !p.parts.isEmpty

end Property

/-- How the two sides of a relation are linked. -/
inductive Link where
  /-- The declaring entity holds a key that points at the target's identifier. -/
  | forward (foreignKey : String)
  /-- The target holds a key that points back at the declaring entity's identifier. -/
  | inverse (foreignKey : String)
  /-- A table of its own, with one column for each side. -/
  | junction (table sourceColumn targetColumn : String)
  deriving DecidableEq, Repr, Inhabited

/-- A declared association from one entity to another. -/
structure Relation where
  target : String
  link : Link
  /-- A further restriction of the join, as an expression over the target's properties. -/
  filter : Option String := none
  deriving DecidableEq, Repr, Inhabited

/-- A mapped entity. -/
structure Entity where
  name : String
  table : String
  properties : List (String × Property) := []
  relations : List (String × Relation) := []
  /-- The identifying properties; a join needs exactly one. -/
  identifier : List String := []
  deriving DecidableEq, Repr, Inhabited

namespace Entity

def property? (e : Entity) (name : String) : Option Property := Pairs.find? name e.properties

def relation? (e : Entity) (name : String) : Option Relation := Pairs.find? name e.relations

/-- The one identifying property. -/
def key (e : Entity) : Except QueryError (String × Property) :=
  match e.identifier with
  | [single] =>
    match e.property? single with
    | some p => .ok (single, p)
    | none => .error (.unknownField (e.name ++ "." ++ single) (Pairs.keys e.properties))
  | other => .error (.noSingleIdentifier e.name other)

end Entity

/-- A path `source.relation` that names the target of a relation. -/
structure RelationPath where
  source : String
  relation : String
  deriving DecidableEq, Repr, Inhabited

/-- The path of a dotted name, cut at its last dot; neither side may be empty. -/
def RelationPath.ofName? (name : String) : Option RelationPath :=
  match Text.splitLast? name with
  | some (source, relation) =>
    if source.isEmpty || relation.isEmpty then none else some ⟨source, relation⟩
  | none => none

end EntitySql
