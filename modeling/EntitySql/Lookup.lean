import EntitySql.Facts
import EntitySql.Identifier

/-!
# Looking up fields

A reference `alias.property[.part]` or `property[.part]` is matched against the sources of a list of
scopes, the innermost first. A qualifier binds to the innermost scope that knows it; a property
without one has to be declared by exactly one source of all scopes. `none` stands for a reference
that can only belong to a raw table.
-/

namespace EntitySql

/-- A reference matched with a property of one source. -/
structure FieldMatch where
  source : Source
  /-- Written with a qualifier. -/
  qualified : Bool
  /-- The property as declared, with its part: `address.city`. -/
  path : String
  /-- The property itself, or its part. -/
  property : Property
  deriving DecidableEq, Repr

namespace FieldMatch

/-- The reference in terms of columns. -/
def column (m : FieldMatch) : String :=
  if m.qualified then m.source.qualifier ++ "." ++ m.property.column else m.property.column

def resolution (m : FieldMatch) : Resolution :=
  { ty := m.property.ty
    nullable := m.property.nullable
    entity := m.source.entity.map (·.name)
    property := some m.path }

end FieldMatch

namespace Lookup

/-- The sources of all scopes, the innermost first. -/
def sources (scopes : List Facts) : List Source := scopes.flatMap fun f => f.sources.toList

/-- The properties that sources declare. -/
def candidates (ss : List Source) : List String :=
  ss.flatMap fun s => match s.properties with
    | some ps => Pairs.keys ps
    | none => []

/-- The match of a property of a source, or of its part where one is named. -/
def matchPart (value : String) (source : Source) (qualified : Bool) (name : String) (p : Property) :
    Option String → Except QueryError FieldMatch
  | none => .ok ⟨source, qualified, name, p⟩
  | some part =>
    if p.isEmbedded then
      match Pairs.find? part p.parts with
      | some q => .ok ⟨source, qualified, name ++ "." ++ part, q⟩
      | none => .error (.unknownField value ((Pairs.keys p.parts).map fun k => name ++ "." ++ k))
    else .error (.noSubfields (source.qualifier ++ "." ++ name))

/-- A reference whose qualifier means `source`. -/
def qualified (value : String) (source : Source) (name : String) (part : Option String) :
    Except QueryError (Option FieldMatch) :=
  if source.isRaw then .ok none
  else match source.property? name with
    | some p => (matchPart value source true name p part).map some
    | none => .error (.unknownField value (candidates [source]))

/-- The sources that declare a property, with it. -/
def declaring (name : String) (ss : List Source) : List (Source × Property) :=
  ss.filterMap fun s => (s.property? name).map fun p => (s, p)

/-- A reference whose first segment is no qualifier. -/
def unqualified (value : String) (name : String) (part : Option String) (scopes : List Facts) :
    Except QueryError (Option FieldMatch) :=
  match declaring name (sources scopes) with
  | [(s, p)] => (matchPart value s false name p part).map some
  | [] =>
    if scopes.any fun f => f.sources.hasRaw then .ok none
    else if part.isSome then .error (.unknownAlias name)
    else .error (.unknownField value (candidates (sources scopes)))
  | found =>
    .error (.ambiguousIdentifier value (found.map fun sp => sp.1.qualifier ++ "." ++ name))

/-- The field that a reference means. -/
def find (value : String) (scopes : List Facts) : Except QueryError (Option FieldMatch) :=
  let segments := Text.segments value
  if segments.any String.isEmpty then .error (.unknownField value [])
  else match segments with
    | [name] => unqualified value name none scopes
    | [first, second] =>
      match scopedSource? scopes first with
      | some s => qualified value s second none
      | none => unqualified value first (some second) scopes
    | [first, second, third] =>
      match scopedSource? scopes first with
      | some s => qualified value s second (some third)
      | none => .error (.unknownAlias first)
    | _ => .error (.unknownField value [])

end Lookup

end EntitySql
