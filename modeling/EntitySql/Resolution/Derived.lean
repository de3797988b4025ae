import EntitySql.Query.Print
import EntitySql.Resolution.Sweep
import EntitySql.Typing

/-!
# Mapping derived tables

The second pass. The result fields of a derived table become the properties of a source under its
alias, so that the enclosing query can name them.
-/

namespace EntitySql

namespace Derived

/-- The properties that a wildcard gives: those of the source its qualifier means, or of all. -/
def wildcard (i : Identifier) (sources : Sources) (acc : List (String × Property)) :
    Except QueryError (List (String × Property)) := do
  let chosen ← match i.qualifier? with
    | some q =>
      match sources.byQualifier? q with
      | some s => .ok [s]
      | none => .error (QueryError.unknownAlias q)
    | none => .ok sources.toList
  return chosen.foldl (fun acc s => match s.properties with
    | some ps => ps.foldl (fun acc p => Pairs.insert p.1 p.2 acc) acc
    | none => acc) acc

/-- The output name of a field that is no wildcard, and the property it gives. -/
def property (f : ResultField) (facts : Facts) : Except QueryError (String × Property) :=
  match f.expr.asIdentifier?, f.label with
  | some i, label => do
    let name := label.getD i.name
    match ← Lookup.find i.value [facts] with
    | some m => return (name, { m.property with column := label.getD m.property.column })
    | none => return (name, { column := name, ty := .string, nullable := true })
  | none, some label =>
    let typed := (f.expr.typed? [facts]).getD ⟨.string, true⟩
    .ok (label, { column := label, ty := typed.ty, nullable := typed.nullable })
  | none, none => .error (.missingAlias f.expr.text)

/-- The properties of a derived table, from its result fields in order. -/
def propertiesFrom (facts : Facts) (acc : List (String × Property)) :
    List ResultField → Except QueryError (List (String × Property))
  | [] => .ok acc
  | f :: fs => do
    match f.expr.asIdentifier? with
    | some i =>
      if i.isWildcard then propertiesFrom facts (← wildcard i facts.sources acc) fs
      else
        let (name, p) ← property f facts
        propertiesFrom facts (Pairs.insert name p acc) fs
    | none =>
      let (name, p) ← property f facts
      propertiesFrom facts (Pairs.insert name p acc) fs

/-- The properties of a derived table. -/
def properties (s : Select) : Except QueryError (List (String × Property)) :=
  propertiesFrom s.facts [] s.fields

/-- The mapping of derived tables. -/
def sweep : Sweep where
  table _ _ facts
    | .derived s (some label) => do
      let ps ← properties s
      return (.derived s (some label), ← facts.addSource (.derived label ps))
    | .derived s none => .error (.missingAlias ("(" ++ s.text ++ ")"))
    | t => return (t, facts)

end Derived

end EntitySql
