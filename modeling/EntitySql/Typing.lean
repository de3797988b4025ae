import EntitySql.Lookup
import EntitySql.Query.Tree

/-!
# Types of expressions

The type of an expression and whether it may be null, as far as the entities tell.
-/

namespace EntitySql

/-- A type, and whether the value may be null. -/
structure Typed where
  ty : FieldType
  nullable : Bool
  deriving DecidableEq, Repr

/-- The common type of the arguments that have one; null only if all of them may be. -/
def Typed.coalesce (args : List (Option Typed)) : Typed :=
  (args.filterMap id).foldl (fun t a => ⟨t.ty.promote a.ty, t.nullable && a.nullable⟩) ⟨.null, true⟩

/-- The type of a call, by the name of the function in small letters. -/
def Typed.ofCall (name : String) (args : List (Option Typed)) : Option Typed :=
  match name, args with
  | "count", _ => some ⟨.int, false⟩
  | "avg", _ => some ⟨.float, true⟩
  | "sum", [some a] | "min", [some a] | "max", [some a] => some ⟨a.ty, true⟩
  | "upper", [some ⟨.string, n⟩] | "lower", [some ⟨.string, n⟩] | "trim", [some ⟨.string, n⟩] =>
    some ⟨.string, n⟩
  | "length", [some a] => some ⟨.int, a.nullable⟩
  | "coalesce", _ :: _ => some (coalesce args)
  | _, _ => none

/-- The type of an identifier: the one it was resolved to, else what a look-up finds. -/
def Identifier.typed? (i : Identifier) (scopes : List Facts) : Option Typed :=
  match i.resolution with
  | some r => some ⟨r.ty, r.nullable⟩
  | none =>
    match Lookup.find i.value scopes with
    | .ok (some m) => some ⟨m.property.ty, m.property.nullable⟩
    | _ => none

/-- The type of the only result column of a subquery. -/
def Facts.scalar? (f : Facts) : Option Typed :=
  match f.results with
  | [(_, column)] => column.ty.map fun ty => ⟨ty, true⟩
  | _ => none

mutual
/-- The type of an expression in the given scopes. -/
def Expr.typed? (scopes : List Facts) : Expr → Option Typed
  | .ident i => i.typed? scopes
  | .literal .null => some ⟨.null, true⟩
  | .literal l => some ⟨.ofLiteral l, false⟩
  | .marker m => m.ty.map fun ty => ⟨ty, m.nullable.getD true⟩
  | .named m => m.ty.map fun ty => ⟨ty, true⟩
  | .arith _ l r =>
    match l.typed? scopes, r.typed? scopes with
    | some a, some b => some ⟨a.ty.promote b.ty, a.nullable || b.nullable⟩
    | _, _ => none
  | .compare .. | .logic .. => some ⟨.bool, false⟩
  | .unary .not _ => some ⟨.bool, false⟩
  | .unary .negate e => e.typed? scopes
  | .case _ (⟨_, result⟩ :: _) otherwise =>
    (result.typed? scopes).map fun t => ⟨t.ty, t.nullable || otherwise.isNone⟩
  | .case _ [] _ => none
  | .call name _ args => Typed.ofCall (Text.lower name) (typedArgs scopes args)
  | .subquery s => s.facts.scalar?
  | .list _ => none
/-- The types of the arguments of a call. -/
def typedArgs (scopes : List Facts) : List Expr → List (Option Typed)
  | [] => []
  | e :: es => e.typed? scopes :: typedArgs scopes es
end

end EntitySql
