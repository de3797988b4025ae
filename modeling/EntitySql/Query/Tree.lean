import EntitySql.Facts
import EntitySql.Identifier
import EntitySql.Literal
import EntitySql.Operator

/-!
# Query trees

The four statements and their parts. Expressions and selects contain each other: an expression may be
a subquery, and a table may be derived from a select. Every query carries its `Facts`, empty until
it is resolved.
-/

namespace EntitySql

inductive JoinKind where
  | inner
  | left
  deriving DecidableEq, Repr, Inhabited

def JoinKind.text : JoinKind → String
  | inner => "INNER JOIN"
  | left => "LEFT JOIN"

mutual
inductive Expr where
  | ident (i : Identifier)
  | literal (l : Literal)
  | marker (m : Marker)
  | named (m : NamedMarker)
  | call (name : String) (distinct : Bool) (args : List Expr)
  | list (items : List Expr)
  | arith (op : ArithOp) (left right : Expr)
  | compare (op : CompareOp) (left right : Expr)
  | logic (op : LogicOp) (left right : Expr)
  | unary (op : UnaryOp) (operand : Expr)
  | case (operand : Option Expr) (branches : List Branch) (otherwise : Option Expr)
  | subquery (select : Select)

/-- `WHEN condition THEN result`. -/
structure Branch where
  condition : Expr
  result : Expr

/-- An expression of a select list with its explicit alias. -/
structure ResultField where
  expr : Expr
  label : Option String

structure OrderItem where
  expr : Expr
  ascending : Bool

/-- A table in a query: a name as written, or a select. -/
inductive Table where
  | named (name : String) (label : Option String)
  | derived (select : Select) (label : Option String)

/-- A joined table. A join along a relation has a path, and gets its condition from the relation. -/
structure Join where
  kind : JoinKind
  table : Table
  condition : Option Expr
  path : Option RelationPath

/-- A further select of a union. -/
structure UnionPart where
  all : Bool
  select : Select

structure Select where
  distinct : Bool
  fields : List ResultField
  source : Option Table
  joins : List Join
  criteria : Option Expr
  grouping : List Expr
  having : Option Expr
  ordering : List OrderItem
  limit : Option Expr
  offset : Option Expr
  unions : List UnionPart
  facts : Facts
end

instance : Inhabited Expr := ⟨.literal .null⟩

instance : Inhabited ResultField := ⟨⟨default, none⟩⟩

instance : Inhabited OrderItem := ⟨⟨default, true⟩⟩

instance : Inhabited Table := ⟨.named "" none⟩

instance : Inhabited Join := ⟨⟨.inner, default, none, none⟩⟩

instance : Inhabited Select :=
  ⟨⟨false, [], none, [], none, [], none, [], none, none, [], {}⟩⟩

/-- `target = value`. -/
structure Assignment where
  target : Expr
  value : Expr

/-- Where the rows of an insert come from. -/
inductive InsertSource where
  /-- One list per row. -/
  | values (rows : List Expr)
  | select (s : Select)

structure Insert where
  table : Table
  columns : List Expr
  source : InsertSource
  returning : List ResultField := []
  facts : Facts := {}

structure Update where
  table : Table
  assignments : List Assignment := []
  criteria : Option Expr := none
  ordering : List OrderItem := []
  limit : Option Expr := none
  offset : Option Expr := none
  facts : Facts := {}

structure Delete where
  table : Table
  criteria : Option Expr := none
  ordering : List OrderItem := []
  limit : Option Expr := none
  offset : Option Expr := none
  facts : Facts := {}

inductive Query where
  | select (s : Select)
  | insert (i : Insert)
  | update (u : Update)
  | delete (d : Delete)

namespace Expr

/-- The identifier of that name, not yet resolved. -/
def name (value : String) : Expr := .ident { value }

/-- The binary node of an operator. -/
def binary (left : Expr) : Operator → Expr → Expr
  | .arith op, right => .arith op left right
  | .compare op, right => .compare op left right
  | .logic op, right => .logic op left right

/-- The expressions in a chain from the left, joined by one operator. -/
def joinAll (op : LogicOp) : List Expr → Option Expr
  | [] => none
  | e :: es => some (es.foldl (fun left right => .logic op left right) e)

def asIdentifier? : Expr → Option Identifier
  | ident i => some i
  | _ => none

/-- The identifier itself, or the one under a chain of unary operators. -/
def underlying? : Expr → Option Identifier
  | ident i => some i
  | unary _ e => underlying? e
  | _ => none

/-- The binding strength of the expression as an operand. -/
def precedence : Expr → Nat
  | arith op .. => op.precedence
  | compare op .. => op.precedence
  | logic op .. => op.precedence
  | unary op _ => op.precedence
  | _ => Precedence.atom

/-- Whether the expression stands in parentheses where the binding strength `required` is expected.
Under a logic operator (`outer`) a logic operator of the other kind always does. -/
def needsParens (required : Nat) (outer : Option LogicOp) (e : Expr) : Bool :=
  e.precedence < required || match e, outer with
    | logic op .., some o => op != o
    | _, _ => false

end Expr

/-- Whether the field is a wildcard. -/
def ResultField.isWildcard (f : ResultField) : Bool :=
  match f.expr.asIdentifier? with
  | some i => i.isWildcard
  | none => false

namespace Table

def label : Table → Option String
  | named _ label => label
  | derived _ label => label

/-- The name of a table that is not derived. -/
def name? : Table → Option String
  | named name _ => some name
  | derived .. => none

end Table

/-- A join along a relation that has no condition yet. -/
def Join.isPending (j : Join) : Bool := j.path.isSome && j.condition.isNone

namespace Query

def kind : Query → String
  | select _ => "select"
  | insert _ => "insert"
  | update _ => "update"
  | delete _ => "delete"

def facts : Query → Facts
  | select s => s.facts
  | insert i => i.facts
  | update u => u.facts
  | delete d => d.facts

def withFacts (f : Facts) : Query → Query
  | select s => select { s with facts := f }
  | insert i => insert { i with facts := f }
  | update u => update { u with facts := f }
  | delete d => delete { d with facts := f }

/-- The query with values that its markers take when it is compiled. -/
def withLiterals (q : Query) (b : Bindings) : Query :=
  q.withFacts { q.facts with literals := some b }

end Query

end EntitySql
