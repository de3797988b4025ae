import EntitySql.Query.Print

/-!
# Nodes

What a walk over a query comes to: queries, their clauses and their expressions, each of a kind.
-/

namespace EntitySql

inductive NodeKind where
  | select
  | insert
  | update
  | delete
  | table
  | join
  | field
  | order
  | assignment
  | branch
  | identifier
  | literal
  | marker
  | namedMarker
  | call
  | list
  | arith
  | compare
  | logic
  | unary
  | case
  | subquery
  deriving DecidableEq, Repr, Inhabited

namespace NodeKind

def name : NodeKind → String
  | select => "Select"
  | insert => "Insert"
  | update => "Update"
  | delete => "Delete"
  | table => "Table"
  | join => "Join"
  | field => "ResultField"
  | order => "Order"
  | assignment => "Assignment"
  | branch => "CaseBranch"
  | identifier => "Identifier"
  | literal => "Literal"
  | marker => "Parameter"
  | namedMarker => "NamedParameter"
  | call => "Function"
  | list => "List"
  | arith => "Arithmetic"
  | compare => "Binary"
  | logic => "Logic"
  | unary => "Unary"
  | case => "Case"
  | subquery => "Subquery"

def all : List NodeKind :=
  [select, insert, update, delete, table, join, field, order, assignment, branch, identifier, literal,
    marker, namedMarker, call, list, arith, compare, logic, unary, case, subquery]

/-- The kind of a given name. -/
def ofName? (s : String) : Option NodeKind := all.find? fun k => k.name == s

/-- Whether the kind is one of the four statements. -/
def isQuery : NodeKind → Bool
  | select | insert | update | delete => true
  | _ => false

end NodeKind

def Expr.kind : Expr → NodeKind
  | .ident _ => .identifier
  | .literal _ => .literal
  | .marker _ => .marker
  | .named _ => .namedMarker
  | .call .. => .call
  | .list _ => .list
  | .arith .. => .arith
  | .compare .. => .compare
  | .logic .. => .logic
  | .unary .. => .unary
  | .case .. => .case
  | .subquery _ => .subquery

/-- A node of a query. -/
inductive Node where
  | select (s : Select)
  | insert (i : Insert)
  | update (u : Update)
  | delete (d : Delete)
  | table (t : Table)
  | join (j : Join)
  | field (f : ResultField)
  | order (o : OrderItem)
  | assignment (a : Assignment)
  | branch (b : Branch)
  | expr (e : Expr)

namespace Node

def kind : Node → NodeKind
  | select _ => .select
  | insert _ => .insert
  | update _ => .update
  | delete _ => .delete
  | table _ => .table
  | join _ => .join
  | field _ => .field
  | order _ => .order
  | assignment _ => .assignment
  | branch _ => .branch
  | expr e => e.kind

def text : Node → String
  | select s => s.text
  | insert i => i.text
  | update u => u.text
  | delete d => d.text
  | table t => t.text
  | join j => j.text
  | field f => f.text
  | order o => o.text
  | assignment a => a.text
  | branch b => b.text
  | expr e => e.text

end Node

end EntitySql
