import EntitySql.Query.Tree

/-!
# Printing query trees

The text of a tree in the query language itself, with the parentheses that its shape needs and no
others. Names are written as they are; every order item shows its direction.
-/

namespace EntitySql

/-- The operand as written where it needs no parentheses, else inside them. -/
def wrap (parens : Bool) (s : String) : String := if parens then "(" ++ s ++ ")" else s

/-- A minus before an operand; one that starts with a minus itself stands in parentheses. -/
def minusText (operand : String) : String :=
  match operand.toList with
  | '-' :: _ => "-(" ++ operand ++ ")"
  | _ => "-" ++ operand

/-- An alias after a table. -/
def tableAliasText : Option String → String
  | some a => " " ++ a
  | none => ""

/-- An alias after a result field. -/
def fieldAliasText : Option String → String
  | some a => " AS " ++ a
  | none => ""

def directionText (ascending : Bool) : String := if ascending then " ASC" else " DESC"

/-- A clause that is written only where it is not empty. -/
def clauseText (keyword : String) (body : String) (present : Bool) : String :=
  if present then " " ++ keyword ++ " " ++ body else ""

mutual
def Expr.text : Expr → String
  | .ident i => i.value
  | .literal l => l.text
  | .marker _ => "?"
  | .named m => ":" ++ m.name
  | .call name distinct args =>
    name ++ "(" ++ (if distinct then "DISTINCT " else "") ++ exprsText args ++ ")"
  | .list items => "(" ++ exprsText items ++ ")"
  | .arith op l r =>
    wrap (l.needsParens op.precedence none) l.text ++ " " ++ op.text ++ " "
      ++ wrap (r.needsParens (op.precedence + 1) none) r.text
  | .compare op l r =>
    wrap (l.needsParens op.precedence none) l.text ++ " " ++ op.text ++ " "
      ++ wrap (r.needsParens (op.precedence + 1) none) r.text
  | .logic op l r =>
    wrap (l.needsParens op.precedence (some op)) l.text ++ " " ++ op.text ++ " "
      ++ wrap (r.needsParens (op.precedence + 1) (some op)) r.text
  | .unary .not e => "NOT " ++ wrap (e.needsParens UnaryOp.not.precedence none) e.text
  | .unary .negate e => minusText (wrap (e.needsParens UnaryOp.negate.precedence none) e.text)
  | .case operand branches otherwise =>
    "CASE" ++ optExprText " " operand ++ branchesText branches ++ optExprText " ELSE " otherwise
      ++ " END"
  | .subquery s => "(" ++ s.text ++ ")"
/-- Expressions with commas between them. -/
def exprsText : List Expr → String
  | [] => ""
  | [e] => e.text
  | e :: es => e.text ++ ", " ++ exprsText es
/-- An expression that may be absent, after its keyword. -/
def optExprText (keyword : String) : Option Expr → String
  | none => ""
  | some e => keyword ++ e.text
def branchesText : List Branch → String
  | [] => ""
  | ⟨c, r⟩ :: bs => " WHEN " ++ c.text ++ " THEN " ++ r.text ++ branchesText bs
def fieldsText : List ResultField → String
  | [] => ""
  | [⟨e, a⟩] => e.text ++ fieldAliasText a
  | ⟨e, a⟩ :: fs => e.text ++ fieldAliasText a ++ ", " ++ fieldsText fs
def ordersText : List OrderItem → String
  | [] => ""
  | [⟨e, a⟩] => e.text ++ directionText a
  | ⟨e, a⟩ :: os => e.text ++ directionText a ++ ", " ++ ordersText os
def Table.text : Table → String
  | .named name label => name ++ tableAliasText label
  | .derived s label => "(" ++ s.text ++ ")" ++ tableAliasText label
def optTableText (keyword : String) : Option Table → String
  | none => ""
  | some t => keyword ++ t.text
def joinsText : List Join → String
  | [] => ""
  | ⟨kind, t, condition, _⟩ :: js =>
    " " ++ kind.text ++ " " ++ t.text ++ optExprText " ON " condition ++ joinsText js
def unionsText : List UnionPart → String
  | [] => ""
  | ⟨all, s⟩ :: us => " UNION " ++ (if all then "ALL " else "") ++ s.text ++ unionsText us
def Select.text : Select → String
  | ⟨distinct, fields, source, joins, criteria, grouping, having, ordering, limit, offset, unions, _⟩ =>
    "SELECT " ++ (if distinct then "DISTINCT " else "") ++ fieldsText fields
      ++ optTableText " FROM " source ++ joinsText joins ++ optExprText " WHERE " criteria
      ++ clauseText "GROUP BY" (exprsText grouping) (!grouping.isEmpty)
      ++ optExprText " HAVING " having
      ++ clauseText "ORDER BY" (ordersText ordering) (!ordering.isEmpty)
      ++ optExprText " LIMIT " limit ++ optExprText " OFFSET " offset ++ unionsText unions
end

def Branch.text (b : Branch) : String := "WHEN " ++ b.condition.text ++ " THEN " ++ b.result.text

def ResultField.text (f : ResultField) : String := f.expr.text ++ fieldAliasText f.label

def OrderItem.text (o : OrderItem) : String := o.expr.text ++ directionText o.ascending

def Join.text (j : Join) : String :=
  j.kind.text ++ " " ++ j.table.text ++ optExprText " ON " j.condition

def Assignment.text (a : Assignment) : String := a.target.text ++ " = " ++ a.value.text

/-- The end that update and delete share with select. -/
def tailText (ordering : List OrderItem) (limit offset : Option Expr) : String :=
  clauseText "ORDER BY" (ordersText ordering) (!ordering.isEmpty)
    ++ optExprText " LIMIT " limit ++ optExprText " OFFSET " offset

def InsertSource.text : InsertSource → String
  | .values rows => " VALUES " ++ exprsText rows
  | .select s => " " ++ s.text

def Insert.text (i : Insert) : String :=
  "INSERT INTO " ++ i.table.text
    ++ (if i.columns.isEmpty then "" else " (" ++ exprsText i.columns ++ ")")
    ++ i.source.text ++ clauseText "RETURNING" (fieldsText i.returning) (!i.returning.isEmpty)

def Update.text (u : Update) : String :=
  "UPDATE " ++ u.table.text ++ " SET " ++ Text.join ", " (u.assignments.map Assignment.text)
    ++ optExprText " WHERE " u.criteria ++ tailText u.ordering u.limit u.offset

def Delete.text (d : Delete) : String :=
  "DELETE FROM " ++ d.table.text ++ optExprText " WHERE " d.criteria
    ++ tailText d.ordering d.limit d.offset

def Query.text : Query → String
  | .select s => s.text
  | .insert i => i.text
  | .update u => u.text
  | .delete d => d.text

end EntitySql
