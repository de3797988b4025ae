import EntitySql.Dialect
import EntitySql.Query.Print

/-!
# Rendering queries as SQL

A resolved query in a dialect. Parentheses stand where the tree needs them, as in the text of the
query itself. What resolution leaves behind in no query is refused: a marker without an ordinal, a
named marker, a join without a condition, an insert into something other than columns of a table.
-/

namespace EntitySql

namespace Rendering

variable (d : Dialect)

def label (keyword : String) : Option String → Sql
  | some a => [.text keyword, .text (d.quoteIdentifier a)]
  | none => []

/-- A minus before an operand; one that starts with a minus itself stands in parentheses. -/
def minus (operand : Sql) : Sql :=
  match (d.spell operand).toList with
  | '-' :: _ => .text "-" :: Sql.enclosed operand
  | _ => .text "-" :: operand

/-- A clause that is written only where it is not empty. -/
def clause (keyword : String) (parts : List Sql) : Sql :=
  if parts.isEmpty then [] else .text keyword :: Sql.join ", " parts

mutual
def expr : Expr → Except InternalError Sql
  | .ident i => return .ofText (d.quoteIdentifier i.value)
  | .literal l => return .ofText (d.literal l)
  | .marker m =>
    match m.ordinal with
    | some n => return [.placeholder n]
    | none => .error .unnumberedParameter
  | .named m => .error (.unresolvedNamedParameter m.name)
  | .call name distinct args => do
    let opening := d.functionName name args.length ++ if distinct then "(DISTINCT " else "("
    return .text opening :: Sql.join ", " (← exprs args) ++ [.text ")"]
  | .list items => return Sql.enclosed (Sql.join ", " (← exprs items))
  | .arith op l r => do
    let left := Sql.wrapIf (l.needsParens op.precedence none) (← expr l)
    let right := Sql.wrapIf (r.needsParens (op.precedence + 1) none) (← expr r)
    match op with
    | .concat => return d.concat [left, right]
    | op => return left ++ .text (" " ++ op.text ++ " ") :: right
  | .compare op l r => do
    let left := Sql.wrapIf (l.needsParens op.precedence none) (← expr l)
    let right := Sql.wrapIf (r.needsParens (op.precedence + 1) none) (← expr r)
    match op with
    | .contains => return d.contains left right
    | op => return left ++ .text (" " ++ op.text ++ " ") :: right
  | .logic op l r => do
    let left := Sql.wrapIf (l.needsParens op.precedence (some op)) (← expr l)
    let right := Sql.wrapIf (r.needsParens (op.precedence + 1) (some op)) (← expr r)
    return left ++ .text (" " ++ op.text ++ " ") :: right
  | .unary .not e => do
    let operand := Sql.wrapIf (e.needsParens UnaryOp.not.precedence none) (← expr e)
    return .text "NOT " :: operand
  | .unary .negate e => do
    let operand := Sql.wrapIf (e.needsParens UnaryOp.negate.precedence none) (← expr e)
    return minus d operand
  | .case operand bs otherwise => do
    let operand ← optExpr " " operand
    let bs ← branches bs
    let otherwise ← optExpr " ELSE " otherwise
    return .text "CASE" :: operand ++ bs ++ otherwise ++ [.text " END"]
  | .subquery s => return Sql.enclosed (← select s)
def exprs : List Expr → Except InternalError (List Sql)
  | [] => return []
  | e :: es => return (← expr e) :: (← exprs es)
/-- An expression that may be absent, after its keyword. -/
def optExpr (keyword : String) : Option Expr → Except InternalError Sql
  | none => return []
  | some e => return .text keyword :: (← expr e)
/-- A row count that may be absent. -/
def count? : Option Expr → Except InternalError (Option Sql)
  | none => return none
  | some e => return some (← expr e)
def branches : List Branch → Except InternalError Sql
  | [] => return []
  | ⟨c, r⟩ :: bs =>
    return .text " WHEN " :: (← expr c) ++ .text " THEN " :: (← expr r) ++ (← branches bs)
def fields : List ResultField → Except InternalError (List Sql)
  | [] => return []
  | ⟨e, a⟩ :: fs => return ((← expr e) ++ label d " AS " a) :: (← fields fs)
def orders : List OrderItem → Except InternalError (List Sql)
  | [] => return []
  | ⟨e, a⟩ :: os => return ((← expr e) ++ [.text (directionText a)]) :: (← orders os)
def table : Table → Except InternalError Sql
  | .named name a => return .text (d.quoteIdentifier name) :: label d " " a
  | .derived s a => return Sql.enclosed (← select s) ++ label d " " a
def optTable : Option Table → Except InternalError Sql
  | none => return []
  | some t => return .text " FROM " :: (← table t)
def joins : List Join → Except InternalError Sql
  | [] => return []
  | ⟨_, t, none, _⟩ :: _ => .error (.unknownNode ("join on " ++ t.text ++ " without a condition"))
  | ⟨kind, t, some condition, _⟩ :: js => do
    let t ← table t
    let condition ← expr condition
    return .text (" " ++ kind.text ++ " ") :: t ++ .text " ON " :: condition ++ (← joins js)
def unions : List UnionPart → Except InternalError Sql
  | [] => return []
  | ⟨all, s⟩ :: us =>
    return .text (if all then " UNION ALL " else " UNION ") :: (← select s) ++ (← unions us)
def select : Select → Except InternalError Sql
  | ⟨distinct, fs, source, js, criteria, grouping, having, ordering, limit, offset, us, _⟩ => do
    let fs ← fields fs
    let source ← optTable source
    let js ← joins js
    let criteria ← optExpr " WHERE " criteria
    let grouping ← exprs grouping
    let having ← optExpr " HAVING " having
    let ordering ← orders ordering
    let limit ← count? limit
    let offset ← count? offset
    let us ← unions us
    return .text (if distinct then "SELECT DISTINCT " else "SELECT ") :: Sql.join ", " fs ++ source ++ js
      ++ criteria ++ clause " GROUP BY " grouping ++ having ++ clause " ORDER BY " ordering
      ++ d.pagination limit offset ++ us
end

/-- The end that update and delete share. -/
def tail (ordering : List OrderItem) (limit offset : Option Expr) : Except InternalError Sql := do
  let ordering ← orders d ordering
  let limit ← count? d limit
  let offset ← count? d offset
  return clause " ORDER BY " ordering ++ d.pagination limit offset

/-- The table of an insert, which shows no alias. -/
def target : Table → Except InternalError Sql
  | .named name _ => return .ofText (d.quoteIdentifier name)
  | .derived s _ => .error (.unknownNode ("derived table (" ++ s.text ++ ") as target"))

/-- The column of an insert: the last segment of its name. -/
def column : Expr → Except InternalError Sql
  | .ident i => return .ofText (d.quoteIdentifier i.name)
  | e => .error (.unknownNode ("insert column " ++ e.text))

def columns : List Expr → Except InternalError (List Sql)
  | [] => return []
  | e :: es => return (← column d e) :: (← columns es)

/-- A row of values. -/
def row : Expr → Except InternalError Sql
  | .list items => expr d (.list items)
  | e => .error (.unknownNode ("values row " ++ e.text))

def rows : List Expr → Except InternalError (List Sql)
  | [] => return []
  | r :: rs => return (← row d r) :: (← rows rs)

def insertSource : InsertSource → Except InternalError Sql
  | .values rs => return .text " VALUES " :: Sql.join ", " (← rows d rs)
  | .select s => return .text " " :: (← select d s)

def insert (i : Insert) : Except InternalError Sql := do
  let table ← target d i.table
  let columns ← columns d i.columns
  let source ← insertSource d i.source
  let returning ← if d.supportsReturning then fields d i.returning else pure []
  let columns := if columns.isEmpty then [] else .text " " :: Sql.enclosed (Sql.join ", " columns)
  return .text "INSERT INTO " :: table ++ columns ++ source ++ clause " RETURNING " returning

def assignments : List Assignment → Except InternalError (List Sql)
  | [] => return []
  | ⟨t, v⟩ :: as => return ((← expr d t) ++ .text " = " :: (← expr d v)) :: (← assignments as)

def update (u : Update) : Except InternalError Sql := do
  let as ← assignments d u.assignments
  let table ← table d u.table
  let criteria ← optExpr d " WHERE " u.criteria
  let tail ← tail d u.ordering u.limit u.offset
  return .text "UPDATE " :: table ++ .text " SET " :: Sql.join ", " as ++ criteria ++ tail

def delete (x : Delete) : Except InternalError Sql := do
  let table ← table d x.table
  let criteria ← optExpr d " WHERE " x.criteria
  let tail ← tail d x.ordering x.limit x.offset
  return .text "DELETE FROM " :: table ++ criteria ++ tail

def query : Query → Except InternalError Sql
  | .select s => select d s
  | .insert i => insert d i
  | .update u => update d u
  | .delete x => delete d x

end Rendering

/-- The SQL of a query. -/
def Query.render (d : Dialect) (q : Query) : Except InternalError String :=
  return d.spell (← Rendering.query d q)

end EntitySql
