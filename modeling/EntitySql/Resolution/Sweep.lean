import EntitySql.Query.Tree

/-!
# Sweeps over queries in their scopes

A `Sweep` changes the names and tables of a query and notes facts about it. It is carried out on all
parts of a query in the order of its text (`Sweep.query`); a table adds to the facts of its query, so
what follows sees it.

`visible` are the enclosing queries whose sources may be named, the innermost first. A subquery in an
expression sees the queries around it. Derived tables, union parts and the select of an insert stand
alone and see none.
-/

namespace EntitySql

/-- Where a name stands: the facts of its query and of the visible ones around it, the innermost
first, and whether the clause admits result aliases. -/
structure Place where
  scopes : List Facts
  labelled : Bool := false

/-- A change to the names and tables of a query. -/
structure Sweep where
  /-- The facts with which a select of these fields is entered. -/
  opening : List ResultField → Facts → Facts := fun _ facts => facts
  ident : Place → Identifier → Except QueryError Identifier := fun _ i => .ok i
  /-- A table, whose own select is already swept, and what it adds to the facts of its query. -/
  table : (joined : Bool) → (visible : List Facts) → Facts → Table → Except QueryError (Table × Facts) :=
    fun _ _ facts t => .ok (t, facts)

namespace Sweep

variable (w : Sweep)

mutual
def expr (p : Place) : Expr → Except QueryError Expr
  | .ident i => return .ident (← w.ident p i)
  | .literal l => return .literal l
  | .marker m => return .marker m
  | .named m => return .named m
  | .call name distinct args => return .call name distinct (← exprs p args)
  | .list items => return .list (← exprs p items)
  | .arith op l r => return .arith op (← expr p l) (← expr p r)
  | .compare op l r => return .compare op (← expr p l) (← expr p r)
  | .logic op l r => return .logic op (← expr p l) (← expr p r)
  | .unary op e => return .unary op (← expr p e)
  | .case operand bs otherwise =>
    return .case (← optExpr p operand) (← branches p bs) (← optExpr p otherwise)
  | .subquery s => return .subquery (← select p.scopes s)
def exprs (p : Place) : List Expr → Except QueryError (List Expr)
  | [] => return []
  | e :: es => return (← expr p e) :: (← exprs p es)
def optExpr (p : Place) : Option Expr → Except QueryError (Option Expr)
  | none => return none
  | some e => return some (← expr p e)
def branches (p : Place) : List Branch → Except QueryError (List Branch)
  | [] => return []
  | ⟨c, r⟩ :: bs => return ⟨← expr p c, ← expr p r⟩ :: (← branches p bs)
def fields (p : Place) : List ResultField → Except QueryError (List ResultField)
  | [] => return []
  | ⟨e, a⟩ :: fs => return ⟨← expr p e, a⟩ :: (← fields p fs)
def orders (p : Place) : List OrderItem → Except QueryError (List OrderItem)
  | [] => return []
  | ⟨e, a⟩ :: os => return ⟨← expr p e, a⟩ :: (← orders p os)
/-- A table of the query with the facts so far. -/
def source (joined : Bool) (visible : List Facts) (facts : Facts) :
    Table → Except QueryError (Table × Facts)
  | .named name label => w.table joined visible facts (.named name label)
  | .derived s label => do w.table joined visible facts (.derived (← select [] s) label)
def optSource (visible : List Facts) (facts : Facts) :
    Option Table → Except QueryError (Option Table × Facts)
  | none => return (none, facts)
  | some t => do
    let (t, facts) ← source false visible facts t
    return (some t, facts)
def joins (visible : List Facts) (facts : Facts) : List Join → Except QueryError (List Join × Facts)
  | [] => return ([], facts)
  | ⟨kind, t, condition, path⟩ :: js => do
    let (t, facts) ← source true visible facts t
    let condition ← optExpr ⟨facts :: visible, false⟩ condition
    let (js, facts) ← joins visible facts js
    return (⟨kind, t, condition, path⟩ :: js, facts)
def unions : List UnionPart → Except QueryError (List UnionPart)
  | [] => return []
  | ⟨all, s⟩ :: us => return ⟨all, ← select [] s⟩ :: (← unions us)
def select (visible : List Facts) : Select → Except QueryError Select
  | ⟨distinct, fs, source, js, criteria, grouping, having, ordering, limit, offset, us, facts⟩ => do
    let facts := w.opening fs facts
    let fs ← fields ⟨facts :: visible, false⟩ fs
    let (source, facts) ← optSource visible facts source
    let (js, facts) ← joins visible facts js
    let plain : Place := ⟨facts :: visible, false⟩
    let labelled : Place := ⟨facts :: visible, true⟩
    let criteria ← optExpr plain criteria
    let grouping ← exprs labelled grouping
    let having ← optExpr labelled having
    let ordering ← orders labelled ordering
    let limit ← optExpr plain limit
    let offset ← optExpr plain offset
    let us ← unions us
    return ⟨distinct, fs, source, js, criteria, grouping, having, ordering, limit, offset, us, facts⟩
end

def assignments (p : Place) : List Assignment → Except QueryError (List Assignment)
  | [] => return []
  | ⟨t, v⟩ :: as => return ⟨← w.expr p t, ← w.expr p v⟩ :: (← assignments p as)

def insertSource (p : Place) : InsertSource → Except QueryError InsertSource
  | .values rows => return .values (← w.exprs p rows)
  | .select s => return .select (← w.select [] s)

def insert (i : Insert) : Except QueryError Insert := do
  let (table, facts) ← w.source false [] i.facts i.table
  let place : Place := ⟨[facts], false⟩
  let columns ← w.exprs place i.columns
  let source ← w.insertSource place i.source
  let returning ← w.fields place i.returning
  return ⟨table, columns, source, returning, facts⟩

def update (u : Update) : Except QueryError Update := do
  let (table, facts) ← w.source false [] u.facts u.table
  let place : Place := ⟨[facts], false⟩
  let as ← w.assignments place u.assignments
  let criteria ← w.optExpr place u.criteria
  let ordering ← w.orders ⟨[facts], true⟩ u.ordering
  let limit ← w.optExpr place u.limit
  let offset ← w.optExpr place u.offset
  return ⟨table, as, criteria, ordering, limit, offset, facts⟩

def delete (d : Delete) : Except QueryError Delete := do
  let (table, facts) ← w.source false [] d.facts d.table
  let place : Place := ⟨[facts], false⟩
  let criteria ← w.optExpr place d.criteria
  let ordering ← w.orders ⟨[facts], true⟩ d.ordering
  let limit ← w.optExpr place d.limit
  let offset ← w.optExpr place d.offset
  return ⟨table, criteria, ordering, limit, offset, facts⟩

/-- The query after the sweep. -/
def query : Query → Except QueryError Query
  | .select s => .select <$> w.select [] s
  | .insert i => .insert <$> w.insert i
  | .update u => .update <$> w.update u
  | .delete d => .delete <$> w.delete d

end Sweep

end EntitySql
