import EntitySql.Grammar.Rules

/-!
# Completing joins

The third pass. A join written as a path along a relation gets the condition that the relation
implies: keys are equated, and a relation through a link table puts a join with that table before it.
A relation's filter is added to the condition, its bare names qualified with the join's alias.

A filter may hold subqueries with such joins of their own, whose filters are gone through in turn,
each at the cost of one unit of a budget. Below the query, the only sources that come into sight are
links, and they only become more, so what happens in a filter depends on its relation and on how many
links hide a name. A chain in which such a pair comes twice has no end. An isolated select ends the
chain at once: past it only links are in sight, and no path starts at a link. `nestingBound` counts
the pairs, and one filter more for the isolated select.
-/

namespace EntitySql

namespace Joins

/-! ## The condition of one join -/

mutual
/-- The expression with its bare names qualified. Subqueries are left alone. -/
def qualify (label : String) : Expr → Expr
  | .ident i =>
    if i.qualifier?.isNone && !i.isWildcard then .ident { i with value := label ++ "." ++ i.value }
    else .ident i
  | .call name distinct args => .call name distinct (qualifyAll label args)
  | .list items => .list (qualifyAll label items)
  | .arith op l r => .arith op (qualify label l) (qualify label r)
  | .compare op l r => .compare op (qualify label l) (qualify label r)
  | .logic op l r => .logic op (qualify label l) (qualify label r)
  | .unary op e => .unary op (qualify label e)
  | .case operand bs otherwise =>
    .case (qualifyOpt label operand) (qualifyBranches label bs) (qualifyOpt label otherwise)
  | .literal l => .literal l
  | .marker m => .marker m
  | .named m => .named m
  | .subquery s => .subquery s
def qualifyAll (label : String) : List Expr → List Expr
  | [] => []
  | e :: es => qualify label e :: qualifyAll label es
def qualifyOpt (label : String) : Option Expr → Option Expr
  | none => none
  | some e => some (qualify label e)
def qualifyBranches (label : String) : List Branch → List Branch
  | [] => []
  | ⟨c, r⟩ :: bs => ⟨qualify label c, qualify label r⟩ :: qualifyBranches label bs
end

/-- `left.a = right.b`. -/
def equate (left a right b : String) : Expr :=
  .compare .eq (.name (left ++ "." ++ a)) (.name (right ++ "." ++ b))

/-- What a relation puts into a query. -/
structure Completion where
  /-- The join with the link table. -/
  link : Option Join
  /-- The equation of the keys. -/
  keys : Expr
  /-- The qualified filter. -/
  restriction : Option Expr

/-- The whole condition. -/
def Completion.condition (c : Completion) : Expr :=
  match c.restriction with
  | some r => .logic .and c.keys r
  | none => c.keys

/-- The link and the equation of the keys of a relation, and the facts with the link as a source. -/
def connect (kind : JoinKind) (label : String) (path : RelationPath) (source target : Entity)
    (facts : Facts) : Link → Except QueryError ((Option Join × Expr) × Facts)
  | .forward foreignKey => do
    let (targetId, _) ← target.key
    return ((none, equate label targetId path.source foreignKey), facts)
  | .inverse foreignKey => do
    let (sourceId, _) ← source.key
    return ((none, equate label foreignKey path.source sourceId), facts)
  | .junction table sourceColumn targetColumn => do
    let (sourceId, _) ← source.key
    let (targetId, _) ← target.key
    let link := path.source ++ "_" ++ path.relation
    let facts ← facts.addSource (.raw (some link) table)
    let join : Join :=
      { kind
        table := .named table (some link)
        condition := some (equate link sourceColumn path.source sourceId)
        path := none }
    return ((some join, equate label targetId link targetColumn), facts)

/-- The qualified filter of a relation. -/
def restriction (label : String) : Option String → Except ParseError (Option Expr)
  | none => .ok none
  | some text => return some (qualify label (← Expr.ofDetached text))

/-- The relation that a path follows: its source, itself and its target. The path's source is one of
the query's own, or one of the visible queries around it. -/
def follow (schema : Schema) (visible : List Facts) (facts : Facts) (label : String)
    (path : RelationPath) : Except QueryError (Entity × Relation × Entity) :=
  match scopedSource? (facts :: visible) path.source with
  | none => .error (.unknownAlias path.source)
  | some source =>
    match source.entity with
    | none => .error (.incompleteJoin label (path.source ++ " is not a mapped entity"))
    | some entity =>
      match entity.relation? path.relation with
      | none => .error (.incompleteJoin label (entity.name ++ " has no relation " ++ path.relation))
      | some relation =>
        match schema.entity? relation.target with
        | none => .error (.unknownEntity relation.target)
        | some target => .ok (entity, relation, target)

/-- What completes a join along a path, and the facts with its link as a source. -/
def complete (schema : Schema) (visible : List Facts) (facts : Facts) (j : Join) (path : RelationPath) :
    Except CompileError (Completion × Facts) := do
  let label := j.table.label.getD path.relation
  let (source, relation, target) ← QueryError.lift (follow schema visible facts label path)
  let ((link, keys), facts) ←
    QueryError.lift (connect j.kind label path source target facts relation.link)
  let restriction ← ParseError.lift (restriction label relation.filter)
  return (⟨link, keys, restriction⟩, facts)

/-- What completes each join of a select; `none` where nothing is to be done. -/
def completeAll (schema : Schema) (visible : List Facts) (facts : Facts) :
    List Join → Except CompileError (List (Option Completion) × Facts)
  | [] => return ([], facts)
  | j :: js => do
    match j.path, j.condition with
    | some path, none =>
      let (c, facts) ← complete schema visible facts j path
      let (cs, facts) ← completeAll schema visible facts js
      return (some c :: cs, facts)
    | _, _ =>
      let (cs, facts) ← completeAll schema visible facts js
      return (none :: cs, facts)

/-! ## All joins of a query -/

section

variable (schema : Schema) (filter : List Facts → Expr → Except CompileError Expr)

/-- A completed join with its link before it. The filter in its condition is gone through by the
reader of filters. -/
def completed (scopes : List Facts) (j : Join) (c : Completion) : Except CompileError (List Join) := do
  let restriction ← match c.restriction with
    | some r => some <$> filter scopes r
    | none => pure none
  let whole := { c with restriction }
  return c.link.toList ++ [{ j with condition := some whole.condition }]

mutual
def expr (scopes : List Facts) : Expr → Except CompileError Expr
  | .ident i => return .ident i
  | .literal l => return .literal l
  | .marker m => return .marker m
  | .named m => return .named m
  | .call name distinct args => return .call name distinct (← exprs scopes args)
  | .list items => return .list (← exprs scopes items)
  | .arith op l r => return .arith op (← expr scopes l) (← expr scopes r)
  | .compare op l r => return .compare op (← expr scopes l) (← expr scopes r)
  | .logic op l r => return .logic op (← expr scopes l) (← expr scopes r)
  | .unary op e => return .unary op (← expr scopes e)
  | .case operand bs otherwise =>
    return .case (← optExpr scopes operand) (← branches scopes bs) (← optExpr scopes otherwise)
  | .subquery s => return .subquery (← select scopes false s)
def exprs (scopes : List Facts) : List Expr → Except CompileError (List Expr)
  | [] => return []
  | e :: es => return (← expr scopes e) :: (← exprs scopes es)
def optExpr (scopes : List Facts) : Option Expr → Except CompileError (Option Expr)
  | none => return none
  | some e => return some (← expr scopes e)
def branches (scopes : List Facts) : List Branch → Except CompileError (List Branch)
  | [] => return []
  | ⟨c, r⟩ :: bs => return ⟨← expr scopes c, ← expr scopes r⟩ :: (← branches scopes bs)
def fields (scopes : List Facts) : List ResultField → Except CompileError (List ResultField)
  | [] => return []
  | ⟨e, a⟩ :: fs => return ⟨← expr scopes e, a⟩ :: (← fields scopes fs)
def orders (scopes : List Facts) : List OrderItem → Except CompileError (List OrderItem)
  | [] => return []
  | ⟨e, a⟩ :: os => return ⟨← expr scopes e, a⟩ :: (← orders scopes os)
def table (scopes : List Facts) : Table → Except CompileError Table
  | .named name label => return .named name label
  | .derived s label => return .derived (← select scopes true s) label
def optTable (scopes : List Facts) : Option Table → Except CompileError (Option Table)
  | none => return none
  | some t => return some (← table scopes t)
/-- The joins with what completes them. -/
def joins (scopes : List Facts) : List Join → List (Option Completion) → Except CompileError (List Join)
  | ⟨kind, t, condition, path⟩ :: js, some c :: cs => do
    let t ← table scopes t
    let here ← completed filter scopes ⟨kind, t, condition, path⟩ c
    return here ++ (← joins scopes js cs)
  | ⟨kind, t, condition, path⟩ :: js, cs => do
    let t ← table scopes t
    let condition ← optExpr scopes condition
    return ⟨kind, t, condition, path⟩ :: (← joins scopes js cs.tail)
  | [], _ => return []
def unions (scopes : List Facts) : List UnionPart → Except CompileError (List UnionPart)
  | [] => return []
  | ⟨all, s⟩ :: us => return ⟨all, ← select scopes true s⟩ :: (← unions scopes us)
/-- A select whose joins are completed. A path may name a source of the visible queries; what stands
inside an `isolated` select sees that select only. -/
def select (visible : List Facts) (isolated : Bool) : Select → Except CompileError Select
  | ⟨distinct, fs, source, js, criteria, grouping, having, ordering, limit, offset, us, facts⟩ => do
    let (cs, facts) ← completeAll schema visible facts js
    let scopes := facts :: if isolated then [] else visible
    let fs ← fields scopes fs
    let source ← optTable scopes source
    let js ← joins scopes js cs
    let criteria ← optExpr scopes criteria
    let grouping ← exprs scopes grouping
    let having ← optExpr scopes having
    let ordering ← orders scopes ordering
    let limit ← optExpr scopes limit
    let offset ← optExpr scopes offset
    let us ← unions scopes us
    return ⟨distinct, fs, source, js, criteria, grouping, having, ordering, limit, offset, us, facts⟩
end

end

/-- The joins in a filter, within a budget of nested filters. -/
def filter (schema : Schema) : Nat → List Facts → Expr → Except CompileError Expr
  | 0, _, _ => .error (.query .endlessFilters)
  | budget + 1, scopes, e => expr schema (filter schema budget) scopes e

/-- The number of joins that a filter can hold: its words `JOIN`. -/
def joinWords (text : String) : Nat :=
  match Token.scan text with
  | .ok tokens => (tokens.filter fun t => t.isKeyword "JOIN").length
  | .error _ => 0

/-- The number of joins that all filters of a schema can hold, and so of the links that can come into
sight inside them. -/
def linkBound (schema : Schema) : Nat :=
  schema.filters.foldl (fun n text => n + joinWords text) 0

/-- How deep filters nest at most in a completion that has an end. -/
def nestingBound (schema : Schema) : Nat :=
  schema.relationCount * (linkBound schema + 1) + 1

variable (schema : Schema) (budget : Nat)

def assignments (scopes : List Facts) : List Assignment → Except CompileError (List Assignment)
  | [] => return []
  | ⟨t, v⟩ :: as => do
    let t ← expr schema (filter schema budget) scopes t
    let v ← expr schema (filter schema budget) scopes v
    return ⟨t, v⟩ :: (← assignments scopes as)

def insertSource (scopes : List Facts) : InsertSource → Except CompileError InsertSource
  | .values rows => return .values (← exprs schema (filter schema budget) scopes rows)
  | .select s => return .select (← select schema (filter schema budget) scopes true s)

def insert (i : Insert) : Except CompileError Insert := do
  let scopes := [i.facts]
  let table ← table schema (filter schema budget) scopes i.table
  let columns ← exprs schema (filter schema budget) scopes i.columns
  let source ← insertSource schema budget scopes i.source
  let returning ← fields schema (filter schema budget) scopes i.returning
  return ⟨table, columns, source, returning, i.facts⟩

def update (u : Update) : Except CompileError Update := do
  let scopes := [u.facts]
  let table ← table schema (filter schema budget) scopes u.table
  let as ← assignments schema budget scopes u.assignments
  let criteria ← optExpr schema (filter schema budget) scopes u.criteria
  let ordering ← orders schema (filter schema budget) scopes u.ordering
  let limit ← optExpr schema (filter schema budget) scopes u.limit
  let offset ← optExpr schema (filter schema budget) scopes u.offset
  return ⟨table, as, criteria, ordering, limit, offset, u.facts⟩

def delete (d : Delete) : Except CompileError Delete := do
  let scopes := [d.facts]
  let table ← table schema (filter schema budget) scopes d.table
  let criteria ← optExpr schema (filter schema budget) scopes d.criteria
  let ordering ← orders schema (filter schema budget) scopes d.ordering
  let limit ← optExpr schema (filter schema budget) scopes d.limit
  let offset ← optExpr schema (filter schema budget) scopes d.offset
  return ⟨table, criteria, ordering, limit, offset, d.facts⟩

/-- The query with its joins completed. -/
def query : Query → Except CompileError Query
  | .select s => .select <$> select schema (filter schema (nestingBound schema)) [] false s
  | .insert i => .insert <$> insert schema (nestingBound schema) i
  | .update u => .update <$> update schema (nestingBound schema) u
  | .delete d => .delete <$> delete schema (nestingBound schema) d

end Joins

end EntitySql
