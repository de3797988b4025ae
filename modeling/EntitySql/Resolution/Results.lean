import EntitySql.Query.Print
import EntitySql.Typing

/-!
# Mapping result columns

The fifth pass. Wildcards over known sources become one field per leaf property, and every field of a
select or of `RETURNING` gets its output name, which is used once.
-/

namespace EntitySql

namespace Results

/-! ## Wildcards -/

/-- The field that reads a leaf property of a source. -/
def leaf (s : Source) (qualify : Bool) (path : String) (p : Property) : ResultField :=
  let value := if qualify then s.qualifier ++ "." ++ p.column else p.column
  let resolution : Resolution :=
    { ty := p.ty, nullable := p.nullable, entity := s.entity.map (·.name), property := some path }
  ⟨.ident { value, resolution := some resolution }, none⟩

mutual
/-- The fields that read a property of a source: its parts where it is embedded, else itself. -/
def leaves (s : Source) (qualify : Bool) (path : String) : Property → List ResultField
  | ⟨column, ty, nullable, []⟩ => [leaf s qualify path ⟨column, ty, nullable, []⟩]
  | ⟨_, _, _, part :: parts⟩ => partLeaves s qualify path (part :: parts)
/-- The fields that read the parts of the property at a path. -/
def partLeaves (s : Source) (qualify : Bool) (path : String) :
    List (String × Property) → List ResultField
  | [] => []
  | (name, p) :: ps => leaves s qualify (path ++ "." ++ name) p ++ partLeaves s qualify path ps
end

/-- The fields that read a whole source. -/
def ofSource (qualify : Bool) (s : Source) : List ResultField :=
  (s.properties.getD []).flatMap fun np => leaves s qualify np.1 np.2

/-- The sources that a wildcard means, and whether their columns are qualified. -/
def meant (sources : Sources) (i : Identifier) : Except QueryError (List Source × Bool) :=
  match i.qualifier? with
  | some q =>
    match sources.byQualifier? q with
    | some s => .ok ([s], true)
    | none => .error (.unknownAlias q)
  | none => .ok (sources.toList, decide (1 < sources.size))

/-- The fields that take the place of a wildcard. Other fields stay (`none`), and so does a wildcard
that covers a raw table. -/
def expansion (sources : Sources) (f : ResultField) : Except QueryError (Option (List ResultField)) :=
  match f.expr.asIdentifier? with
  | none => .ok none
  | some i =>
    if i.isWildcard then do
      let (ss, qualify) ← meant sources i
      return if ss.any Source.isRaw then none else some (ss.flatMap (ofSource qualify))
    else .ok none

/-- The expansions of all fields. -/
def expansions (sources : Sources) :
    List ResultField → Except QueryError (List (Option (List ResultField)))
  | [] => return []
  | f :: fs => return (← expansion sources f) :: (← expansions sources fs)

/-! ## Output names -/

/-- The output name and the label that the database returns. -/
def names (f : ResultField) : Except QueryError (String × String) :=
  match f.label with
  | some label => .ok (label, label)
  | none =>
    match f.expr.underlying? with
    | none => .error (.missingAlias f.expr.text)
    | some i => .ok ((i.resolution.bind (·.property)).getD i.name, i.name)

/-- `Entity.property` that an expression reads. -/
def origin (e : Expr) : Option String := do
  let i ← e.underlying?
  let r ← i.resolution
  let entity ← r.entity
  let property ← r.property
  return entity ++ "." ++ property

/-- The column of an expression under a label. -/
def column (scopes : List Facts) (label : String) (e : Expr) : ResultColumn :=
  match e.typed? scopes with
  | some t => ⟨label, some t.ty, t.nullable, origin e⟩
  | none => ⟨label, none, true, origin e⟩

/-- The facts with the result column of a field; a wildcard that stayed has none. -/
def register (visible : List Facts) (facts : Facts) (f : ResultField) : Except QueryError Facts :=
  if f.isWildcard then .ok facts
  else do
    let (name, label) ← names f
    facts.addResult name (column (facts :: visible) label f.expr)

def registerAll (visible : List Facts) (facts : Facts) : List ResultField → Except QueryError Facts
  | [] => .ok facts
  | f :: fs => do registerAll visible (← register visible facts f) fs

/-! ## All selects of a query -/

mutual
def expr (scopes : List Facts) : Expr → Except QueryError Expr
  | .ident i => return .ident i
  | .literal l => return .literal l
  | .marker m => return .marker m
  | .named m => return .named m
  | .call name distinct args => return .call name distinct (← exprs scopes args)
  | .list items => return .list (← exprs scopes items)
  | .arith op l r => return .arith op (← expr scopes l) (← expr scopes r)
  | .compare op l r => return .compare op (← expr scopes l) (← expr scopes r)
  | .logic op l r => return .logic op (← expr scopes l) (← expr scopes r)
  | .unary op e => return .unary op (← expr scopes e)
  | .case operand bs otherwise =>
    return .case (← optExpr scopes operand) (← branches scopes bs) (← optExpr scopes otherwise)
  | .subquery s => return .subquery (← select scopes s)
def exprs (scopes : List Facts) : List Expr → Except QueryError (List Expr)
  | [] => return []
  | e :: es => return (← expr scopes e) :: (← exprs scopes es)
def optExpr (scopes : List Facts) : Option Expr → Except QueryError (Option Expr)
  | none => return none
  | some e => return some (← expr scopes e)
def branches (scopes : List Facts) : List Branch → Except QueryError (List Branch)
  | [] => return []
  | ⟨c, r⟩ :: bs => return ⟨← expr scopes c, ← expr scopes r⟩ :: (← branches scopes bs)
/-- The fields with their expansions in place of wildcards, and the facts with their columns. -/
def fields (visible : List Facts) (facts : Facts) :
    List ResultField → List (Option (List ResultField)) → Except QueryError (List ResultField × Facts)
  | _ :: fs, some expanded :: xs => do
    let facts ← registerAll visible facts expanded
    let (fs, facts) ← fields visible facts fs xs
    return (expanded ++ fs, facts)
  | ⟨e, label⟩ :: fs, xs => do
    let e ← expr (facts :: visible) e
    let facts ← register visible facts ⟨e, label⟩
    let (fs, facts) ← fields visible facts fs xs.tail
    return (⟨e, label⟩ :: fs, facts)
  | [], _ => return ([], facts)
def orders (scopes : List Facts) : List OrderItem → Except QueryError (List OrderItem)
  | [] => return []
  | ⟨e, a⟩ :: os => return ⟨← expr scopes e, a⟩ :: (← orders scopes os)
def table : Table → Except QueryError Table
  | .named name label => return .named name label
  | .derived s label => return .derived (← select [] s) label
def optTable : Option Table → Except QueryError (Option Table)
  | none => return none
  | some t => return some (← table t)
def joins (scopes : List Facts) : List Join → Except QueryError (List Join)
  | [] => return []
  | ⟨kind, t, condition, path⟩ :: js =>
    return ⟨kind, ← table t, ← optExpr scopes condition, path⟩ :: (← joins scopes js)
def unions : List UnionPart → Except QueryError (List UnionPart)
  | [] => return []
  | ⟨all, s⟩ :: us => return ⟨all, ← select [] s⟩ :: (← unions us)
/-- A select with its result columns; `visible` are the queries around it whose sources it sees. -/
def select (visible : List Facts) : Select → Except QueryError Select
  | ⟨distinct, fs, source, js, criteria, grouping, having, ordering, limit, offset, us, facts⟩ => do
    let xs ← expansions facts.sources fs
    let (fs, facts) ← fields visible facts fs xs
    let scopes := facts :: visible
    let source ← optTable source
    let js ← joins scopes js
    let criteria ← optExpr scopes criteria
    let grouping ← exprs scopes grouping
    let having ← optExpr scopes having
    let ordering ← orders scopes ordering
    let limit ← optExpr scopes limit
    let offset ← optExpr scopes offset
    let us ← unions us
    return ⟨distinct, fs, source, js, criteria, grouping, having, ordering, limit, offset, us, facts⟩
end

def assignments (scopes : List Facts) : List Assignment → Except QueryError (List Assignment)
  | [] => return []
  | ⟨t, v⟩ :: as => return ⟨← expr scopes t, ← expr scopes v⟩ :: (← assignments scopes as)

def insertSource (scopes : List Facts) : InsertSource → Except QueryError InsertSource
  | .values rows => return .values (← exprs scopes rows)
  | .select s => return .select (← select [] s)

def insert (i : Insert) : Except QueryError Insert := do
  let xs ← expansions i.facts.sources i.returning
  let table ← table i.table
  let columns ← exprs [i.facts] i.columns
  let source ← insertSource [i.facts] i.source
  let (returning, facts) ← fields [] i.facts i.returning xs
  return ⟨table, columns, source, returning, facts⟩

def update (u : Update) : Except QueryError Update := do
  let scopes := [u.facts]
  let table ← table u.table
  let as ← assignments scopes u.assignments
  let criteria ← optExpr scopes u.criteria
  let ordering ← orders scopes u.ordering
  let limit ← optExpr scopes u.limit
  let offset ← optExpr scopes u.offset
  return ⟨table, as, criteria, ordering, limit, offset, u.facts⟩

def delete (d : Delete) : Except QueryError Delete := do
  let scopes := [d.facts]
  let table ← table d.table
  let criteria ← optExpr scopes d.criteria
  let ordering ← orders scopes d.ordering
  let limit ← optExpr scopes d.limit
  let offset ← optExpr scopes d.offset
  return ⟨table, criteria, ordering, limit, offset, d.facts⟩

/-- The query with its result columns. -/
def query : Query → Except QueryError Query
  | .select s => .select <$> select [] s
  | .insert i => .insert <$> insert i
  | .update u => .update <$> update u
  | .delete d => .delete <$> delete d

end Results

end EntitySql
