import EntitySql.Query.Tree

/-!
# Numbering parameters

The sixth pass. In the order of the text, every marker gets the ordinal of its native placeholder
and a slot on the outermost query. A marker that is compared with a field, assigned to one or
inserted into one takes its type. Named markers become anonymous ones that remember the name. Values
known when the query is compiled fix their slots.
-/

namespace EntitySql

/-- The marker with the type of the field it is used with, unless it has one. -/
def Marker.typedBy (m : Marker) : Option Resolution → Marker
  | some r => { m with ty := m.ty.or (some r.ty), nullable := m.nullable.or (some r.nullable) }
  | none => m

/-- The named marker with the type of the field it is used with, unless it has one. -/
def NamedMarker.typedBy (m : NamedMarker) : Option Resolution → NamedMarker
  | some r => { m with ty := m.ty.or (some r.ty) }
  | none => m

/-- The key under which a caller supplies a marker's value. -/
def Marker.key? (m : Marker) : Option ParameterKey :=
  match m.replaces, m.position with
  | some name, _ => some (.name name)
  | none, some position => some (.position position)
  | none, none => none

/-- The value that known literals give a marker. A name without a value is refused. -/
def Marker.known (m : Marker) (literals : Bindings) : Except QueryError (Option Value) :=
  match m.key? with
  | some (.name name) =>
    match literals.get? (.name name) with
    | some v => .ok (some v)
    | none => .error (.unmatchedNamedParameter name)
  | some (.position i) => .ok (literals.get? (.position i))
  | none => .ok none

/-- The marker with the value that known literals give it. -/
def Marker.fill (m : Marker) (literals : Option Bindings) : Except QueryError Marker :=
  match m.value, literals with
  | none, some b => return { m with value := ← m.known b }
  | _, _ => return m

/-- The slot of a marker. -/
def Marker.slot (m : Marker) : Except QueryError Slot :=
  match m.value, m.key? with
  | some v, _ => .ok (.fixed v (m.ty.or (some (.ofValue v))))
  | none, some key => .ok (.required key m.ty)
  | none, none => .error (.queryConstruction "parameter without name, position or value")

/-- The resolution of the identifier in an expression, which types the markers beside it. -/
def Expr.hint (e : Expr) : Option Resolution := e.underlying?.bind (·.resolution)

namespace Parameters

/-- A step of the numbering. The state holds the slots of the outermost query so far. -/
abbrev Numbering := StateT (List Slot) (Except QueryError)

/-- The marker with its ordinal. One that has an ordinal keeps it and takes no further slot. -/
def number (literals : Option Bindings) (m : Marker) : Numbering Marker := do
  if m.ordinal.isSome then return m
  else
    let m ← m.fill literals
    let slot ← m.slot
    let slots ← get
    set (slots ++ [slot])
    return { m with ordinal := some slots.length }

mutual
/-- The expression with its markers numbered. The hint types the markers it consists of, alone or in a
list. -/
def expr (literals : Option Bindings) (hint : Option Resolution) : Expr → Numbering Expr
  | .ident i => return .ident i
  | .literal l => return .literal l
  | .marker m => return .marker (← number literals (m.typedBy hint))
  | .named m => return .marker (← number literals (.replacing (m.typedBy hint)))
  | .call name distinct args => return .call name distinct (← exprs literals none args)
  | .list items => return .list (← exprs literals hint items)
  | .arith op l r => return .arith op (← expr literals r.hint l) (← expr literals l.hint r)
  | .compare op l r => return .compare op (← expr literals r.hint l) (← expr literals l.hint r)
  | .logic op l r => return .logic op (← expr literals r.hint l) (← expr literals l.hint r)
  | .unary op e => return .unary op (← expr literals none e)
  | .case operand bs otherwise =>
    return .case (← optExpr literals operand) (← branches literals bs) (← optExpr literals otherwise)
  | .subquery s => return .subquery (← select literals s)
def exprs (literals : Option Bindings) (hint : Option Resolution) : List Expr → Numbering (List Expr)
  | [] => return []
  | e :: es => return (← expr literals hint e) :: (← exprs literals hint es)
def optExpr (literals : Option Bindings) : Option Expr → Numbering (Option Expr)
  | none => return none
  | some e => return some (← expr literals none e)
def branches (literals : Option Bindings) : List Branch → Numbering (List Branch)
  | [] => return []
  | ⟨c, r⟩ :: bs =>
    return ⟨← expr literals none c, ← expr literals none r⟩ :: (← branches literals bs)
def fields (literals : Option Bindings) : List ResultField → Numbering (List ResultField)
  | [] => return []
  | ⟨e, a⟩ :: fs => return ⟨← expr literals none e, a⟩ :: (← fields literals fs)
def orders (literals : Option Bindings) : List OrderItem → Numbering (List OrderItem)
  | [] => return []
  | ⟨e, a⟩ :: os => return ⟨← expr literals none e, a⟩ :: (← orders literals os)
def table (literals : Option Bindings) : Table → Numbering Table
  | .named name label => return .named name label
  | .derived s label => return .derived (← select literals s) label
def optTable (literals : Option Bindings) : Option Table → Numbering (Option Table)
  | none => return none
  | some t => return some (← table literals t)
def joins (literals : Option Bindings) : List Join → Numbering (List Join)
  | [] => return []
  | ⟨kind, t, condition, path⟩ :: js =>
    return ⟨kind, ← table literals t, ← optExpr literals condition, path⟩ :: (← joins literals js)
def unions (literals : Option Bindings) : List UnionPart → Numbering (List UnionPart)
  | [] => return []
  | ⟨all, s⟩ :: us => return ⟨all, ← select literals s⟩ :: (← unions literals us)
/-- A select with its markers numbered. Its own literals hide those of the queries around it. -/
def select (outer : Option Bindings) : Select → Numbering Select
  | ⟨distinct, fs, source, js, criteria, grouping, having, ordering, limit, offset, us, facts⟩ => do
    let literals := facts.literals.or outer
    let fs ← fields literals fs
    let source ← optTable literals source
    let js ← joins literals js
    let criteria ← optExpr literals criteria
    let grouping ← exprs literals none grouping
    let having ← optExpr literals having
    let ordering ← orders literals ordering
    let limit ← optExpr literals limit
    let offset ← optExpr literals offset
    let us ← unions literals us
    return ⟨distinct, fs, source, js, criteria, grouping, having, ordering, limit, offset, us, facts⟩
end

/-- The items of a row, each typed by its column. -/
def rowItems (literals : Option Bindings) : List Expr → List Expr → Numbering (List Expr)
  | c :: cs, e :: es => return (← expr literals c.hint e) :: (← rowItems literals cs es)
  | [], es => exprs literals none es
  | _, [] => return []

/-- A row of values; its items are typed by the columns. -/
def row (literals : Option Bindings) (columns : List Expr) : Expr → Numbering Expr
  | .list items => return .list (← rowItems literals columns items)
  | e => expr literals none e

def rows (literals : Option Bindings) (columns : List Expr) : List Expr → Numbering (List Expr)
  | [] => return []
  | r :: rs => return (← row literals columns r) :: (← rows literals columns rs)

def assignments (literals : Option Bindings) : List Assignment → Numbering (List Assignment)
  | [] => return []
  | ⟨t, v⟩ :: as =>
    return ⟨← expr literals none t, ← expr literals t.hint v⟩ :: (← assignments literals as)

def insertSource (literals : Option Bindings) (columns : List Expr) :
    InsertSource → Numbering InsertSource
  | .values rs => return .values (← rows literals columns rs)
  | .select s => return .select (← select literals s)

def insert (i : Insert) : Numbering Insert := do
  let literals := i.facts.literals
  let table ← table literals i.table
  let columns ← exprs literals none i.columns
  let source ← insertSource literals i.columns i.source
  let returning ← fields literals i.returning
  return ⟨table, columns, source, returning, i.facts⟩

def update (u : Update) : Numbering Update := do
  let literals := u.facts.literals
  let table ← table literals u.table
  let as ← assignments literals u.assignments
  let criteria ← optExpr literals u.criteria
  let ordering ← orders literals u.ordering
  let limit ← optExpr literals u.limit
  let offset ← optExpr literals u.offset
  return ⟨table, as, criteria, ordering, limit, offset, u.facts⟩

def delete (d : Delete) : Numbering Delete := do
  let literals := d.facts.literals
  let table ← table literals d.table
  let criteria ← optExpr literals d.criteria
  let ordering ← orders literals d.ordering
  let limit ← optExpr literals d.limit
  let offset ← optExpr literals d.offset
  return ⟨table, criteria, ordering, limit, offset, d.facts⟩

def statement : Query → Numbering Query
  | .select s => .select <$> select none s
  | .insert i => .insert <$> insert i
  | .update u => .update <$> update u
  | .delete d => .delete <$> delete d

/-- The query with its markers numbered and their slots noted on it. -/
def query (q : Query) : Except QueryError Query := do
  let (q, slots) ← (statement q).run q.facts.slots
  return q.withFacts { q.facts with slots }

end Parameters

end EntitySql
