import EntitySql.Walk.Context

/-!
# Walking a query

Visitors see every node of a query twice, before and after its parts, in the order of the text. A
visitor may pass over the parts of a node, put another node in its place, which is then visited
itself, note facts, or fail. A walk that fails leaves the tree with the replacements made so far.

While the parts of a query are walked its facts are not in the tree but in the context of the walk,
where visitors of the parts read them and note others. They are put back when the parts are done,
also where one of them failed.

A replacement may be replaced again, and so may its parts. `Query.walk` takes a bound on how deep
this goes.
-/

namespace EntitySql

/-- A node that takes the place of another. -/
inductive Replacement where
  | expr (e : Expr)
  | table (t : Table)
  | join (j : Join)
  | field (f : ResultField)
  | order (o : OrderItem)
  | assignment (a : Assignment)

def Replacement.kind : Replacement → NodeKind
  | expr e => e.kind
  | table _ => .table
  | join _ => .join
  | field _ => .field
  | order _ => .order
  | assignment _ => .assignment

/-- What a visitor wants of a walk. -/
inductive Action where
  | proceed
  /-- Pass over the parts of the node. -/
  | skip
  | replace (r : Replacement)

/-- Before or after the parts of a node. -/
inductive Phase where
  | enter
  | leave
  deriving DecidableEq, Repr, Inhabited

/-- What a visitor answers. -/
structure Reply (σ : Type) where
  action : Except CompileError Action
  state : σ
  /-- What it makes of the facts of the query whose parts are being walked. -/
  facts : Facts → Facts := id
  /-- What it makes of the facts of the outermost query. -/
  rootFacts : Facts → Facts := id

/-- The place with the facts that the answer leaves. -/
def Reply.noted {σ : Type} (r : Reply σ) (c : Context) : Context :=
  (c.mapFacts r.facts).mapRootFacts r.rootFacts

/-- A visitor with a state that outlives its visits. -/
structure Visitor (σ : Type) where
  name : String
  /-- The kinds of nodes it is called for, once for each time a kind is listed. -/
  kinds : List NodeKind
  visit : Phase → Context → Node → σ → Reply σ

/-- How far a walk is. -/
structure Progress (σ : Type) where
  state : σ
  context : Context := {}
  /-- Why it failed. What comes after a failure is left as it is. -/
  failure : Option CompileError := none

abbrev Walk (σ : Type) := StateM (Progress σ)

/-- A sort of places in a tree: how a visitor sees what is there, and what may take its place. -/
structure PlaceSort (α : Type) where
  node : α → Node
  fit? : Replacement → Option α := fun _ => none

namespace PlaceSort

def select : PlaceSort Select := { node := .select }
def insert : PlaceSort Insert := { node := .insert }
def update : PlaceSort Update := { node := .update }
def delete : PlaceSort Delete := { node := .delete }
def branch : PlaceSort Branch := { node := .branch }

def table : PlaceSort Table where
  node := .table
  fit?
    | .table t => some t
    | _ => none

def join : PlaceSort Join where
  node := .join
  fit?
    | .join j => some j
    | _ => none

def field : PlaceSort ResultField where
  node := .field
  fit?
    | .field f => some f
    | _ => none

def order : PlaceSort OrderItem where
  node := .order
  fit?
    | .order o => some o
    | _ => none

def assignment : PlaceSort Assignment where
  node := .assignment
  fit?
    | .assignment a => some a
    | _ => none

def expr : PlaceSort Expr where
  node := .expr
  fit?
    | .expr e => some e
    | _ => none

end PlaceSort

/-- The walks of the nodes that take the place of others. -/
structure Revisit (σ : Type) where
  expr : Expr → Walk σ Expr
  table : Table → Walk σ Table
  join : Join → Walk σ Join
  field : ResultField → Walk σ ResultField
  order : OrderItem → Walk σ OrderItem
  assignment : Assignment → Walk σ Assignment

namespace Walk

variable {σ α : Type}

/-! ## Steps -/

/-- Ends the walk. -/
def fail (e : CompileError) : Walk σ Unit := modify fun p => { p with failure := some e }

/-- Ends the walk because its stacks do not fit the tree. -/
def unbalanced (cause : String) : Walk σ Unit := fail (.internal (.unbalancedWalk cause))

/-- Leaves the node at which the walk is. -/
def popFrame : Walk σ Unit := do
  let p ← get
  match p.context.frames with
  | _ :: frames => set { p with context := { p.context with frames } }
  | [] => unbalanced "frame stack empty"

/-- The walk of a child of the node at which the walk is. -/
def placed (slot : String) (index : Nat) (siblings : List NodeKind) (kind : NodeKind) (a : α)
    (w : Walk σ α) : Walk σ α := do
  if (← get).failure.isSome then return a
  modify fun p => { p with context := p.context.child slot index siblings kind }
  let a ← w
  if (← get).failure.isSome then return a
  popFrame
  return a

/-- The walk of an only child. -/
def only (slot : String) (kind : NodeKind) (a : α) (w : Walk σ α) : Walk σ α :=
  placed slot 0 [kind] kind a w

/-- The facts of the query whose parts are done, taken from the context. -/
def popScope : Walk σ Facts := do
  let p ← get
  match p.context.scopes with
  | s :: scopes =>
    set { p with context := { p.context with scopes } }
    return s.facts
  | [] =>
    unbalanced "scope stack empty"
    return {}

/-- The walk of a query whose parts are walked by `parts`. Its facts are in the context meanwhile, and `parts`
gives what it is but for them. -/
def within (facts : Facts) (isolated : Bool) (parts : Walk σ (Facts → α)) : Walk σ α := do
  modify fun p => { p with context := p.context.inside facts isolated }
  let whole ← parts
  return whole (← popScope)

/-! ## Visits -/

/-- The wish of the visitors together: the first replacement, else to skip where one of them does.
None where one of them fails. -/
def consult (phase : Phase) (n : Node) (outcome : Action) : List (Visitor σ) → Walk σ (Option Action)
  | [] => return some outcome
  | v :: vs => do
    let p ← get
    let r := v.visit phase p.context n p.state
    set { p with state := r.state, context := r.noted p.context }
    match r.action with
    | .error e =>
      fail e
      return none
    | .ok (.replace new) => return some (.replace new)
    | .ok .skip => consult phase n .skip vs
    | .ok .proceed => consult phase n outcome vs

/-- The calls that visitors get for a node of a kind, in order. -/
def calls (vs : List (Visitor σ)) (kind : NodeKind) : List (Visitor σ) :=
  vs.flatMap fun v => (v.kinds.filter (· == kind)).map fun _ => v

def dispatch (vs : List (Visitor σ)) (phase : Phase) (n : Node) : Walk σ (Option Action) :=
  consult phase n .proceed (calls vs n.kind)

/-- Puts a node in the place of `a` and walks it; only nodes of the same sort fit. -/
def substitute (sort : PlaceSort α) (revisit : α → Walk σ α) (a : α) (r : Replacement) : Walk σ α :=
  match sort.fit? r with
  | some b => revisit b
  | none => do
    fail (.internal (.mismatchedReplacement (sort.node a).kind.name r.kind.name))
    return a

/-- The end of the visit of a node whose parts are done. -/
def leave (vs : List (Visitor σ)) (sort : PlaceSort α) (revisit : α → Walk σ α) (a : α) : Walk σ α := do
  if (← get).failure.isSome then return a
  match ← dispatch vs .leave (sort.node a) with
  | some (.replace r) => substitute sort revisit a r
  | _ => return a

/-- The visit of a node whose parts are walked by `parts`. -/
def visit (vs : List (Visitor σ)) (sort : PlaceSort α) (revisit : α → Walk σ α) (a : α)
    (parts : Walk σ α) : Walk σ α := do
  modify fun p => { p with context := p.context.withKind (sort.node a).kind }
  match ← dispatch vs .enter (sort.node a) with
  | none => return a
  | some (.replace r) => substitute sort revisit a r
  | some .skip => leave vs sort revisit a
  | some .proceed => do
    let a ← parts
    leave vs sort revisit a

/-- The walk of what is never replaced. -/
def fixed (a : α) : Walk σ α := return a

/-! ## Nodes -/

section

variable (vs : List (Visitor σ)) (r : Revisit σ)

mutual
def expr : Expr → Walk σ Expr
  | .ident i => visit vs .expr r.expr (.ident i) (return .ident i)
  | .literal l => visit vs .expr r.expr (.literal l) (return .literal l)
  | .marker m => visit vs .expr r.expr (.marker m) (return .marker m)
  | .named m => visit vs .expr r.expr (.named m) (return .named m)
  | .call name distinct args => visit vs .expr r.expr (.call name distinct args) do
    return .call name distinct (← exprs "args" (args.map Expr.kind) 0 args)
  | .list items => visit vs .expr r.expr (.list items) do
    return .list (← exprs "items" (items.map Expr.kind) 0 items)
  | .arith op x y => visit vs .expr r.expr (.arith op x y) do
    return .arith op (← only "left" x.kind x (expr x)) (← only "right" y.kind y (expr y))
  | .compare op x y => visit vs .expr r.expr (.compare op x y) do
    return .compare op (← only "left" x.kind x (expr x)) (← only "right" y.kind y (expr y))
  | .logic op x y => visit vs .expr r.expr (.logic op x y) do
    return .logic op (← only "left" x.kind x (expr x)) (← only "right" y.kind y (expr y))
  | .unary op e => visit vs .expr r.expr (.unary op e) do
    return .unary op (← only "operand" e.kind e (expr e))
  | .case operand bs otherwise => visit vs .expr r.expr (.case operand bs otherwise) do
    let operand ← optExpr "operand" operand
    let bs ← branches (bs.map fun _ => .branch) 0 bs
    let otherwise ← optExpr "otherwise" otherwise
    return .case operand bs otherwise
  | .subquery s => visit vs .expr r.expr (.subquery s) do
    return .subquery (← only "select" .select s (select false s))
def exprs (slot : String) (siblings : List NodeKind) (index : Nat) : List Expr → Walk σ (List Expr)
  | [] => return []
  | e :: es => do
    let e ← placed slot index siblings e.kind e (expr e)
    return e :: (← exprs slot siblings (index + 1) es)
def optExpr (slot : String) : Option Expr → Walk σ (Option Expr)
  | none => return none
  | some e => return some (← only slot e.kind e (expr e))
def branch : Branch → Walk σ Branch
  | ⟨x, y⟩ => visit vs .branch fixed ⟨x, y⟩ do
    return ⟨← only "when" x.kind x (expr x), ← only "then" y.kind y (expr y)⟩
def branches (siblings : List NodeKind) (index : Nat) : List Branch → Walk σ (List Branch)
  | [] => return []
  | b :: bs => do
    let b ← placed "branches" index siblings .branch b (branch b)
    return b :: (← branches siblings (index + 1) bs)
def field : ResultField → Walk σ ResultField
  | ⟨e, label⟩ => visit vs .field r.field ⟨e, label⟩ do
    return ⟨← only "expression" e.kind e (expr e), label⟩
def fields (slot : String) (siblings : List NodeKind) (index : Nat) :
    List ResultField → Walk σ (List ResultField)
  | [] => return []
  | f :: fs => do
    let f ← placed slot index siblings .field f (field f)
    return f :: (← fields slot siblings (index + 1) fs)
def order : OrderItem → Walk σ OrderItem
  | ⟨e, ascending⟩ => visit vs .order r.order ⟨e, ascending⟩ do
    return ⟨← only "expression" e.kind e (expr e), ascending⟩
def orders (siblings : List NodeKind) (index : Nat) : List OrderItem → Walk σ (List OrderItem)
  | [] => return []
  | o :: os => do
    let o ← placed "order_by" index siblings .order o (order o)
    return o :: (← orders siblings (index + 1) os)
def table : Table → Walk σ Table
  | .named name label => visit vs .table r.table (.named name label) (return .named name label)
  | .derived s label => visit vs .table r.table (.derived s label) do
    return .derived (← only "source" .select s (select true s)) label
def optTable : Option Table → Walk σ (Option Table)
  | none => return none
  | some t => return some (← only "from" .table t (table t))
def join : Join → Walk σ Join
  | ⟨kind, t, condition, path⟩ => visit vs .join r.join ⟨kind, t, condition, path⟩ do
    let t ← only "table" .table t (table t)
    let condition ← optExpr "condition" condition
    return ⟨kind, t, condition, path⟩
def joins (siblings : List NodeKind) (index : Nat) : List Join → Walk σ (List Join)
  | [] => return []
  | j :: js => do
    let j ← placed "joins" index siblings .join j (join j)
    return j :: (← joins siblings (index + 1) js)
def unions (siblings : List NodeKind) (index : Nat) : List UnionPart → Walk σ (List UnionPart)
  | [] => return []
  | ⟨all, s⟩ :: us => do
    let s ← placed "unions" index siblings .select s (select true s)
    return ⟨all, s⟩ :: (← unions siblings (index + 1) us)
def select (isolated : Bool) : Select → Walk σ Select
  | ⟨distinct, fs, source, js, criteria, grouping, having, ordering, limit, offset, us, facts⟩ =>
    visit vs .select fixed
      ⟨distinct, fs, source, js, criteria, grouping, having, ordering, limit, offset, us, facts⟩ <|
      within facts isolated do
        let fs ← fields "fields" (fs.map fun _ => .field) 0 fs
        let source ← optTable source
        let js ← joins (js.map fun _ => .join) 0 js
        let criteria ← optExpr "criteria" criteria
        let grouping ← exprs "group_by" (grouping.map Expr.kind) 0 grouping
        let having ← optExpr "having" having
        let ordering ← orders (ordering.map fun _ => .order) 0 ordering
        let limit ← optExpr "limit" limit
        let offset ← optExpr "offset" offset
        let us ← unions (us.map fun _ => .select) 0 us
        return fun facts =>
          ⟨distinct, fs, source, js, criteria, grouping, having, ordering, limit, offset, us, facts⟩
end

def assignment : Assignment → Walk σ Assignment
  | ⟨t, v⟩ => visit vs .assignment r.assignment ⟨t, v⟩ do
    let t ← only "target" t.kind t (expr vs r t)
    let v ← only "value" v.kind v (expr vs r v)
    return ⟨t, v⟩

def assignments (siblings : List NodeKind) (index : Nat) : List Assignment → Walk σ (List Assignment)
  | [] => return []
  | a :: as => do
    let a ← placed "assignments" index siblings .assignment a (assignment vs r a)
    return a :: (← assignments siblings (index + 1) as)

def insertSource : InsertSource → Walk σ InsertSource
  | .values rows => return .values (← exprs vs r "values" (rows.map Expr.kind) 0 rows)
  | .select s => return .select (← only "select" .select s (select vs r true s))

def insert (i : Insert) : Walk σ Insert :=
  visit vs .insert fixed i <| within i.facts false do
    let t ← only "table" .table i.table (table vs r i.table)
    let columns ← exprs vs r "columns" (i.columns.map Expr.kind) 0 i.columns
    let source ← insertSource vs r i.source
    let returning ← fields vs r "returning" (i.returning.map fun _ => .field) 0 i.returning
    return fun facts => ⟨t, columns, source, returning, facts⟩

def update (u : Update) : Walk σ Update :=
  visit vs .update fixed u <| within u.facts false do
    let t ← only "table" .table u.table (table vs r u.table)
    let as ← assignments vs r (u.assignments.map fun _ => .assignment) 0 u.assignments
    let criteria ← optExpr vs r "criteria" u.criteria
    let ordering ← orders vs r (u.ordering.map fun _ => .order) 0 u.ordering
    let limit ← optExpr vs r "limit" u.limit
    let offset ← optExpr vs r "offset" u.offset
    return fun facts => ⟨t, as, criteria, ordering, limit, offset, facts⟩

def delete (d : Delete) : Walk σ Delete :=
  visit vs .delete fixed d <| within d.facts false do
    let t ← only "table" .table d.table (table vs r d.table)
    let criteria ← optExpr vs r "criteria" d.criteria
    let ordering ← orders vs r (d.ordering.map fun _ => .order) 0 d.ordering
    let limit ← optExpr vs r "limit" d.limit
    let offset ← optExpr vs r "offset" d.offset
    return fun facts => ⟨t, criteria, ordering, limit, offset, facts⟩

def query : Query → Walk σ Query
  | .select s => .select <$> only "root" .select s (select vs r false s)
  | .insert i => .insert <$> only "root" .insert i (insert vs r i)
  | .update u => .update <$> only "root" .update u (update vs r u)
  | .delete d => .delete <$> only "root" .delete d (delete vs r d)

end

/-! ## Whole queries -/

/-- Refuses a replacement that lies too deep in others. -/
def tooDeep (a : α) : Walk σ α := do
  unbalanced "replacements nest without end"
  return a

/-- The walks of replacements that lie in at most `n - 1` others. -/
def revisitUpTo (vs : List (Visitor σ)) : Nat → Revisit σ
  | 0 => ⟨tooDeep, tooDeep, tooDeep, tooDeep, tooDeep, tooDeep⟩
  | n + 1 =>
    let r := revisitUpTo vs n
    ⟨expr vs r, table vs r, join vs r, field vs r, order vs r, assignment vs r⟩

/-- Refuses to end inside a node or a query. -/
def finish : Walk σ Unit := do
  let p ← get
  if p.failure.isNone && !p.context.isBalanced then unbalanced "stacks not empty after walk"

end Walk

/-- What a walk leaves. -/
structure Walked (σ : Type) where
  query : Query
  failure : Option CompileError
  state : σ

/-- The walk of visitors over a query. Replacements lie at most `depth` deep in others. -/
def Query.walk {σ : Type} (q : Query) (vs : List (Visitor σ)) (depth : Nat) (state : σ) : Walked σ :=
  let walk : Walk σ Query := do
    let q ← Walk.query vs (Walk.revisitUpTo vs depth) q
    Walk.finish
    return q
  let (q, p) := walk.run { state }
  ⟨q, p.failure, p.state⟩

end EntitySql
