import Mathlib
import EntitySql.Query.Tree

/-!
# Gathering from query trees

A `Collector` says what each marker and each query contributes; `collect` lists the contributions of
a tree in the order of its text. What a dialect changes of that order is part of the collector: how
the parts of a limit and an offset are put together, and what is left of a `RETURNING` clause.

* `markers`: the markers of a query, anonymous and named.
* `scopes`: the facts of a query and of all selects inside it.
* `Query.collect_related`: a relation that holds between the single contributions of two collectors
  holds between all that they gather.
-/

namespace EntitySql

/-- A marker of a query. -/
inductive Mark where
  | anonymous (m : Marker)
  | named (m : NamedMarker)
  deriving DecidableEq

/-- The ordinal of the marker's native placeholder. -/
def Mark.ordinal? : Mark → Option Nat
  | anonymous m => m.ordinal
  | named _ => none

/-- What is gathered from the nodes of a tree. -/
structure Collector (α : Type) where
  marker : Marker → List α := fun _ => []
  named : NamedMarker → List α := fun _ => []
  facts : Facts → List α := fun _ => []
  /-- How the contributions of a limit and an offset are put together. -/
  paging : List α → List α → List α := fun limit offset => limit ++ offset
  /-- What is left of the contributions of returned fields. -/
  returned : List α → List α := fun fields => fields

variable {α β : Type} (k : Collector α)

mutual
def Expr.collect : Expr → List α
  | .ident _ | .literal _ => []
  | .marker m => k.marker m
  | .named m => k.named m
  | .call _ _ args => collectExprs args
  | .list items => collectExprs items
  | .arith _ l r | .compare _ l r | .logic _ l r => l.collect ++ r.collect
  | .unary _ e => e.collect
  | .case operand bs otherwise => collectOpt operand ++ collectBranches bs ++ collectOpt otherwise
  | .subquery s => s.collect
def collectExprs : List Expr → List α
  | [] => []
  | e :: es => e.collect ++ collectExprs es
def collectOpt : Option Expr → List α
  | none => []
  | some e => e.collect
def collectBranches : List Branch → List α
  | [] => []
  | ⟨c, r⟩ :: bs => c.collect ++ r.collect ++ collectBranches bs
def collectFields : List ResultField → List α
  | [] => []
  | ⟨e, _⟩ :: fs => e.collect ++ collectFields fs
def collectOrders : List OrderItem → List α
  | [] => []
  | ⟨e, _⟩ :: os => e.collect ++ collectOrders os
def Table.collect : Table → List α
  | .named _ _ => []
  | .derived s _ => s.collect
def collectOptTable : Option Table → List α
  | none => []
  | some t => t.collect
def collectJoins : List Join → List α
  | [] => []
  | ⟨_, t, condition, _⟩ :: js => t.collect ++ collectOpt condition ++ collectJoins js
def collectUnions : List UnionPart → List α
  | [] => []
  | ⟨_, s⟩ :: us => s.collect ++ collectUnions us
def Select.collect : Select → List α
  | ⟨_, fields, source, joins, criteria, grouping, having, ordering, limit, offset, unions, facts⟩ =>
    k.facts facts ++ collectFields fields ++ collectOptTable source ++ collectJoins joins
      ++ collectOpt criteria ++ collectExprs grouping ++ collectOpt having ++ collectOrders ordering
      ++ k.paging (collectOpt limit) (collectOpt offset) ++ collectUnions unions
end

def collectAssignments : List Assignment → List α
  | [] => []
  | ⟨t, v⟩ :: as => t.collect k ++ v.collect k ++ collectAssignments as

def InsertSource.collect : InsertSource → List α
  | .values rows => collectExprs k rows
  | .select s => s.collect k

def Insert.collect (i : Insert) : List α :=
  k.facts i.facts ++ i.table.collect k ++ collectExprs k i.columns ++ i.source.collect k
    ++ k.returned (collectFields k i.returning)

def Update.collect (u : Update) : List α :=
  k.facts u.facts ++ u.table.collect k ++ collectAssignments k u.assignments ++ collectOpt k u.criteria
    ++ collectOrders k u.ordering ++ k.paging (collectOpt k u.limit) (collectOpt k u.offset)

def Delete.collect (d : Delete) : List α :=
  k.facts d.facts ++ d.table.collect k ++ collectOpt k d.criteria ++ collectOrders k d.ordering
    ++ k.paging (collectOpt k d.limit) (collectOpt k d.offset)

/-- The contributions of a query, in order. -/
def Query.collect : Query → List α
  | .select s => s.collect k
  | .insert i => i.collect k
  | .update u => u.collect k
  | .delete d => d.collect k

variable {k}

/-! ## Lists of parts -/

theorem collectExprs_eq : ∀ es, collectExprs k es = es.flatMap (Expr.collect k)
  | [] => rfl
  | e :: es => by rw [collectExprs, collectExprs_eq es, List.flatMap_cons]

theorem collectBranches_eq : ∀ bs : List Branch,
    collectBranches k bs = bs.flatMap fun b => b.condition.collect k ++ b.result.collect k
  | [] => rfl
  | ⟨c, r⟩ :: bs => by rw [collectBranches, collectBranches_eq bs, List.flatMap_cons]

theorem collectFields_eq : ∀ fs, collectFields k fs = fs.flatMap fun f => f.expr.collect k
  | [] => rfl
  | ⟨e, a⟩ :: fs => by rw [collectFields, collectFields_eq fs, List.flatMap_cons]

theorem collectOrders_eq : ∀ os, collectOrders k os = os.flatMap fun o => o.expr.collect k
  | [] => rfl
  | ⟨e, a⟩ :: os => by rw [collectOrders, collectOrders_eq os, List.flatMap_cons]

theorem collectJoins_eq : ∀ js : List Join,
    collectJoins k js = js.flatMap fun j => j.table.collect k ++ collectOpt k j.condition
  | [] => rfl
  | ⟨_, t, c, _⟩ :: js => by rw [collectJoins, collectJoins_eq js, List.flatMap_cons]

theorem collectUnions_eq : ∀ us : List UnionPart,
    collectUnions k us = us.flatMap fun u => u.select.collect k
  | [] => rfl
  | ⟨_, s⟩ :: us => by rw [collectUnions, collectUnions_eq us, List.flatMap_cons]

theorem collectAssignments_eq : ∀ as : List Assignment,
    collectAssignments k as = as.flatMap fun a => a.target.collect k ++ a.value.collect k
  | [] => rfl
  | ⟨t, v⟩ :: as => by rw [collectAssignments, collectAssignments_eq as, List.flatMap_cons]

theorem collectFields_append (xs ys : List ResultField) :
    collectFields k (xs ++ ys) = collectFields k xs ++ collectFields k ys := by
  simp only [collectFields_eq, List.flatMap_append]

theorem collectJoins_append (xs ys : List Join) :
    collectJoins k (xs ++ ys) = collectJoins k xs ++ collectJoins k ys := by
  simp only [collectJoins_eq, List.flatMap_append]

/-! ## Two collectors over the same trees -/

/-- A relation between what two collectors gather that holds of each single contribution and is kept
when contributions are put together. -/
structure Collector.Related (R : List α → List β → Prop) (k : Collector α) (k' : Collector β) :
    Prop where
  nil : R [] []
  append : ∀ {as bs as' bs'}, R as bs → R as' bs' → R (as ++ as') (bs ++ bs')
  marker : ∀ m, R (k.marker m) (k'.marker m)
  named : ∀ m, R (k.named m) (k'.named m)
  facts : ∀ f, R (k.facts f) (k'.facts f)
  paging : ∀ {as bs as' bs'}, R as bs → R as' bs' → R (k.paging as as') (k'.paging bs bs')
  returned : ∀ {as bs}, R as bs → R (k.returned as) (k'.returned bs)

section Related

variable {R : List α → List β → Prop} {k' : Collector β} (h : k.Related R k')

include h

set_option linter.unusedSectionVars false

mutual
theorem Expr.collect_related : ∀ e : Expr, R (e.collect k) (e.collect k')
  | .ident _ | .literal _ => h.nil
  | .marker m => h.marker m
  | .named m => h.named m
  | .call _ _ args => collectExprs_related args
  | .list items => collectExprs_related items
  | .arith _ l r | .compare _ l r | .logic _ l r =>
    h.append (Expr.collect_related l) (Expr.collect_related r)
  | .unary _ e => Expr.collect_related e
  | .case o bs e =>
    h.append (h.append (collectOpt_related o) (collectBranches_related bs)) (collectOpt_related e)
  | .subquery s => Select.collect_related s
theorem collectExprs_related : ∀ es, R (collectExprs k es) (collectExprs k' es)
  | [] => h.nil
  | e :: es => h.append (Expr.collect_related e) (collectExprs_related es)
theorem collectOpt_related : ∀ e, R (collectOpt k e) (collectOpt k' e)
  | none => h.nil
  | some e => Expr.collect_related e
theorem collectBranches_related : ∀ bs, R (collectBranches k bs) (collectBranches k' bs)
  | [] => h.nil
  | ⟨c, r⟩ :: bs =>
    h.append (h.append (Expr.collect_related c) (Expr.collect_related r)) (collectBranches_related bs)
theorem collectFields_related : ∀ fs, R (collectFields k fs) (collectFields k' fs)
  | [] => h.nil
  | ⟨e, _⟩ :: fs => h.append (Expr.collect_related e) (collectFields_related fs)
theorem collectOrders_related : ∀ os, R (collectOrders k os) (collectOrders k' os)
  | [] => h.nil
  | ⟨e, _⟩ :: os => h.append (Expr.collect_related e) (collectOrders_related os)
theorem Table.collect_related : ∀ t : Table, R (t.collect k) (t.collect k')
  | .named _ _ => h.nil
  | .derived s _ => Select.collect_related s
theorem collectOptTable_related : ∀ t, R (collectOptTable k t) (collectOptTable k' t)
  | none => h.nil
  | some t => Table.collect_related t
theorem collectJoins_related : ∀ js, R (collectJoins k js) (collectJoins k' js)
  | [] => h.nil
  | ⟨_, t, c, _⟩ :: js =>
    h.append (h.append (Table.collect_related t) (collectOpt_related c)) (collectJoins_related js)
theorem collectUnions_related : ∀ us, R (collectUnions k us) (collectUnions k' us)
  | [] => h.nil
  | ⟨_, s⟩ :: us => h.append (Select.collect_related s) (collectUnions_related us)
theorem Select.collect_related : ∀ s : Select, R (s.collect k) (s.collect k')
  | ⟨_, fs, t, js, c, gs, hv, os, l, o, us, g⟩ => by
    refine h.append (h.append (h.append (h.append (h.append (h.append (h.append (h.append (h.append
      (h.facts g) ?_) ?_) ?_) ?_) ?_) ?_) ?_) (h.paging ?_ ?_)) ?_
    · exact collectFields_related fs
    · exact collectOptTable_related t
    · exact collectJoins_related js
    · exact collectOpt_related c
    · exact collectExprs_related gs
    · exact collectOpt_related hv
    · exact collectOrders_related os
    · exact collectOpt_related l
    · exact collectOpt_related o
    · exact collectUnions_related us
end

theorem collectAssignments_related : ∀ as, R (collectAssignments k as) (collectAssignments k' as)
  | [] => h.nil
  | ⟨t, v⟩ :: as => h.append (h.append (Expr.collect_related h t) (Expr.collect_related h v))
      (collectAssignments_related as)

theorem InsertSource.collect_related : ∀ s : InsertSource, R (s.collect k) (s.collect k')
  | .values rows => collectExprs_related h rows
  | .select s => Select.collect_related h s

/-- **Gathering keeps relations**: what two collectors gather from one query is related wherever
their single contributions are. -/
theorem Query.collect_related (q : Query) : R (q.collect k) (q.collect k') := by
  cases q with
  | select s => exact Select.collect_related h s
  | insert i =>
    exact h.append (h.append (h.append (h.append (h.facts _) (Table.collect_related h _))
      (collectExprs_related h _)) (InsertSource.collect_related h _))
      (h.returned (collectFields_related h _))
  | update u =>
    exact h.append (h.append (h.append (h.append (h.append (h.facts _) (Table.collect_related h _))
      (collectAssignments_related h _)) (collectOpt_related h _)) (collectOrders_related h _))
      (h.paging (collectOpt_related h _) (collectOpt_related h _))
  | delete d =>
    exact h.append (h.append (h.append (h.append (h.facts _) (Table.collect_related h _))
      (collectOpt_related h _)) (collectOrders_related h _))
      (h.paging (collectOpt_related h _) (collectOpt_related h _))

end Related

/-! ## The collectors in use -/

/-- The markers of a tree. -/
def markers : Collector Mark where
  marker m := [.anonymous m]
  named m := [.named m]

@[simp] theorem markers_facts (f : Facts) : markers.facts f = [] := rfl

@[simp] theorem markers_paging (l o : List Mark) : markers.paging l o = l ++ o := rfl

@[simp] theorem markers_returned (fs : List Mark) : markers.returned fs = fs := rfl

/-- The facts of a tree's selects. -/
def scopes : Collector Facts where
  facts f := [f]

@[simp] theorem scopes_paging (l o : List Facts) : scopes.paging l o = l ++ o := rfl

@[simp] theorem scopes_returned (fs : List Facts) : scopes.returned fs = fs := rfl

end EntitySql
