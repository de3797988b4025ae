import Mathlib
import EntitySql.Proofs.Attendance

/-!
# What a walk leaves as it is

While the parts of a query are walked, its facts are in the context and not in the query, and a failure ends
the walk wherever it is. A walk of visitors that only look still gives the query back as it was, with the
facts of every query in it, and fails only with what one of them answered.

The induction over the tree has one case for each kind of node; the steps are those of `Proofs.Attendance`.

Main statement:

* `Query.walk_conserves`: the query is the same after the walk; the walk fails with an error if and only if
  a visitor answered with it, so never because of its stacks; each call has the depth of its node and the facts of
  the nearest query around it; and if all visitors proceed, each gets its calls for every node.
-/

namespace EntitySql

variable {σ α : Type}

namespace Walk

/-! ## Nodes -/

section

variable {vs : List (Visitor σ)} (observes : ∀ v ∈ vs, v.Observes) (r : Revisit σ) (r' : Revisit (σ × List Call))

include observes

section

variable {revisit : α → Walk σ α} {revisit' : α → Walk (σ × List Call) α} {above : List Node}

/-- The visit of what is no query. -/
theorem visits_of_serves (sort : PlaceSort α) {a : α} {parts : Walk σ α} {parts' : Walk (σ × List Call) α}
    (plain : (sort.node a).facts? = none)
    (h : Serves vs (sort.node a :: above) (sort.node a).children parts parts' a) :
    Visits vs above (sort.node a) (visit vs sort revisit a parts)
      (visit (vs.map Visitor.traced) sort revisit' a parts') a :=
  (h.parts plain).visits observes

/-- The visit of a query. -/
theorem visits_of_within (sort : PlaceSort α) (whole : Facts → α) {facts : Facts} {isolated : Bool}
    {parts : Walk σ (Facts → α)} {parts' : Walk (σ × List Call) (Facts → α)}
    (own : (sort.node (whole facts)).facts? = some facts)
    (h : Serves vs (sort.node (whole facts) :: above) (sort.node (whole facts)).children parts parts' whole) :
    Visits vs above (sort.node (whole facts)) (visit vs sort revisit (whole facts) (within facts isolated parts))
      (visit (vs.map Visitor.traced) sort revisit' (whole facts) (within facts isolated parts')) (whole facts) :=
  (h.within own).visits observes

end

set_option linter.unusedSectionVars false

mutual
theorem expr_visits (above : List Node) : ∀ e : Expr,
    Visits vs above (.expr e) (expr vs r e) (expr (vs.map Visitor.traced) r' e) e
  | .ident _ | .literal _ | .marker _ | .named _ => by
    rw [expr, expr]
    exact visits_of_serves observes .expr rfl (.pure _)
  | .call _ _ es | .list es => by
    rw [expr, expr]
    exact visits_of_serves observes .expr rfl ((exprs_serves _ _ _ _ es).last _)
  | .arith _ x y | .compare _ x y | .logic _ x y => by
    rw [expr, expr]
    exact visits_of_serves observes .expr rfl ((expr_visits _ x).placed.cons ((expr_visits _ y).placed.last _))
  | .unary _ e => by
    rw [expr, expr]
    exact visits_of_serves observes .expr rfl ((expr_visits _ e).placed.last _)
  | .case operand bs otherwise => by
    rw [expr, expr]
    exact visits_of_serves observes .expr rfl
      ((optExpr_serves _ _ operand).bind ((branches_serves _ _ _ bs).bind ((optExpr_serves _ _ otherwise).last _)))
  | .subquery s => by
    rw [expr, expr]
    exact visits_of_serves observes .expr rfl ((select_visits _ _ s).placed.last _)
theorem exprs_serves (above : List Node) (slot : String) (siblings : List NodeKind) (index : Nat) :
    ∀ es : List Expr, Serves vs above (Node.ofExprs es) (exprs vs r slot siblings index es)
      (exprs (vs.map Visitor.traced) r' slot siblings index es) es
  | [] => by
    rw [exprs, exprs]
    exact .pure _
  | e :: es => by
    rw [exprs, exprs]
    exact (expr_visits _ e).placed.cons ((exprs_serves _ _ _ _ es).last _)
theorem optExpr_serves (above : List Node) (slot : String) : ∀ e : Option Expr,
    Serves vs above (Node.ofExpr? e) (optExpr vs r slot e) (optExpr (vs.map Visitor.traced) r' slot e) e
  | none => by
    rw [optExpr, optExpr]
    exact .pure _
  | some e => by
    rw [optExpr, optExpr]
    exact (expr_visits _ e).placed.last _
theorem branch_visits (above : List Node) : ∀ b : Branch,
    Visits vs above (.branch b) (branch vs r b) (branch (vs.map Visitor.traced) r' b) b
  | ⟨x, y⟩ => by
    rw [branch, branch]
    exact visits_of_serves observes .branch rfl ((expr_visits _ x).placed.cons ((expr_visits _ y).placed.last _))
theorem branches_serves (above : List Node) (siblings : List NodeKind) (index : Nat) : ∀ bs : List Branch,
    Serves vs above (bs.map .branch) (branches vs r siblings index bs)
      (branches (vs.map Visitor.traced) r' siblings index bs) bs
  | [] => by
    rw [branches, branches]
    exact .pure _
  | b :: bs => by
    rw [branches, branches]
    exact (branch_visits _ b).placed.cons ((branches_serves _ _ _ bs).last _)
theorem field_visits (above : List Node) : ∀ f : ResultField,
    Visits vs above (.field f) (field vs r f) (field (vs.map Visitor.traced) r' f) f
  | ⟨e, _⟩ => by
    rw [field, field]
    exact visits_of_serves observes .field rfl ((expr_visits _ e).placed.last _)
theorem fields_serves (above : List Node) (slot : String) (siblings : List NodeKind) (index : Nat) :
    ∀ fs : List ResultField, Serves vs above (fs.map .field) (fields vs r slot siblings index fs)
      (fields (vs.map Visitor.traced) r' slot siblings index fs) fs
  | [] => by
    rw [fields, fields]
    exact .pure _
  | f :: fs => by
    rw [fields, fields]
    exact (field_visits _ f).placed.cons ((fields_serves _ _ _ _ fs).last _)
theorem order_visits (above : List Node) : ∀ o : OrderItem,
    Visits vs above (.order o) (order vs r o) (order (vs.map Visitor.traced) r' o) o
  | ⟨e, _⟩ => by
    rw [order, order]
    exact visits_of_serves observes .order rfl ((expr_visits _ e).placed.last _)
theorem orders_serves (above : List Node) (siblings : List NodeKind) (index : Nat) : ∀ os : List OrderItem,
    Serves vs above (os.map .order) (orders vs r siblings index os)
      (orders (vs.map Visitor.traced) r' siblings index os) os
  | [] => by
    rw [orders, orders]
    exact .pure _
  | o :: os => by
    rw [orders, orders]
    exact (order_visits _ o).placed.cons ((orders_serves _ _ _ os).last _)
theorem table_visits (above : List Node) : ∀ t : Table,
    Visits vs above (.table t) (table vs r t) (table (vs.map Visitor.traced) r' t) t
  | .named _ _ => by
    rw [table, table]
    exact visits_of_serves observes .table rfl (.pure _)
  | .derived s _ => by
    rw [table, table]
    exact visits_of_serves observes .table rfl ((select_visits _ _ s).placed.last _)
theorem optTable_serves (above : List Node) : ∀ t : Option Table,
    Serves vs above (t.toList.map .table) (optTable vs r t) (optTable (vs.map Visitor.traced) r' t) t
  | none => by
    rw [optTable, optTable]
    exact .pure _
  | some t => by
    rw [optTable, optTable]
    exact (table_visits _ t).placed.last _
theorem join_visits (above : List Node) : ∀ j : Join,
    Visits vs above (.join j) (join vs r j) (join (vs.map Visitor.traced) r' j) j
  | ⟨_, t, condition, _⟩ => by
    rw [join, join]
    exact visits_of_serves observes .join rfl
      ((table_visits _ t).placed.cons ((optExpr_serves _ _ condition).last _))
theorem joins_serves (above : List Node) (siblings : List NodeKind) (index : Nat) : ∀ js : List Join,
    Serves vs above (js.map .join) (joins vs r siblings index js)
      (joins (vs.map Visitor.traced) r' siblings index js) js
  | [] => by
    rw [joins, joins]
    exact .pure _
  | j :: js => by
    rw [joins, joins]
    exact (join_visits _ j).placed.cons ((joins_serves _ _ _ js).last _)
theorem unions_serves (above : List Node) (siblings : List NodeKind) (index : Nat) : ∀ us : List UnionPart,
    Serves vs above (us.map fun u => .select u.select) (unions vs r siblings index us)
      (unions (vs.map Visitor.traced) r' siblings index us) us
  | [] => by
    rw [unions, unions]
    exact .pure _
  | ⟨_, s⟩ :: us => by
    rw [unions, unions]
    exact (select_visits _ _ s).placed.cons ((unions_serves _ _ _ us).last _)
theorem select_visits (above : List Node) (isolated : Bool) : ∀ s : Select,
    Visits vs above (.select s) (select vs r isolated s) (select (vs.map Visitor.traced) r' isolated s) s
  | ⟨distinct, fs, source, js, criteria, grouping, having, ordering, limit, offset, us, facts⟩ => by
    rw [select, select]
    refine visits_of_within observes .select (fun facts =>
      ⟨distinct, fs, source, js, criteria, grouping, having, ordering, limit, offset, us, facts⟩) rfl ?_
    exact (fields_serves _ _ _ _ fs).bind <| (optTable_serves _ source).bind <| (joins_serves _ _ _ js).bind <|
      (optExpr_serves _ _ criteria).bind <| (exprs_serves _ _ _ _ grouping).bind <|
      (optExpr_serves _ _ having).bind <| (orders_serves _ _ _ ordering).bind <|
      (optExpr_serves _ _ limit).bind <| (optExpr_serves _ _ offset).bind <| (unions_serves _ _ _ us).last _
end

theorem assignment_visits (above : List Node) (a : Assignment) :
    Visits vs above (.assignment a) (assignment vs r a) (assignment (vs.map Visitor.traced) r' a) a := by
  obtain ⟨x, y⟩ := a
  exact visits_of_serves observes .assignment rfl
    ((expr_visits observes r r' _ x).placed.cons ((expr_visits observes r r' _ y).placed.last _))

theorem assignments_serves (above : List Node) (siblings : List NodeKind) (index : Nat) (as : List Assignment) :
    Serves vs above (as.map .assignment) (assignments vs r siblings index as)
      (assignments (vs.map Visitor.traced) r' siblings index as) as := by
  induction as generalizing index with
  | nil => exact .pure _
  | cons a as ih => exact (assignment_visits observes r r' _ a).placed.cons ((ih _).last _)

theorem insertSource_serves (above : List Node) (source : InsertSource) :
    Serves vs above (Node.ofSource source) (insertSource vs r source)
      (insertSource (vs.map Visitor.traced) r' source) source := by
  cases source with
  | values rows => exact (exprs_serves observes r r' _ _ _ _ rows).last _
  | select s => exact (select_visits observes r r' _ _ s).placed.last _

theorem insert_visits (above : List Node) (i : Insert) :
    Visits vs above (.insert i) (insert vs r i) (insert (vs.map Visitor.traced) r' i) i := by
  refine visits_of_within observes .insert (fun facts => { i with facts }) rfl ?_
  exact (table_visits observes r r' _ i.table).placed.cons <|
    (exprs_serves observes r r' _ _ _ _ i.columns).bind <| (insertSource_serves observes r r' _ i.source).bind <|
    (fields_serves observes r r' _ _ _ _ i.returning).last _

theorem update_visits (above : List Node) (u : Update) :
    Visits vs above (.update u) (update vs r u) (update (vs.map Visitor.traced) r' u) u := by
  refine visits_of_within observes .update (fun facts => { u with facts }) rfl ?_
  exact (table_visits observes r r' _ u.table).placed.cons <|
    (assignments_serves observes r r' _ _ _ u.assignments).bind <|
    (optExpr_serves observes r r' _ _ u.criteria).bind <| (orders_serves observes r r' _ _ _ u.ordering).bind <|
    (optExpr_serves observes r r' _ _ u.limit).bind <| (optExpr_serves observes r r' _ _ u.offset).last _

theorem delete_visits (above : List Node) (d : Delete) :
    Visits vs above (.delete d) (delete vs r d) (delete (vs.map Visitor.traced) r' d) d := by
  refine visits_of_within observes .delete (fun facts => { d with facts }) rfl ?_
  exact (table_visits observes r r' _ d.table).placed.cons <|
    (optExpr_serves observes r r' _ _ d.criteria).bind <| (orders_serves observes r r' _ _ _ d.ordering).bind <|
    (optExpr_serves observes r r' _ _ d.limit).bind <| (optExpr_serves observes r r' _ _ d.offset).last _

theorem query_serves (q : Query) :
    Serves vs [] [q.node] (query vs r q) (query (vs.map Visitor.traced) r' q) q := by
  cases q with
  | select s => exact (select_visits observes r r' _ _ s).placed.last _
  | insert i => exact (insert_visits observes r r' _ i).placed.last _
  | update u => exact (update_visits observes r r' _ u).placed.last _
  | delete d => exact (delete_visits observes r r' _ d).placed.last _

end

/-! ## Whole queries -/

theorem finish_run {p : Progress σ} (balanced : p.failure = none → p.context.isBalanced = true) :
    (finish : Walk σ Unit).run p = ((), p) := by
  have settled : ¬ (p.failure.isNone && !p.context.isBalanced) = true := by
    simpa using balanced
  simp only [finish, StateT.run_bind, StateT.run_get, pure_bind, settled]
  rfl

end Walk

theorem Query.walk_eq {q b : Query} {vs : List (Visitor σ)} {depth : Nat} {state : σ} {o : Progress σ}
    (run : (Walk.query vs (Walk.revisitUpTo vs depth) q).run { state } = (b, o))
    (balanced : o.failure = none → o.context.isBalanced = true) :
    q.walk vs depth state = ⟨b, o.failure, o.state⟩ := by
  simp only [Query.walk, StateT.run_bind, Walk.run_eq_pure run, pure_bind,
    Walk.run_eq_pure (Walk.finish_run balanced)]
  rfl

/-- A walk of visitors that only look gives the query back with all its facts, and fails only with what one of
them answered. Every call has the depth of its node and the facts of the nearest query around it, and if all of
them proceed every visitor is called for every node of its kinds. -/
theorem Query.walk_conserves (vs : List (Visitor σ)) (observes : ∀ v ∈ vs, v.Observes) (q : Query) (depth : Nat)
    (state : σ) :
    (q.walk vs depth state).query = q ∧ ∃ calls,
      q.walk (vs.map Visitor.traced) depth (state, []) =
        ⟨q, (q.walk vs depth state).failure, ((q.walk vs depth state).state, calls)⟩ ∧
      (∀ e, (q.walk vs depth state).failure = some e ↔ ∃ call ∈ calls, call.answer = .error e) ∧
      (∀ call ∈ calls, ∃ path, q.node.Lies path call.node ∧ call.context.Below path) ∧
      ((∀ call ∈ calls, call.answer = .ok .proceed) → ∀ path m, q.node.Lies path m →
        ∀ v ∈ vs, m.kind ∈ v.kinds → ∀ phase, ∃ call ∈ calls,
          call.visitor = v.name ∧ call.phase = phase ∧ call.node = m ∧ call.context.Below path) := by
  obtain ⟨o, calls, run, done⟩ := (Walk.query_serves observes (Walk.revisitUpTo vs depth)
    (Walk.revisitUpTo (vs.map Visitor.traced) depth) q).attends { state := (state, []) } rfl rfl rfl
  have balanced : o.failure = none → o.context.isBalanced = true := by
    intro ended
    have frames : o.context.frames = [] := List.length_eq_zero_iff.mp (done.height ended)
    have scopes : o.context.scopes = [] := done.scopes
    simp [Context.isBalanced, frames, scopes]
  have walked : q.walk vs depth state = ⟨q, o.failure, o.state.1⟩ := walk_eq (o := o.plain) run.plain balanced
  have log : o.state.2 = calls := done.log
  rw [walked, walk_eq run.traced balanced]
  refine ⟨rfl, calls, by rw [← log], done.failure, ?_, ?_⟩
  · intro call hcall
    obtain ⟨t, ⟨n, hn, path, lies, above⟩, here⟩ := done.located call hcall
    obtain rfl := List.mem_singleton.mp hn
    rw [List.append_nil] at above
    exact ⟨path, here.node ▸ lies, above ▸ here.below⟩
  · intro agreed path m lies v hv hkind phase
    obtain ⟨call, hcall, name, here⟩ := done.complete agreed ⟨phase, path, m⟩
      ⟨_, List.mem_singleton.mpr rfl, path, lies, (List.append_nil _).symm⟩ v hv hkind
    exact ⟨call, hcall, name, here.phase, here.node, here.below⟩

/-- A visitor that counts its calls and refuses literals on the way out. -/
def literalRefuser : Visitor Nat where
  name := "literals"
  kinds := [.select, .literal]
  visit phase _ n count :=
    { action :=
        if phase = .leave ∧ n.kind = .literal then .error (.query (.invalidValue n.text "a marker"))
        else .ok .proceed
      state := count + 1 }

/-- `SELECT id FROM users WHERE id IN (SELECT 7 AS owner FROM posts)` with the sources of both selects. -/
def literalSubquery : Query :=
  let owners : Select :=
    ⟨false, [⟨.literal (.int 7), some "owner"⟩], some (.named "posts" none), [], none, [], none, [], none, none, [],
      { sources := ⟨[(none, .raw none "posts")]⟩, labels := ["owner"] }⟩
  .select ⟨false, [⟨.name "id", none⟩], some (.named "users" none), [],
    some (.compare .oneOf (.name "id") (.subquery owners)), [], none, [], none, none, [],
    { sources := ⟨[(none, .raw none "users")]⟩ }⟩

theorem Query.walk_conserves_literalSubquery :
    (∀ v ∈ [literalRefuser], v.Observes)
      ∧ (literalSubquery.walk [literalRefuser] 0 0).failure = some (.query (.invalidValue "7" "a marker"))
      ∧ (literalSubquery.walk [literalRefuser] 0 0).state = 4
      ∧ (literalSubquery.walk [literalRefuser] 0 0).query = literalSubquery := by
  have observes : ∀ v ∈ [literalRefuser], v.Observes := by
    intro v hv phase c n s
    obtain rfl := List.mem_singleton.mp hv
    refine ⟨fun new => ?_, ?_⟩
    · simp only [literalRefuser]
      split <;> simp
    · exact Reply.noted_eq_self rfl rfl c
  refine ⟨observes, by cbv, by cbv, (walk_conserves [literalRefuser] observes literalSubquery 0 0).1⟩

end EntitySql
