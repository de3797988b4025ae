import Mathlib
import EntitySql.Compiler
import EntitySql.Proofs.Mirroring
import EntitySql.Proofs.Placeholders

/-!
# Compiling recast queries

What is written of a query shows of a marker nothing but its ordinal. So two recasts of a query that mirror
each other are compiled to the same SQL with the same result columns, and only their slots differ, as said
by `κ`.

* `Rendering.alike_query`: SQL does not show what a marker remembers.
* **`Compiler.mirrors_conclude`**: two recasts of a prepared query are compiled alike.
-/

namespace EntitySql

namespace Rendering

variable (d : Dialect)

theorem length_recastExprs {σ : Recast} (es : List Expr) : (recastExprs σ es).length = es.length := by
  induction es with
  | nil => rfl
  | cons e es ih => rw [recastExprs, List.length_cons, List.length_cons, ih]

theorem needsParens_recast {σ : Recast} (required : Nat) (outer : Option LogicOp) (e : Expr) :
    (e.recast σ).needsParens required outer = e.needsParens required outer := by
  cases e with
  | marker m =>
    rw [Expr.recast]
    cases σ.mark (.anonymous m) <;> rfl
  | named m =>
    rw [Expr.recast]
    cases σ.mark (.named m) <;> rfl
  | logic => cases outer <;> rfl
  | _ => rfl

mutual
theorem alike_expr : ∀ e : Expr, Alike id (expr d e) (expr d (e.recast .numerals))
  | .ident _ | .literal _ => .pure rfl
  | .marker ⟨_, _, _, _, _, none⟩ => .error _ _
  | .marker ⟨_, _, _, _, _, some _⟩ => .pure rfl
  | .named _ => .error _ _
  | .call name distinct args => by
    rw [Expr.recast, expr, expr, length_recastExprs]
    exact .bind (alike_exprs args) fun _ => .pure rfl
  | .list items => .bind (alike_exprs items) fun _ => .pure rfl
  | .arith op l r => by
    simp only [Expr.recast, expr, needsParens_recast]
    refine .bind (alike_expr l) fun _ => .bind (alike_expr r) fun _ => ?_
    cases op <;> exact .pure rfl
  | .compare op l r => by
    simp only [Expr.recast, expr, needsParens_recast]
    refine .bind (alike_expr l) fun _ => .bind (alike_expr r) fun _ => ?_
    cases op <;> exact .pure rfl
  | .logic op l r => by
    simp only [Expr.recast, expr, needsParens_recast]
    exact .bind (alike_expr l) fun _ => .bind (alike_expr r) fun _ => .pure rfl
  | .unary .not e => by
    simp only [Expr.recast, expr, needsParens_recast]
    exact .bind (alike_expr e) fun _ => .pure rfl
  | .unary .negate e => by
    simp only [Expr.recast, expr, needsParens_recast]
    exact .bind (alike_expr e) fun _ => .pure rfl
  | .case o bs e => .bind (alike_optExpr " " o) fun _ => .bind (alike_branches bs) fun _ =>
      .bind (alike_optExpr " ELSE " e) fun _ => .pure rfl
  | .subquery s => .bind (alike_select s) fun _ => .pure rfl
theorem alike_exprs : ∀ es, Alike id (exprs d es) (exprs d (recastExprs .numerals es))
  | [] => .pure rfl
  | e :: es => .bind (alike_expr e) fun _ => .bind (alike_exprs es) fun _ => .pure rfl
theorem alike_optExpr (keyword : String) : ∀ o,
    Alike id (optExpr d keyword o) (optExpr d keyword (recastOpt .numerals o))
  | none => .pure rfl
  | some e => .bind (alike_expr e) fun _ => .pure rfl
theorem alike_count? : ∀ o, Alike id (count? d o) (count? d (recastOpt .numerals o))
  | none => .pure rfl
  | some e => .bind (alike_expr e) fun _ => .pure rfl
theorem alike_branches : ∀ bs, Alike id (branches d bs) (branches d (recastBranches .numerals bs))
  | [] => .pure rfl
  | ⟨c, r⟩ :: bs => .bind (alike_expr c) fun _ => .bind (alike_expr r) fun _ =>
      .bind (alike_branches bs) fun _ => .pure rfl
theorem alike_fields : ∀ fs, Alike id (fields d fs) (fields d (recastFields .numerals fs))
  | [] => .pure rfl
  | ⟨e, _⟩ :: fs => .bind (alike_expr e) fun _ => .bind (alike_fields fs) fun _ => .pure rfl
theorem alike_orders : ∀ os, Alike id (orders d os) (orders d (recastOrders .numerals os))
  | [] => .pure rfl
  | ⟨e, _⟩ :: os => .bind (alike_expr e) fun _ => .bind (alike_orders os) fun _ => .pure rfl
theorem alike_table : ∀ t : Table, Alike id (table d t) (table d (t.recast .numerals))
  | .named _ _ => .pure rfl
  | .derived s _ => .bind (alike_select s) fun _ => .pure rfl
theorem alike_optTable : ∀ t, Alike id (optTable d t) (optTable d (recastOptTable .numerals t))
  | none => .pure rfl
  | some t => .bind (alike_table t) fun _ => .pure rfl
theorem alike_joins : ∀ js, Alike id (joins d js) (joins d (recastJoins .numerals js))
  | [] => .pure rfl
  | ⟨_, _, none, _⟩ :: _ => .error _ _
  | ⟨_, t, some c, _⟩ :: js => .bind (alike_table t) fun _ => .bind (alike_expr c) fun _ =>
      .bind (alike_joins js) fun _ => .pure rfl
theorem alike_unions : ∀ us, Alike id (unions d us) (unions d (recastUnions .numerals us))
  | [] => .pure rfl
  | ⟨_, s⟩ :: us => .bind (alike_select s) fun _ => .bind (alike_unions us) fun _ => .pure rfl
theorem alike_select : ∀ s : Select, Alike id (select d s) (select d (s.recast .numerals))
  | ⟨_, fs, t, js, c, gs, hv, os, l, o, us, _⟩ => .bind (alike_fields fs) fun _ =>
      .bind (alike_optTable t) fun _ => .bind (alike_joins js) fun _ => .bind (alike_optExpr _ c) fun _ =>
      .bind (alike_exprs gs) fun _ => .bind (alike_optExpr _ hv) fun _ => .bind (alike_orders os) fun _ =>
      .bind (alike_count? l) fun _ => .bind (alike_count? o) fun _ => .bind (alike_unions us) fun _ => .pure rfl
end

theorem alike_tail (ordering : List OrderItem) (limit offset : Option Expr) :
    Alike id (tail d ordering limit offset)
      (tail d (recastOrders .numerals ordering) (recastOpt .numerals limit) (recastOpt .numerals offset)) :=
  .bind (alike_orders d ordering) fun _ => .bind (alike_count? d limit) fun _ =>
    .bind (alike_count? d offset) fun _ => .pure rfl

theorem alike_target : ∀ t : Table, Alike id (target d t) (target d (t.recast .numerals))
  | .named _ _ => .pure rfl
  | .derived _ _ => .error _ _

theorem alike_column (e : Expr) : Alike id (column d e) (column d (e.recast .numerals)) := by
  cases e with
  | ident i => exact .pure rfl
  | _ => exact .error _ _

theorem alike_columns : ∀ es, Alike id (columns d es) (columns d (recastExprs .numerals es))
  | [] => .pure rfl
  | e :: es => .bind (alike_column d e) fun _ => .bind (alike_columns es) fun _ => .pure rfl

theorem alike_row (e : Expr) : Alike id (row d e) (row d (e.recast .numerals)) := by
  cases e with
  | list items => exact alike_expr d (.list items)
  | _ => exact .error _ _

theorem alike_rows : ∀ es, Alike id (rows d es) (rows d (recastExprs .numerals es))
  | [] => .pure rfl
  | e :: es => .bind (alike_row d e) fun _ => .bind (alike_rows es) fun _ => .pure rfl

theorem alike_insertSource : ∀ s : InsertSource,
    Alike id (insertSource d s) (insertSource d (s.recast .numerals))
  | .values rs => .bind (alike_rows d rs) fun _ => .pure rfl
  | .select s => .bind (alike_select d s) fun _ => .pure rfl

theorem alike_assignments : ∀ as, Alike id (assignments d as) (assignments d (recastAssignments .numerals as))
  | [] => .pure rfl
  | ⟨t, v⟩ :: as => .bind (alike_expr d t) fun _ => .bind (alike_expr d v) fun _ =>
      .bind (alike_assignments as) fun _ => .pure rfl

/-- **SQL shows of a marker its ordinal only.** -/
theorem alike_query (q : Query) : Alike id (query d q) (query d (q.recast .numerals)) := by
  cases q with
  | select s => exact alike_select d s
  | insert i =>
    refine .bind (alike_target d i.table) fun _ => .bind (alike_columns d i.columns) fun _ =>
      .bind (alike_insertSource d i.source) fun _ => ?_
    cases d with
    | mysql => exact .pure rfl
    | generic | postgres => exact .bind (alike_fields _ i.returning) fun _ => .pure rfl
  | update u =>
    exact .bind (alike_assignments d u.assignments) fun _ => .bind (alike_table d u.table) fun _ =>
      .bind (alike_optExpr d _ u.criteria) fun _ =>
      .bind (alike_tail d u.ordering u.limit u.offset) fun _ => .pure rfl
  | delete x =>
    exact .bind (alike_table d x.table) fun _ => .bind (alike_optExpr d _ x.criteria) fun _ =>
      .bind (alike_tail d x.ordering x.limit x.offset) fun _ => .pure rfl

end Rendering

/-! ## What is given in a prepared query -/

theorem spliced_filters : Joins.FiltersGive (fun _ => true) Given.Spliced givens :=
  fun _ _ _ _ _ _ _ _ hx => Expr.spliced_givens hx

/-- What holds of all that is given in a query, and of what filters splice into it, holds of all that is
given in the prepared query. -/
theorem Query.Prepares.forall_given {n : Naming} {q p : Query} (hp : q.Prepares n p) {P : Given → Prop}
    (hspliced : ∀ g, g.Spliced → P g) (hq : ∀ g ∈ q.collect givens, P g) : ∀ g ∈ p.collect givens, P g :=
  (hp.grown givens_steady spliced_filters (fun _ _ => rfl) (strangers_none q)).1.forall_mem hspliced hq

/-- The literals of the query itself stay. -/
theorem Query.Prepares.literals {n : Naming} {q p : Query} (hp : q.Prepares n p) :
    p.facts.literals = q.facts.literals := by
  have hfacts := (hp.grown givens_steady spliced_filters (fun _ _ => rfl) (strangers_none q)).2
  exact Given.literals.inj (List.cons.inj hfacts).1

/-! ## Conclusions -/

theorem Rendering.query_withFacts (d : Dialect) (f : Facts) (q : Query) :
    Rendering.query d (q.withFacts f) = Rendering.query d q := by
  cases q with
  | select s =>
    cases s
    rfl
  | insert | update | delete => rfl

namespace Compiler

variable (c : Compiler)

/-- What is left to do of a compilation when only the numbering is missing. -/
def conclude (p : Query) : Except CompileError Artifact := do c.finish (← QueryError.lift (Parameters.query p))

variable {c}

theorem compile_of_prepares {q p : Query} (h : q.Prepares c.naming p) : c.compile q = c.conclude p := by
  have hall : Pass.all = [Pass.sources, .derived, .joins, .columns, .results] ++ [.parameters] := rfl
  have hresolve : q.resolve c.naming = QueryError.lift (Parameters.query p) := by
    rw [Query.resolve, hall, List.foldlM_append, show _ = Except.ok p from h]
    exact bind_pure (QueryError.lift (Parameters.query p))
  rw [compile, trace, hresolve, conclude]
  cases QueryError.lift (Parameters.query p) <;> rfl

theorem prepares_of_compile {q : Query} {a : Artifact} (h : c.compile q = .ok a) :
    ∃ p, q.Prepares c.naming p ∧ c.conclude p = .ok a := by
  obtain ⟨r, sql, hw⟩ := compile_writes h
  obtain ⟨p, hp, -⟩ := Query.resolve_eq_ok hw.resolved
  exact ⟨p, hp, (compile_of_prepares hp).symm.trans h⟩

theorem generated?_withFacts (f : Facts) (q : Query) : c.generated? (q.withFacts f) = c.generated? q := by
  cases q <;> rfl

theorem generated?_recast {σ : Recast} (q : Query) : c.generated? (q.recast σ) = c.generated? q := by
  cases q with
  | insert i =>
    obtain ⟨t, cs, source, fs, f⟩ := i
    simp only [Query.recast, Insert.recast, generated?, Table.name?_recast]
    cases fs with
    | nil => rfl
    | cons g gs =>
      obtain ⟨e, a⟩ := g
      simp only [recastFields, List.head?_cons, Expr.underlying?_recast, bind, Option.bind_some]
  | _ => rfl

/-- What is shown of two queries that differ in what their markers remember. -/
theorem alike_finish {a b : Query} (h : b.recast .numerals = a.recast .numerals) (slots slots' : List Slot) :
    Alike (fun x => { x with slots := slots' }) (c.finish (a.withFacts { a.facts with slots }))
      (c.finish (b.withFacts { b.facts with slots := slots' })) := by
  have hsql : Alike id (Rendering.query c.dialect a) (Rendering.query c.dialect b) := by
    have hb := Rendering.alike_query c.dialect b
    rw [h] at hb
    have ha := Rendering.alike_query c.dialect a
    rw [Alike, Option.map_id, id_eq] at ha hb ⊢
    rw [← hb, ha]
  have hresults : b.facts.results = a.facts.results := by
    have hfacts := congrArg (fun q => q.facts.results) h
    simp only [Query.facts_recast] at hfacts
    exact hfacts
  have hgenerated : c.generated? b = c.generated? a := by
    rw [← generated?_recast b, h, generated?_recast]
  unfold finish Query.render
  simp only [Rendering.query_withFacts, Parameters.facts_withFacts, generated?_withFacts, hresults, hgenerated]
  cases hrun : Rendering.query c.dialect a with
  | error e =>
    rw [hrun] at hsql
    cases hrun' : Rendering.query c.dialect b with
    | error e' => exact .error _ _
    | ok sql =>
      rw [hrun'] at hsql
      cases hsql
  | ok sql =>
    rw [hsql.eq_ok hrun]
    exact .ok rfl

theorem slots_finish {q : Query} {a : Artifact} (h : c.finish q = .ok a) : a.slots = q.facts.slots := by
  unfold finish at h
  split at h <;> cases h
  rfl

theorem conclude_of_error {p : Query} {e : QueryError} (hslots : p.facts.slots = [])
    (h : Parameters.statement p [] = .error e) : c.conclude p = .error (.query e) := by
  rw [conclude, Parameters.query, hslots, StateT.run, h]
  rfl

theorem conclude_of_ok {p a : Query} {slots : List Slot} (hslots : p.facts.slots = [])
    (h : Parameters.statement p [] = .ok (a, slots)) :
    c.conclude p = c.finish (a.withFacts { a.facts with slots }) := by
  rw [conclude, Parameters.query, hslots, StateT.run, h]
  rfl

/-- **Two recasts of a prepared query that mirror each other are compiled alike**: what is compiled differs
by `κ` in the slots only, and the second compilation fails where `κ` does. -/
theorem mirrors_conclude {κ : Slot → Except QueryError Slot} {σ τ : Recast} {p : Query}
    (hslots : p.facts.slots = [])
    (h : Parameters.AllMirrored κ σ τ (σ.literals p.facts.literals) (τ.literals p.facts.literals)
      (p.collect givens)) :
    match c.conclude (p.recast σ) with
    | .error _ => ∃ e, c.conclude (p.recast τ) = .error e
    | .ok a => match a.slots.mapM κ with
      | .error e => c.conclude (p.recast τ) = .error (.query e)
      | .ok slots => c.conclude (p.recast τ) = .ok { a with slots } := by
  have hempty : ∀ ν : Recast, (p.recast ν).facts.slots = [] := by
    intro ν
    rw [Query.facts_recast]
    exact hslots
  have hmirror := Parameters.mirrors_statement h [] [] rfl
  cases hrun : Parameters.statement (p.recast σ) [] with
  | error e =>
    rw [hrun] at hmirror
    obtain ⟨e', he'⟩ := hmirror
    rw [conclude_of_error (hempty σ) hrun]
    exact ⟨_, conclude_of_error (hempty τ) he'⟩
  | ok x =>
    obtain ⟨a, slots⟩ := x
    rw [hrun] at hmirror
    obtain ⟨new, hnew, hmirror⟩ := hmirror
    obtain rfl : slots = new := hnew
    rw [conclude_of_ok (hempty σ) hrun]
    cases hslots' : slots.mapM κ with
    | error e =>
      rw [hslots'] at hmirror
      have hfail : c.conclude (p.recast τ) = .error (.query e) := conclude_of_error (hempty τ) hmirror
      cases hfinish : c.finish (a.withFacts { a.facts with slots }) with
      | error e' => exact ⟨_, hfail⟩
      | ok artifact =>
        have hkept : artifact.slots = slots := by rw [slots_finish hfinish, Parameters.facts_withFacts]
        simp only [hkept, hslots']
        exact hfail
    | ok slots' =>
      rw [hslots'] at hmirror
      obtain ⟨b, hb, hshown⟩ := hmirror
      rw [conclude_of_ok (hempty τ) hb]
      have hfinal := alike_finish (c := c) hshown slots slots'
      cases hfinish : c.finish (a.withFacts { a.facts with slots }) with
      | error e' =>
        rw [hfinish] at hfinal
        cases hfinish' : c.finish (b.withFacts { b.facts with slots := slots' }) with
        | error e => exact ⟨e, hfinish'⟩
        | ok artifact =>
          rw [hfinish'] at hfinal
          cases hfinal
      | ok artifact =>
        have hkept : artifact.slots = slots := by rw [slots_finish hfinish, Parameters.facts_withFacts]
        simp only [hkept, hslots']
        exact hfinal.eq_ok hfinish

end Compiler

end EntitySql
