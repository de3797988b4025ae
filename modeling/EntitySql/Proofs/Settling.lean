import Mathlib
import EntitySql.Proofs.KeptFields

/-!
# Sweeps that settle

A sweep settles if it changes nothing where it has been before. For one that leaves tables alone this is a
matter of single names: a name that was changed once must not be changed again at the same place. The place
is the same the second time, since the facts of a query only depend on the aliases of its fields.

A name becomes a column, and the column may well be the name of another property, of a result alias or of a
source. It is not looked up again, because it is resolved; and what could not be resolved is still what it
was, at a place where it could not.

* `Sweep.Settles.query`: a sweep that settles on names settles on queries.
* **`Pass.columns_settles`**: names are resolved once and for all.
-/

namespace EntitySql

open Outcome

/-- A sweep leaves tables alone, and does nothing to the names that it has changed or kept, nor to the facts
with which it has entered a select. -/
structure Sweep.Settles (w : Sweep) : Prop where
  opening : ∀ {fs fs' : List ResultField}, fs'.map (·.label) = fs.map (·.label) →
    ∀ f, w.opening fs' (w.opening fs f) = w.opening fs f
  ident : ∀ {p i i'}, w.ident p i = .ok i' → w.ident p i' = .ok i'
  table : ∀ joined visible f t, w.table joined visible f t = .ok (t, f)

namespace Sweep

/-- A sweep keeps the aliases of fields. -/
theorem labels_fields {w : Sweep} {p : Place} {fs : List ResultField} :
    Gives (fun fs' => fs'.map (·.label) = fs.map (·.label)) (w.fields p fs) := by
  induction fs with
  | nil => exact .pure rfl
  | cons f fs ih =>
    obtain ⟨e, label⟩ := f
    exact .bind .any fun _ _ => .bind ih fun _ h => .pure (congrArg (_ :: ·) h)

theorem run_bind {α β : Type} {x : Except QueryError α} {f : α → Except QueryError β} {a : α} {b : β} (hx : x = .ok a)
    (hf : f a = .ok b) : (x >>= f) = .ok b := bind_eq_ok.mpr ⟨a, hx, hf⟩

variable {w : Sweep} (hw : w.Settles)

include hw

set_option linter.unusedSectionVars false

mutual
theorem Settles.expr {p} : ∀ e : Expr, Gives (fun e' => w.expr p e' = .ok e') (w.expr p e)
  | .ident _ => .bind .any fun hi _ => .pure (run_bind (hw.ident hi) rfl)
  | .literal _ | .marker _ | .named _ => .pure rfl
  | .call _ _ args => .bind (Settles.exprs args) fun _ h => .pure (run_bind h rfl)
  | .list items => .bind (Settles.exprs items) fun _ h => .pure (run_bind h rfl)
  | .arith _ l r | .compare _ l r | .logic _ l r =>
    .bind (Settles.expr l) fun _ hl => .bind (Settles.expr r) fun _ hr => .pure (run_bind hl (run_bind hr rfl))
  | .unary _ e => .bind (Settles.expr e) fun _ h => .pure (run_bind h rfl)
  | .case o bs e => .bind (Settles.optExpr o) fun _ ho => .bind (Settles.branches bs) fun _ hbs =>
    .bind (Settles.optExpr e) fun _ he => .pure (run_bind ho (run_bind hbs (run_bind he rfl)))
  | .subquery s => .bind (Settles.select s) fun _ h => .pure (run_bind h rfl)
theorem Settles.exprs {p} : ∀ es : List Expr, Gives (fun es' => w.exprs p es' = .ok es') (w.exprs p es)
  | [] => .pure rfl
  | e :: es =>
    .bind (Settles.expr e) fun _ he => .bind (Settles.exprs es) fun _ hes => .pure (run_bind he (run_bind hes rfl))
theorem Settles.optExpr {p} : ∀ o : Option Expr, Gives (fun o' => w.optExpr p o' = .ok o') (w.optExpr p o)
  | none => .pure rfl
  | some e => .bind (Settles.expr e) fun _ h => .pure (run_bind h rfl)
theorem Settles.branches {p} : ∀ bs : List Branch, Gives (fun bs' => w.branches p bs' = .ok bs') (w.branches p bs)
  | [] => .pure rfl
  | ⟨c, r⟩ :: bs => .bind (Settles.expr c) fun _ hc => .bind (Settles.expr r) fun _ hr =>
    .bind (Settles.branches bs) fun _ hbs => .pure (run_bind hc (run_bind hr (run_bind hbs rfl)))
theorem Settles.fields {p} : ∀ fs : List ResultField, Gives (fun fs' => w.fields p fs' = .ok fs') (w.fields p fs)
  | [] => .pure rfl
  | ⟨e, _⟩ :: fs =>
    .bind (Settles.expr e) fun _ he => .bind (Settles.fields fs) fun _ hfs => .pure (run_bind he (run_bind hfs rfl))
theorem Settles.orders {p} : ∀ os : List OrderItem, Gives (fun os' => w.orders p os' = .ok os') (w.orders p os)
  | [] => .pure rfl
  | ⟨e, _⟩ :: os =>
    .bind (Settles.expr e) fun _ he => .bind (Settles.orders os) fun _ hos => .pure (run_bind he (run_bind hos rfl))
/-- A table adds nothing to the facts, so what follows it stands where it stood. -/
theorem Settles.source {joined visible f} : ∀ t : Table,
    Gives (fun x => x.2 = f ∧ w.source joined visible f x.1 = .ok (x.1, f)) (w.source joined visible f t)
  | .named _ _ => by
    intro x h
    rw [Sweep.source, hw.table] at h
    cases h
    exact ⟨rfl, hw.table joined visible f _⟩
  | .derived s label => by
    refine .bind (Settles.select s) fun _ hs x h => ?_
    rw [hw.table] at h
    cases h
    exact ⟨rfl, run_bind hs (hw.table joined visible f _)⟩
theorem Settles.optSource {visible f} : ∀ t : Option Table,
    Gives (fun x => x.2 = f ∧ w.optSource visible f x.1 = .ok (x.1, f)) (w.optSource visible f t)
  | none => .pure ⟨rfl, rfl⟩
  | some t => .bind (Settles.source t) fun _ h => .pure ⟨h.1, run_bind h.2 rfl⟩
theorem Settles.joins {visible f} : ∀ js : List Join,
    Gives (fun x => x.2 = f ∧ w.joins visible f x.1 = .ok (x.1, f)) (w.joins visible f js)
  | [] => .pure ⟨rfl, rfl⟩
  | ⟨_, t, c, _⟩ :: js => by
    refine .bind (Settles.source t) fun {x} _ ht => ?_
    obtain ⟨t', f'⟩ := x
    obtain ⟨rfl, ht⟩ := ht
    exact .bind (Settles.optExpr c) fun _ hc => .bind (Settles.joins js) fun _ hjs =>
      .pure ⟨hjs.1, run_bind ht (run_bind hc (run_bind hjs.2 rfl))⟩
theorem Settles.unions : ∀ us : List UnionPart, Gives (fun us' => w.unions us' = .ok us') (w.unions us)
  | [] => .pure rfl
  | ⟨_, s⟩ :: us =>
    .bind (Settles.select s) fun _ hs => .bind (Settles.unions us) fun _ hus => .pure (run_bind hs (run_bind hus rfl))
theorem Settles.select {visible} : ∀ s : Select, Gives (fun s' => w.select visible s' = .ok s') (w.select visible s)
  | ⟨_, fs, t, js, c, gs, hv, os, l, o, us, f⟩ => by
    refine .bind (Settles.fields fs) fun hrun hfs => .bind (Settles.optSource t) fun {x} _ ht =>
      .bind (Settles.joins js) fun {y} _ hjs => ?_
    obtain ⟨t', f₁⟩ := x
    obtain ⟨js', f₂⟩ := y
    obtain ⟨rfl, ht⟩ := ht
    obtain ⟨rfl, hjs⟩ := hjs
    refine .bind (Settles.optExpr c) fun _ hc => .bind (Settles.exprs gs) fun _ hgs =>
      .bind (Settles.optExpr hv) fun _ hhv => .bind (Settles.orders os) fun _ hos =>
      .bind (Settles.optExpr l) fun _ hl => .bind (Settles.optExpr o) fun _ ho =>
      .bind (Settles.unions us) fun _ hus => .pure ?_
    -- the aliases of the fields are the same, so the select is entered with the facts that it has
    rw [Sweep.select, hw.opening (labels_fields hrun) f]
    exact run_bind hfs (run_bind ht (run_bind hjs (run_bind hc (run_bind hgs (run_bind hhv (run_bind hos
      (run_bind hl (run_bind ho (run_bind hus rfl)))))))))
end

theorem Settles.assignments : ∀ {as : List Assignment} {p : Place},
    Gives (fun as' => w.assignments p as' = .ok as') (w.assignments p as)
  | [], _ => .pure rfl
  | ⟨t, v⟩ :: _, _ => .bind (Settles.expr hw t) fun _ ht => .bind (Settles.expr hw v) fun _ hv =>
    .bind Settles.assignments fun _ has => .pure (run_bind ht (run_bind hv (run_bind has rfl)))

theorem Settles.insertSource {p : Place} : ∀ {s : InsertSource},
    Gives (fun s' => w.insertSource p s' = .ok s') (w.insertSource p s)
  | .values rows => .bind (Settles.exprs hw rows) fun _ h => .pure (run_bind h rfl)
  | .select s => .bind (Settles.select hw s) fun _ h => .pure (run_bind h rfl)

/-- **A sweep that settles on names settles on queries.** -/
theorem Settles.query {q : Query} : Gives (fun r => w.query r = .ok r) (w.query q) := by
  cases q with
  | select s => exact .map fun s' h => map_eq_ok.mpr ⟨s', Settles.select hw s h, rfl⟩
  | insert i =>
    refine .map fun i' h => map_eq_ok.mpr ⟨i', ?_, rfl⟩
    revert i'
    refine Gives.bind (Settles.source hw _) fun {x} _ ht => ?_
    obtain ⟨t', f'⟩ := x
    obtain ⟨rfl, ht⟩ := ht
    exact .bind (Settles.exprs hw _) fun _ hcs => .bind (Settles.insertSource hw) fun _ hs =>
      .bind (Settles.fields hw _) fun _ hfs => .pure (run_bind ht (run_bind hcs (run_bind hs (run_bind hfs rfl))))
  | update u =>
    refine .map fun u' h => map_eq_ok.mpr ⟨u', ?_, rfl⟩
    revert u'
    refine Gives.bind (Settles.source hw _) fun {x} _ ht => ?_
    obtain ⟨t', f'⟩ := x
    obtain ⟨rfl, ht⟩ := ht
    exact .bind (Settles.assignments hw) fun _ has => .bind (Settles.optExpr hw _) fun _ hc =>
      .bind (Settles.orders hw _) fun _ hos => .bind (Settles.optExpr hw _) fun _ hl =>
      .bind (Settles.optExpr hw _) fun _ ho =>
      .pure (run_bind ht (run_bind has (run_bind hc (run_bind hos (run_bind hl (run_bind ho rfl))))))
  | delete d =>
    refine .map fun d' h => map_eq_ok.mpr ⟨d', ?_, rfl⟩
    revert d'
    refine Gives.bind (Settles.source hw _) fun {x} _ ht => ?_
    obtain ⟨t', f'⟩ := x
    obtain ⟨rfl, ht⟩ := ht
    exact .bind (Settles.optExpr hw _) fun _ hc => .bind (Settles.orders hw _) fun _ hos =>
      .bind (Settles.optExpr hw _) fun _ hl => .bind (Settles.optExpr hw _) fun _ ho =>
      .pure (run_bind ht (run_bind hc (run_bind hos (run_bind hl (run_bind ho rfl)))))

end Sweep

/-! ## Names -/

namespace Columns

theorem resolve_resolve {p : Place} {i i' : Identifier} (h : resolve p i = .ok i') : resolve p i' = .ok i' := by
  rcases eq_or_isResolved h with rfl | ⟨-, hresolved⟩
  · exact h
  · rw [resolve, hresolved]
    rfl

theorem settles : sweep.Settles where
  opening {fs fs'} hlabels f := by
    have heq : fs'.filterMap (·.label) = fs.filterMap (·.label) := by
      have hmapped := congrArg (List.filterMap id) hlabels
      rwa [List.filterMap_map, List.filterMap_map] at hmapped
    simp only [sweep, heq]
  ident := resolve_resolve
  table _ _ _ _ := rfl

end Columns

/-- **Names are resolved once and for all.** Whatever is known of a query, if its names can be resolved, this
can be done again, and changes neither a name nor what it was resolved to, nor any fact. -/
theorem Pass.columns_settles {n : Naming} {q r : Query} (h : Pass.columns.run n q = .ok r) :
    Pass.columns.run n r = .ok r := by
  have hq : Columns.sweep.query q = .ok r := Joins.lift_query_eq_ok.mp h
  exact Joins.lift_query_eq_ok.mpr (Columns.settles.query hq)

/-- Matches of two teams, whose columns have the names of each other's properties. -/
def fixtures : Schema where
  entities :=
    [{ name := "Match", table := "matches"
       properties := [("home", { column := "away", ty := .int }), ("away", { column := "home", ty := .int })] }]

/-- A correlated subquery beside a table of which nothing is known, and a result alias. -/
def fixturesText : String :=
  "SELECT m.home, m.away AS home FROM Match m WHERE away IN (SELECT l.team FROM ladder l WHERE m.home = l.team) "
    ++ "ORDER BY home"

theorem Pass.columns_settles_fixtures : ∃ q j r, Query.ofText fixturesText = .ok q ∧ q.Joined ⟨fixtures, false⟩ j
    ∧ Pass.columns.run ⟨fixtures, false⟩ j = .ok r
    ∧ r.references.map (·.ident.value) = ["m.away", "m.home", "home", "l.team", "m.away", "l.team", "home"]
    ∧ Pass.columns.run ⟨fixtures, false⟩ r = .ok r := by
  have hchecked : ((Query.ofText fixturesText).toOption.bind fun q =>
      ([Pass.sources, .derived, .joins, .columns].foldlM (fun q (p : Pass) => p.run ⟨fixtures, false⟩ q) q).toOption.map
        fun r => decide (r.references.map (·.ident.value)
          = ["m.away", "m.home", "home", "l.team", "m.away", "l.team", "home"])) = some true := by
    unfold fixturesText
    rw [← String.ofList_append, Query.ofText_ofList]
    decide +kernel
  obtain ⟨q, r, hq, hr, hnames⟩ := Query.exists_run hchecked
  obtain ⟨j, hj, hr⟩ := Query.named_eq_ok hr
  have hrun : Pass.columns.run ⟨fixtures, false⟩ j = .ok r := Joins.lift_query_eq_ok.mpr hr
  exact ⟨q, j, r, hq, hj, hrun, of_decide_eq_true hnames, columns_settles hrun⟩

end EntitySql
