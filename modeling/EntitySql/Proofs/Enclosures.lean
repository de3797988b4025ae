import Mathlib
import EntitySql.Proofs.KeptFields

/-!
# Selects with the queries around them

The selects of a query with the facts of the queries around each, the innermost first. A pass that goes
through a query calls itself on each of its selects, and here these calls are listed: a select after the
pass is what the pass makes of the select in the same place before it, in sight of the queries around it.

* `Sweep.Grows.visits`: a sweep sees the queries around a select as they are after it, or before they had
  all their sources.
* `Joins.visits`: the completion of joins sees them as they are after it. The selects it inserts come from
  filters.
-/

namespace EntitySql

open Outcome

/-! ## Sweeps -/

namespace Sweep

/-- A sweep that adds sources only, and leaves the selects of tables to themselves. -/
structure Grows (w : Sweep) : Prop where
  opening : ∀ (fs : List ResultField) (f : Facts), f.Gains (fun _ => True) (w.opening fs f)
  table : ∀ {joined visible f t} {t' : Table} {f' : Facts}, w.table joined visible f t = .ok (t', f') →
    f.Gains (fun _ => True) f' ∧ ∀ scopes, t'.enclosed scopes = t.enclosed scopes

/-- The second select is what the sweep makes of the first. The queries in sight are those around the second,
perhaps without their last sources. -/
structure Visits (w : Sweep) (x y : Enclosed) : Prop where
  isolated : y.isolated = x.isolated
  around : ScopesGain (fun _ => True) x.around y.around
  facts : x.select.facts.Gains (fun _ => True) y.select.facts
  run : ∃ seen, ScopesGain (fun _ => True) seen y.visible ∧ w.select seen x.select = .ok y.select

/-- All selects are visited, in order. -/
abbrev VisitsAll (w : Sweep) : List Enclosed → List Enclosed → Prop := List.Forall₂ w.Visits

theorem VisitsAll.append {w : Sweep} {xs ys xs' ys' : List Enclosed} (h : w.VisitsAll xs ys)
    (h' : w.VisitsAll xs' ys') : w.VisitsAll (xs ++ xs') (ys ++ ys') :=
  List.rel_append h h'

/-- The second join is the first with its table swept, and the facts of its query are `last` in the end. -/
structure Swept (w : Sweep) (visible : List Facts) (last : Facts) (j j' : Join) : Prop where
  kind : j'.kind = j.kind
  path : j'.path = j.path
  conditional : j'.condition.isSome = j.condition.isSome
  table : ∃ f f', f'.Gains (fun _ => True) last ∧ w.source true visible f j.table = .ok (j'.table, f')

variable {w : Sweep} (hw : w.Grows)

include hw

theorem Grows.source {joined : Bool} {visible : List Facts} {f f' : Facts} {t t' : Table}
    (h : w.source joined visible f t = .ok (t', f')) : f.Gains (fun _ => True) f' := by
  cases t with
  | named name label => exact (hw.table h).1
  | derived s label =>
    simp only [Sweep.source, bind_eq_ok] at h
    obtain ⟨s', -, h⟩ := h
    exact (hw.table h).1

theorem Grows.optSource {visible : List Facts} {f f' : Facts} {t t' : Option Table}
    (h : w.optSource visible f t = .ok (t', f')) : f.Gains (fun _ => True) f' := by
  cases t with
  | none => cases h; exact .refl f
  | some t =>
    simp only [Sweep.optSource, bind_eq_ok, pure_eq_ok] at h
    obtain ⟨⟨t', f₁⟩, ht, h⟩ := h
    cases h
    exact hw.source ht

theorem Grows.joins {visible : List Facts} {js js' : List Join} {f f' : Facts}
    (h : w.joins visible f js = .ok (js', f')) : f.Gains (fun _ => True) f' := by
  induction js generalizing f js' with
  | nil => cases h; exact .refl _
  | cons j js ih =>
    obtain ⟨kind, t, c, path⟩ := j
    simp only [Sweep.joins, bind_eq_ok, pure_eq_ok] at h
    obtain ⟨⟨t', f₁⟩, ht, c', -, ⟨js', f₂⟩, hjs, h⟩ := h
    cases h
    exact (hw.source ht).trans (ih hjs)

/-- The joins are swept one after the other. -/
theorem Grows.swept {visible : List Facts} {js js' : List Join} {f f' : Facts}
    (h : w.joins visible f js = .ok (js', f')) : List.Forall₂ (Swept w visible f') js js' := by
  induction js generalizing f js' with
  | nil => cases h; exact .nil
  | cons j js ih =>
    obtain ⟨kind, t, c, path⟩ := j
    simp only [Sweep.joins, bind_eq_ok, pure_eq_ok] at h
    obtain ⟨⟨t', f₁⟩, ht, c', hc, ⟨js', f₂⟩, hjs, h⟩ := h
    cases h
    refine .cons ⟨rfl, rfl, ?_, f, f₁, hw.joins hjs, ht⟩ (ih hjs)
    cases c with
    | none => cases hc; rfl
    | some e =>
      simp only [Sweep.optExpr, bind_eq_ok, pure_eq_ok] at hc
      obtain ⟨e', -, rfl⟩ := hc
      rfl

theorem Visits.swept {x y : Enclosed} (h : w.Visits x y) :
    ∃ seen, ScopesGain (fun _ => True) seen y.visible
      ∧ List.Forall₂ (Swept w seen y.select.facts) x.select.joins y.select.joins := by
  obtain ⟨-, -, -, seen, hseen, hrun⟩ := h
  obtain ⟨_, _, ⟨_, fs, t, js, c, gs, hv, os, l, o, us, f⟩⟩ := x
  simp only [Sweep.select, bind_eq_ok, pure_eq_ok] at hrun
  obtain ⟨fs', -, ⟨t', f₁⟩, -, ⟨js', f₂⟩, hjs, c', -, gs', -, hv', -, os', -, l', -, o', -, us', -, hy⟩ := hrun
  refine ⟨seen, hseen, ?_⟩
  rw [← hy]
  exact hw.swept hjs

set_option linter.unusedSectionVars false

/-- The selects of one list are visited for those of another, wherever the scopes `seen` belong to those after the
sweep. -/
def VisitsFrom (w : Sweep) (seen : List Facts) (xs ys : List Facts → List Enclosed) : Prop :=
  ∀ {pre post}, ScopesGain (fun _ => True) seen post → ScopesGain (fun _ => True) pre post →
    w.VisitsAll (xs pre) (ys post)

mutual
theorem visits_expr {seen labelled} : ∀ e : Expr,
    Gives (fun e' => w.VisitsFrom seen (e.enclosed ·) (e'.enclosed ·)) (w.expr ⟨seen, labelled⟩ e)
  | .ident _ => .bind .any fun _ _ => .pure fun _ _ => .nil
  | .literal _ | .marker _ | .named _ => .pure fun _ _ => .nil
  | .call _ _ args => .bind (visits_exprs args) fun _ h => .pure h
  | .list items => .bind (visits_exprs items) fun _ h => .pure h
  | .arith _ l r | .compare _ l r | .logic _ l r =>
    .bind (visits_expr l) fun _ hl => .bind (visits_expr r) fun _ hr =>
    .pure fun hs hp => (hl hs hp).append (hr hs hp)
  | .unary _ e => .bind (visits_expr e) fun _ h => .pure h
  | .case o bs e => .bind (visits_optExpr o) fun _ ho => .bind (visits_branches bs) fun _ hbs =>
    .bind (visits_optExpr e) fun _ he => .pure fun hs hp => ((ho hs hp).append (hbs hs hp)).append (he hs hp)
  | .subquery s => .bind (visits_select s false) fun _ h => .pure h
theorem visits_exprs {seen labelled} : ∀ es : List Expr,
    Gives (fun es' => w.VisitsFrom seen (exprsEnclosed · es) (exprsEnclosed · es')) (w.exprs ⟨seen, labelled⟩ es)
  | [] => .pure fun _ _ => .nil
  | e :: es => .bind (visits_expr e) fun _ he => .bind (visits_exprs es) fun _ hes =>
    .pure fun hs hp => (he hs hp).append (hes hs hp)
theorem visits_optExpr {seen labelled} : ∀ o : Option Expr,
    Gives (fun o' => w.VisitsFrom seen (optEnclosed · o) (optEnclosed · o')) (w.optExpr ⟨seen, labelled⟩ o)
  | none => .pure fun _ _ => .nil
  | some e => .bind (visits_expr e) fun _ h => .pure h
theorem visits_branches {seen labelled} : ∀ bs : List Branch,
    Gives (fun bs' => w.VisitsFrom seen (branchesEnclosed · bs) (branchesEnclosed · bs'))
      (w.branches ⟨seen, labelled⟩ bs)
  | [] => .pure fun _ _ => .nil
  | ⟨c, r⟩ :: bs => .bind (visits_expr c) fun _ hc => .bind (visits_expr r) fun _ hr =>
    .bind (visits_branches bs) fun _ hbs => .pure fun hs hp => ((hc hs hp).append (hr hs hp)).append (hbs hs hp)
theorem visits_fields {seen labelled} : ∀ fs : List ResultField,
    Gives (fun fs' => w.VisitsFrom seen (fieldsEnclosed · fs) (fieldsEnclosed · fs')) (w.fields ⟨seen, labelled⟩ fs)
  | [] => .pure fun _ _ => .nil
  | ⟨e, _⟩ :: fs => .bind (visits_expr e) fun _ he => .bind (visits_fields fs) fun _ hfs =>
    .pure fun hs hp => (he hs hp).append (hfs hs hp)
theorem visits_orders {seen labelled} : ∀ os : List OrderItem,
    Gives (fun os' => w.VisitsFrom seen (ordersEnclosed · os) (ordersEnclosed · os')) (w.orders ⟨seen, labelled⟩ os)
  | [] => .pure fun _ _ => .nil
  | ⟨e, _⟩ :: os => .bind (visits_expr e) fun _ he => .bind (visits_orders os) fun _ hos =>
    .pure fun hs hp => (he hs hp).append (hos hs hp)
theorem visits_source {joined visible f} : ∀ t : Table,
    Gives (fun x => ∀ {pre post}, ScopesGain (fun _ => True) pre post →
      w.VisitsAll (t.enclosed pre) (x.1.enclosed post)) (w.source joined visible f t)
  | .named _ _ => by
    intro x h pre post _
    rw [(hw.table h).2]
    exact .nil
  | .derived s _ => by
    refine .bind (visits_select s true) fun _ hs x h pre post hp => ?_
    rw [(hw.table h).2]
    exact hs .nil hp
theorem visits_optSource {visible f} : ∀ t : Option Table,
    Gives (fun x => ∀ {pre post}, ScopesGain (fun _ => True) pre post →
      w.VisitsAll (optTableEnclosed pre t) (optTableEnclosed post x.1)) (w.optSource visible f t)
  | none => .pure fun _ => .nil
  | some t => .bind (visits_source t) fun _ h => .pure h
theorem visits_joins {visible f} : ∀ js : List Join,
    Gives (fun x => ∀ {pre last around}, x.2.Gains (fun _ => True) last → ScopesGain (fun _ => True) visible around →
      ScopesGain (fun _ => True) pre (last :: around) →
      w.VisitsAll (joinsEnclosed pre js) (joinsEnclosed (last :: around) x.1)) (w.joins visible f js)
  | [] => .pure fun _ _ _ => .nil
  | ⟨_, t, c, _⟩ :: js => .bind (visits_source t) fun _ ht => .bind (visits_optExpr c) fun _ hc =>
    .bind (visits_joins js) fun hrun hjs => .pure fun hlast hs hp =>
    ((ht hp).append (hc (.cons ((hw.joins hrun).trans hlast) hs) hp)).append (hjs hlast hs hp)
theorem visits_unions : ∀ us : List UnionPart,
    Gives (fun us' => ∀ {pre post}, ScopesGain (fun _ => True) pre post →
      w.VisitsAll (unionsEnclosed pre us) (unionsEnclosed post us')) (w.unions us)
  | [] => .pure fun _ => .nil
  | ⟨_, s⟩ :: us => .bind (visits_select s true) fun _ hs => .bind (visits_unions us) fun _ hus =>
    .pure fun hp => (hs .nil hp).append (hus hp)
theorem visits_select {seen} : ∀ (s : Select) (isolated : Bool),
    Gives (fun s' => ∀ {pre post}, ScopesGain (fun _ => True) seen (if isolated then [] else post) →
      ScopesGain (fun _ => True) pre post → w.VisitsAll (s.enclosed pre isolated) (s'.enclosed post isolated))
      (w.select seen s)
  | ⟨_, fs, t, js, c, gs, hv, os, l, o, us, f⟩, isolated => by
    refine .of_run (.bind (visits_fields fs) fun _ hfs => .bind (visits_optSource t) fun ht' ht =>
      .bind (visits_joins js) fun {x} hjs' hjs => .bind (visits_optExpr c) fun _ hc =>
      .bind (visits_exprs gs) fun _ hgs =>
      .bind (visits_optExpr hv) fun _ hhv => .bind (visits_orders os) fun _ hos => .bind (visits_optExpr l) fun _ hl =>
      .bind (visits_optExpr o) fun _ ho => .bind (visits_unions us) fun _ hus => .pure fun hrun pre post hseen hpre => ?_)
    -- the facts of the select grow from clause to clause
    have hf₁ := hw.optSource ht'
    have hf₂ := hw.joins hjs'
    have hf := (hw.opening fs f).trans (hf₁.trans hf₂)
    have hinner := List.Forall₂.cons hf (hpre.inside isolated)
    have hfields := List.Forall₂.cons (hf₁.trans hf₂) hseen
    have hrest := List.Forall₂.cons (Facts.Gains.refl x.2) hseen
    refine .cons ⟨rfl, hpre, hf, _, hseen, hrun⟩ ?_
    exact (((((((((hfs hfields hinner).append (ht hinner)).append (hjs (.refl _) hseen hinner)).append
      (hc hrest hinner)).append (hgs hrest hinner)).append (hhv hrest hinner)).append (hos hrest hinner)).append
      (hl hrest hinner)).append (ho hrest hinner)).append (hus hinner)
end

theorem visits_assignments {seen : List Facts} {labelled : Bool} : ∀ as : List Assignment,
    Gives (fun as' => w.VisitsFrom seen (assignmentsEnclosed · as) (assignmentsEnclosed · as'))
      (w.assignments ⟨seen, labelled⟩ as)
  | [] => .pure fun _ _ => .nil
  | ⟨t, v⟩ :: as => .bind (visits_expr hw t) fun _ ht => .bind (visits_expr hw v) fun _ hv =>
    .bind (visits_assignments as) fun _ has => .pure fun hs hp => ((ht hs hp).append (hv hs hp)).append (has hs hp)

theorem visits_insertSource {seen : List Facts} {labelled : Bool} : ∀ x : InsertSource,
    Gives (fun x' => w.VisitsFrom seen (x.enclosed ·) (x'.enclosed ·)) (w.insertSource ⟨seen, labelled⟩ x)
  | .values rows => .bind (visits_exprs hw rows) fun _ h => .pure h
  | .select s => .bind (visits_select hw s true) fun _ h => .pure fun _ hp => h .nil hp

/-- **A sweep visits all selects of a query.** -/
theorem Grows.visits {q : Query} : Gives (fun q' => w.VisitsAll q.enclosed q'.enclosed) (w.query q) := by
  -- a statement has its sources from its table, and is swept in sight of itself
  have hself : ∀ {f f' : Facts}, f.Gains (fun _ => True) f' →
      ScopesGain (fun _ => True) [f'] [f'] ∧ ScopesGain (fun _ => True) [f] [f'] :=
    fun h => ⟨.refl _, .cons h .nil⟩
  cases q with
  | select s => exact .map fun _ h => visits_select hw s false h .nil .nil
  | insert i =>
    refine .map (.bind (visits_source hw _) fun hrun ht => ?_)
    obtain ⟨hs, hp⟩ := hself (hw.source hrun)
    exact .bind (visits_exprs hw _) fun _ hcs => .bind (visits_insertSource hw _) fun _ hx =>
      .bind (visits_fields hw _) fun _ hfs =>
      .pure ((((ht hp).append (hcs hs hp)).append (hx hs hp)).append (hfs hs hp))
  | update u =>
    refine .map (.bind (visits_source hw _) fun hrun ht => ?_)
    obtain ⟨hs, hp⟩ := hself (hw.source hrun)
    exact .bind (visits_assignments hw _) fun _ has => .bind (visits_optExpr hw _) fun _ hc =>
      .bind (visits_orders hw _) fun _ hos => .bind (visits_optExpr hw _) fun _ hl =>
      .bind (visits_optExpr hw _) fun _ ho =>
      .pure ((((((ht hp).append (has hs hp)).append (hc hs hp)).append (hos hs hp)).append (hl hs hp)).append
        (ho hs hp))
  | delete d =>
    refine .map (.bind (visits_source hw _) fun hrun ht => ?_)
    obtain ⟨hs, hp⟩ := hself (hw.source hrun)
    exact .bind (visits_optExpr hw _) fun _ hc => .bind (visits_orders hw _) fun _ hos =>
      .bind (visits_optExpr hw _) fun _ hl => .bind (visits_optExpr hw _) fun _ ho =>
      .pure (((((ht hp).append (hc hs hp)).append (hos hs hp)).append (hl hs hp)).append (ho hs hp))

end Sweep

theorem Naming.grows (n : Naming) : n.sweep.Grows where
  opening _ f := .refl f
  table {joined visible f t t' f'} h := by
    cases t with
    | named name label =>
      obtain ⟨⟨name', label', rfl, -⟩, -, hf⟩ := n.makes.named (s := .ofFacts f) trivial h
      exact ⟨hf.mono fun _ _ => trivial, fun _ => rfl⟩
    | derived s label =>
      obtain ⟨rfl, -, hf⟩ := n.makes.derived (s := .ofFacts f) trivial h
      exact ⟨hf.mono fun _ _ => trivial, fun _ => rfl⟩

theorem Derived.grows : Derived.sweep.Grows where
  opening _ f := .refl f
  table {joined visible f t t' f'} h := by
    cases t with
    | named name label =>
      obtain ⟨⟨name', label', rfl, -⟩, -, hf⟩ := Derived.makes.named (s := .ofFacts f) trivial h
      exact ⟨hf.gains.mono fun _ _ => trivial, fun _ => rfl⟩
    | derived s label =>
      obtain ⟨rfl, -, hf⟩ := Derived.makes.derived (s := .ofFacts f) trivial h
      exact ⟨hf.gains.mono fun _ _ => trivial, fun _ => rfl⟩

/-! ## The completion of joins -/

namespace Joins

/-- The select comes from a filter of the schema, and its joins are completed like the others. -/
def FromFilter (schema : Schema) (y : Enclosed) : Prop :=
  ∃ s, schema.HasInFilter s
    ∧ ∃ budget, select schema (filter schema budget) y.around y.isolated s = .ok y.select

variable {schema : Schema}

/-- The selects of what a filter is read as are those of the filter. -/
theorem hasInFilter_of_restricts {rel : Relation} {label : String} {r : Expr} (hr : Restricts schema.has rel label r)
    {scopes : List Facts} {x : Enclosed} (hx : x ∈ r.enclosed scopes) : schema.HasInFilter x.select := by
  obtain ⟨⟨source, name, hsource, hrel⟩, text, x₀, htext, hx₀, rfl⟩ := hr
  have hmem : text ∈ schema.filters := Schema.mem_filters (of_decide_eq_true hsource) hrel htext
  have hselect : x.select ∈ (qualify label x₀).selects := by
    rw [← @Expr.map_enclosed scopes]
    exact List.mem_map_of_mem hx
  rw [selects_qualify] at hselect
  exact ⟨text, hmem, x₀, hx₀, hselect⟩

theorem makes_any {filter : List Facts → Expr → Except CompileError Expr} :
    Makes schema schema.has filter (edit schema schema.has fun _ _ => True) :=
  makes (fun _ _ _ _ _ _ _ _ => trivial) fun _ => trivial

/-- What is made of a filter holds the selects of filters only, to any depth. -/
theorem filterVisits : ∀ budget, FilterVisits schema.has (FromFilter schema) (filter schema budget)
  | 0, _, _, _, _, _, _, _, h => by cases h
  | budget + 1, scopes, _, label, r, x, hscopes, hr, h => by
    intro y hy
    obtain ⟨-, hvisits⟩ := (makes_any.expr (P := fun _ => True) (filterVisits budget)
      (fun _ _ _ _ _ _ _ _ => trivial) r (p := ⟨[], false⟩)
      ⟨hscopes, strangers_of_restricts hr, .refl scopes, fun _ _ _ _ _ _ => trivial⟩).gives h
    rcases hvisits.exists_of_mem y hy with ⟨z, hz, hvisit⟩ | hfrom
    · exact ⟨z.select, hasInFilter_of_restricts hr hz, budget, hvisit.run⟩
    · exact hfrom

/-- The selects of a query, and those of filters between them. -/
abbrev VisitsAll (schema : Schema) : List Enclosed → List Enclosed → Prop :=
  Interleaved (Visits schema (filter schema (nestingBound schema))) (FromFilter schema)

/-- **The completion of joins visits all selects of a query**, and those of the filters that it inserts. -/
theorem visits {q q' : Query} (hq : q.collect (strangers schema.has) = []) (h : Joins.query schema q = .ok q') :
    VisitsAll schema q.enclosed q'.enclosed :=
  (makes_any.runs (filterVisits _) hq h).2

end Joins

end EntitySql
