import Mathlib
import EntitySql.Proofs.Recasting
import EntitySql.Proofs.Parsed

/-!
# What the passes do not see

The passes before the numbering of parameters look at a marker only for its type, and never at the literals
that a query was given. So a hidden recast may be made before these passes or after them: they succeed on a
recast query exactly if they do on the query itself, and the outcome is recast (`Alike`). Causes of failure
may differ, as some of them quote the query.

* `Sweep.Blind.query`, `Joins.alike_query`, `Results.alike_query`: the passes one by one.
* **`Query.prepares_recast`**, `Query.prepares_of_recast`: all of them.
-/

namespace EntitySql

/-! ## Outcomes that agree -/

section

variable {ε ε' α β γ δ : Type}

/-- The second outcome is a success exactly if the first is, and then what `ρ` makes of it. -/
def Alike (ρ : α → β) (x : Except ε α) (y : Except ε' β) : Prop := y.toOption = x.toOption.map ρ

namespace Alike

variable {ρ : α → β} {τ : γ → δ}

theorem ok {a : α} {b : β} (h : ρ a = b) : Alike ρ (.ok a : Except ε α) (.ok b : Except ε' β) :=
  congrArg some h.symm

theorem pure {a : α} {b : β} (h : ρ a = b) :
    Alike ρ (Pure.pure a : Except ε α) (Pure.pure b : Except ε' β) := ok h

theorem error (e : ε) (e' : ε') : Alike ρ (.error e : Except ε α) (.error e' : Except ε' β) := rfl

theorem of_eq {x : Except ε α} {y : Except ε β} (h : y = x.map ρ) : Alike ρ x y := by
  subst h
  cases x <;> rfl

theorem refl (x : Except ε α) : Alike id x x := by
  cases x <;> rfl

theorem bind {x : Except ε α} {y : Except ε' β} {f : α → Except ε γ} {g : β → Except ε' δ}
    (hx : Alike ρ x y) (hf : ∀ a, Alike τ (f a) (g (ρ a))) : Alike τ (x >>= f) (y >>= g) := by
  cases x with
  | error e =>
    cases y with
    | error e' => rfl
    | ok b => cases hx
  | ok a =>
    cases y with
    | error e' => cases hx
    | ok b =>
      cases hx
      exact hf a

theorem map {x : Except ε α} {y : Except ε' β} {f : α → γ} {g : β → δ} (hx : Alike ρ x y)
    (hf : ∀ a, τ (f a) = g (ρ a)) : Alike τ (f <$> x) (g <$> y) := by
  rw [map_eq_pure_bind, map_eq_pure_bind]
  exact bind hx fun a => pure (hf a)

theorem eq_ok {x : Except ε α} {y : Except ε' β} {a : α} (h : Alike ρ x y) (hx : x = .ok a) :
    y = .ok (ρ a) := by
  subst hx
  cases y with
  | error e' => cases h
  | ok b =>
    cases h
    rfl

theorem of_eq_ok {x : Except ε α} {y : Except ε' β} {b : β} (h : Alike ρ x y) (hy : y = .ok b) :
    ∃ a, x = .ok a ∧ ρ a = b := by
  subst hy
  cases x with
  | error e => cases h
  | ok a =>
    cases h
    exact ⟨a, rfl, rfl⟩

theorem lift {x : Except QueryError α} {y : Except QueryError β} (h : Alike ρ x y) :
    Alike ρ (QueryError.lift x) (QueryError.lift y) := by
  cases x <;> cases y <;> exact h

theorem liftParse {x : Except ParseError α} {y : Except ParseError β} (h : Alike ρ x y) :
    Alike ρ (ParseError.lift x) (ParseError.lift y) := by
  cases x <;> cases y <;> exact h

end Alike

end

variable {σ : Recast}

/-- Passes that leave markers as they are. -/
theorem Mark.alike {ε : Type} {f g : Expr → Except ε Expr} (hf : ∀ m : Mark, f m.expr = .ok m.expr)
    (hg : ∀ m : Mark, g m.expr = .ok m.expr) (m : Mark) :
    Alike (Expr.recast σ) (f m.expr) (g (σ.mark m).expr) := by
  rw [hf, hg]
  refine .ok ?_
  cases m <;> rfl

/-! ## Sweeps -/

/-- A sweep that does not see a recast. -/
structure Sweep.Blind (w : Sweep) (σ : Recast) : Prop where
  opening : ∀ fs f, w.opening (recastFields σ fs) (f.recast σ) = (w.opening fs f).recast σ
  ident : ∀ scopes labelled i,
    Alike id (w.ident ⟨scopes, labelled⟩ i) (w.ident ⟨recastScopes σ scopes, labelled⟩ i)
  table : ∀ joined visible f t, Alike (Prod.map (Table.recast σ) (Facts.recast σ))
    (w.table joined visible f t) (w.table joined (recastScopes σ visible) (f.recast σ) (t.recast σ))

namespace Sweep

theorem expr_mark (w : Sweep) {p : Place} (m : Mark) : w.expr p m.expr = .ok m.expr := by
  cases m <;> rfl

section

variable {w : Sweep} (hw : w.Blind σ)

include hw

set_option linter.unusedSectionVars false

mutual
theorem Blind.expr {scopes labelled} : ∀ e : Expr,
    Alike (Expr.recast σ) (w.expr ⟨scopes, labelled⟩ e)
      (w.expr ⟨recastScopes σ scopes, labelled⟩ (e.recast σ))
  | .ident i => .bind (hw.ident scopes labelled i) fun _ => .pure rfl
  | .literal _ => .pure rfl
  | .marker m => (Mark.anonymous m).alike w.expr_mark w.expr_mark
  | .named m => (Mark.named m).alike w.expr_mark w.expr_mark
  | .call _ _ args => .bind (Blind.exprs args) fun _ => .pure rfl
  | .list items => .bind (Blind.exprs items) fun _ => .pure rfl
  | .arith _ l r | .compare _ l r | .logic _ l r =>
    .bind (Blind.expr l) fun _ => .bind (Blind.expr r) fun _ => .pure rfl
  | .unary _ e => .bind (Blind.expr e) fun _ => .pure rfl
  | .case o bs e =>
    .bind (Blind.optExpr o) fun _ => .bind (Blind.branches bs) fun _ =>
      .bind (Blind.optExpr e) fun _ => .pure rfl
  | .subquery s => .bind (Blind.select s) fun _ => .pure rfl
theorem Blind.exprs {scopes labelled} : ∀ es : List Expr,
    Alike (recastExprs σ) (w.exprs ⟨scopes, labelled⟩ es)
      (w.exprs ⟨recastScopes σ scopes, labelled⟩ (recastExprs σ es))
  | [] => .pure rfl
  | e :: es =>
    .bind (Blind.expr e) fun _ => .bind (Blind.exprs es) fun _ => .pure rfl
theorem Blind.optExpr {scopes labelled} : ∀ o : Option Expr,
    Alike (recastOpt σ) (w.optExpr ⟨scopes, labelled⟩ o)
      (w.optExpr ⟨recastScopes σ scopes, labelled⟩ (recastOpt σ o))
  | none => .pure rfl
  | some e => .bind (Blind.expr e) fun _ => .pure rfl
theorem Blind.branches {scopes labelled} : ∀ bs : List Branch,
    Alike (recastBranches σ) (w.branches ⟨scopes, labelled⟩ bs)
      (w.branches ⟨recastScopes σ scopes, labelled⟩ (recastBranches σ bs))
  | [] => .pure rfl
  | ⟨c, r⟩ :: bs =>
    .bind (Blind.expr c) fun _ => .bind (Blind.expr r) fun _ =>
      .bind (Blind.branches bs) fun _ => .pure rfl
theorem Blind.fields {scopes labelled} : ∀ fs : List ResultField,
    Alike (recastFields σ) (w.fields ⟨scopes, labelled⟩ fs)
      (w.fields ⟨recastScopes σ scopes, labelled⟩ (recastFields σ fs))
  | [] => .pure rfl
  | ⟨e, _⟩ :: fs =>
    .bind (Blind.expr e) fun _ => .bind (Blind.fields fs) fun _ => .pure rfl
theorem Blind.orders {scopes labelled} : ∀ os : List OrderItem,
    Alike (recastOrders σ) (w.orders ⟨scopes, labelled⟩ os)
      (w.orders ⟨recastScopes σ scopes, labelled⟩ (recastOrders σ os))
  | [] => .pure rfl
  | ⟨e, _⟩ :: os =>
    .bind (Blind.expr e) fun _ => .bind (Blind.orders os) fun _ => .pure rfl
theorem Blind.source {joined visible f} : ∀ t : Table,
    Alike (Prod.map (Table.recast σ) (Facts.recast σ)) (w.source joined visible f t)
      (w.source joined (recastScopes σ visible) (f.recast σ) (t.recast σ))
  | .named _ _ => hw.table joined visible f _
  | .derived s _ =>
    .bind (Blind.select s) fun _ => hw.table joined visible f _
theorem Blind.optSource {visible f} : ∀ t : Option Table,
    Alike (Prod.map (recastOptTable σ) (Facts.recast σ)) (w.optSource visible f t)
      (w.optSource (recastScopes σ visible) (f.recast σ) (recastOptTable σ t))
  | none => .pure rfl
  | some t => .bind (Blind.source t) fun _ => .pure rfl
theorem Blind.joins {visible f} : ∀ js : List Join,
    Alike (Prod.map (recastJoins σ) (Facts.recast σ)) (w.joins visible f js)
      (w.joins (recastScopes σ visible) (f.recast σ) (recastJoins σ js))
  | [] => .pure rfl
  | ⟨_, t, c, _⟩ :: js =>
    .bind (Blind.source t) fun _ => .bind (Blind.optExpr c) fun _ =>
      .bind (Blind.joins js) fun _ => .pure rfl
theorem Blind.unions : ∀ us : List UnionPart,
    Alike (recastUnions σ) (w.unions us) (w.unions (recastUnions σ us))
  | [] => .pure rfl
  | ⟨_, s⟩ :: us => .bind (Blind.select s) fun _ => .bind (Blind.unions us) fun _ => .pure rfl
theorem Blind.select {visible} : ∀ s : Select,
    Alike (Select.recast σ) (w.select visible s) (w.select (recastScopes σ visible) (s.recast σ))
  | ⟨_, fs, t, js, c, gs, hv, os, l, o, us, f⟩ => by
    rw [Select.recast, Sweep.select, Sweep.select, hw.opening]
    exact .bind (Blind.fields fs) fun _ =>
      .bind (Blind.optSource t) fun ⟨_, f₁⟩ =>
      .bind (Blind.joins js) fun ⟨_, f₂⟩ =>
      .bind (Blind.optExpr c) fun _ =>
      .bind (Blind.exprs gs) fun _ =>
      .bind (Blind.optExpr hv) fun _ =>
      .bind (Blind.orders os) fun _ =>
      .bind (Blind.optExpr l) fun _ =>
      .bind (Blind.optExpr o) fun _ =>
      .bind (Blind.unions us) fun _ => .pure rfl
end

theorem Blind.assignments {scopes labelled} : ∀ as : List Assignment,
    Alike (recastAssignments σ) (w.assignments ⟨scopes, labelled⟩ as)
      (w.assignments ⟨recastScopes σ scopes, labelled⟩ (recastAssignments σ as))
  | [] => .pure rfl
  | ⟨t, v⟩ :: as =>
    .bind (Blind.expr hw t) fun _ => .bind (Blind.expr hw v) fun _ =>
      .bind (Blind.assignments as) fun _ => .pure rfl

theorem Blind.insertSource {scopes labelled} : ∀ s : InsertSource,
    Alike (InsertSource.recast σ) (w.insertSource ⟨scopes, labelled⟩ s)
      (w.insertSource ⟨recastScopes σ scopes, labelled⟩ (s.recast σ))
  | .values rows => .bind (Blind.exprs hw rows) fun _ => .pure rfl
  | .select s => .bind (Blind.select hw s) fun _ => .pure rfl

/-- **A sweep that does not see a recast of its parts does not see one of a query.** -/
theorem Blind.query (q : Query) : Alike (Query.recast σ) (w.query q) (w.query (q.recast σ)) := by
  cases q with
  | select s => exact .map (Blind.select hw s) fun _ => rfl
  | insert i =>
    refine .map (ρ := Insert.recast σ) ?_ fun _ => rfl
    exact .bind (Blind.source hw i.table) fun ⟨_, f⟩ =>
      .bind (Blind.exprs hw i.columns) fun _ =>
      .bind (Blind.insertSource hw i.source) fun _ =>
      .bind (Blind.fields hw i.returning) fun _ => .pure rfl
  | update u =>
    refine .map (ρ := Update.recast σ) ?_ fun _ => rfl
    exact .bind (Blind.source hw u.table) fun ⟨_, f⟩ =>
      .bind (Blind.assignments hw u.assignments) fun _ =>
      .bind (Blind.optExpr hw u.criteria) fun _ =>
      .bind (Blind.orders hw u.ordering) fun _ =>
      .bind (Blind.optExpr hw u.limit) fun _ =>
      .bind (Blind.optExpr hw u.offset) fun _ => .pure rfl
  | delete d =>
    refine .map (ρ := Delete.recast σ) ?_ fun _ => rfl
    exact .bind (Blind.source hw d.table) fun ⟨_, f⟩ =>
      .bind (Blind.optExpr hw d.criteria) fun _ =>
      .bind (Blind.orders hw d.ordering) fun _ =>
      .bind (Blind.optExpr hw d.limit) fun _ =>
      .bind (Blind.optExpr hw d.offset) fun _ => .pure rfl

end

end Sweep

/-! ## Sources, derived tables and columns -/

theorem Facts.alike_addSource (f : Facts) (s : Source) :
    Alike (Facts.recast σ) (f.addSource s) ((f.recast σ).addSource s) :=
  .of_eq (f.addSource_recast s)

theorem Naming.resolve_recast (n : Naming) (joined : Bool) (scopes : List Facts) (name : String)
    (label : Option String) :
    n.resolve joined (recastScopes σ scopes) name label = n.resolve joined scopes name label := by
  unfold Naming.resolve Naming.navigate
  simp only [scopedSource?_recast]

/-- A name stands for a table that is not derived. -/
theorem Naming.map_resolve (n : Naming) (joined : Bool) (scopes : List Facts) (name : String)
    (label : Option String) :
    (n.resolve joined scopes name label).map (Prod.map (Table.recast σ) id)
      = n.resolve joined scopes name label := by
  unfold Naming.resolve
  split
  · split
    · unfold Naming.navigate
      repeat' split
      all_goals rfl
    · rfl
  · unfold Naming.plain
    repeat' split
    all_goals rfl

theorem Naming.blind (n : Naming) : n.sweep.Blind σ where
  opening _ _ := rfl
  ident _ _ _ := .ok rfl
  table joined visible f t := by
    cases t with
    | derived s label => exact .pure rfl
    | named name label =>
      have hresolve : Alike (Prod.map (Table.recast σ) id) (n.resolve joined (f :: visible) name label)
          (n.resolve joined (recastScopes σ (f :: visible)) name label) :=
        .of_eq (by rw [n.resolve_recast, n.map_resolve])
      exact .bind hresolve fun ⟨_, s⟩ => .bind (f.alike_addSource s) fun _ => .pure rfl

/-! ### Derived tables -/

theorem Derived.alike_property (h : σ.Hidden) (e : Expr) (a : Option String) (f : Facts) :
    Alike id (Derived.property ⟨e, a⟩ f) (Derived.property ⟨e.recast σ, a⟩ (f.recast σ)) := by
  unfold Derived.property
  simp only [Expr.asIdentifier?_recast]
  have htyped : (e.recast σ).typed? [f.recast σ] = e.typed? [f] := Expr.typed?_recast h [f] e
  have hfind : ∀ value, Lookup.find value [f.recast σ] = Lookup.find value [f] :=
    fun value => Lookup.find_recast value [f]
  simp only [htyped, hfind]
  split
  · exact .refl _
  · exact .ok rfl
  · exact .error _ _

theorem Derived.alike_propertiesFrom (h : σ.Hidden) (f : Facts) :
    ∀ (fs : List ResultField) (acc : List (String × Property)),
    Alike id (Derived.propertiesFrom f acc fs) (Derived.propertiesFrom (f.recast σ) acc (recastFields σ fs))
  | [], _ => .ok rfl
  | ⟨e, a⟩ :: fs, acc => by
    have hproperty := Derived.alike_property h e a f
    rw [recastFields, Derived.propertiesFrom, Derived.propertiesFrom]
    simp only [Expr.asIdentifier?_recast]
    split
    · split
      · exact .bind (.refl _) fun _ => Derived.alike_propertiesFrom h f fs _
      · exact .bind hproperty fun _ => Derived.alike_propertiesFrom h f fs _
    · exact .bind hproperty fun _ => Derived.alike_propertiesFrom h f fs _

theorem Derived.blind (h : σ.Hidden) : Derived.sweep.Blind σ where
  opening _ _ := rfl
  ident _ _ _ := .ok rfl
  table joined visible f t := by
    match t with
    | .named name label => exact .pure rfl
    | .derived s none => exact .error _ _
    | .derived s (some label) =>
      have hproperties : Alike id (Derived.properties s) (Derived.properties (s.recast σ)) := by
        unfold Derived.properties
        rw [s.facts_recast, s.fields_recast]
        exact Derived.alike_propertiesFrom h s.facts s.fields []
      exact .bind hproperties fun ps => .bind (f.alike_addSource (.derived label ps)) fun _ => .pure rfl

theorem Columns.blind : Columns.sweep.Blind σ where
  opening fs f := by
    simp only [Columns.sweep, labels_recastFields]
    rfl
  ident scopes labelled i := by
    have hlabel : Columns.isLabel ⟨recastScopes σ scopes, labelled⟩ i
        = Columns.isLabel ⟨scopes, labelled⟩ i := by
      cases scopes <;> rfl
    have hresolve : Columns.resolve ⟨recastScopes σ scopes, labelled⟩ i
        = Columns.resolve ⟨scopes, labelled⟩ i := by
      unfold Columns.resolve
      simp only [hlabel, Lookup.find_recast]
    show Alike id (Columns.resolve _ i) (Columns.resolve _ i)
    rw [hresolve]
    exact .refl _
  table _ _ _ _ := .pure rfl

/-! ## Joins -/

/-- Filters of relations stay. -/
theorem Recast.Hidden.filter (h : σ.Hidden) {text label : String} {e : Expr}
    (he : Expr.ofDetached text = .ok e) : (Joins.qualify label e).recast σ = Joins.qualify label e := by
  refine Expr.recast_eq_self _ ?_
  rw [Joins.collect_qualify]
  intro g hg
  have hspliced := Expr.spliced_givens he g hg
  match g, hspliced with
  | .mark (.named m), hm =>
    rw [show m = { name := m.name } from hm]
    exact h.named m.name
  | .literals b, hb =>
    rw [show b = none from hb]
    exact h.unsupplied

def Join.recast (σ : Recast) (j : Join) : Join :=
  ⟨j.kind, j.table.recast σ, recastOpt σ j.condition, j.path⟩

theorem recastJoins_toList : ∀ j : Option Join, recastJoins σ j.toList = (j.map (Join.recast σ)).toList
  | none | some ⟨_, _, _, _⟩ => rfl

namespace Joins

def Completion.recast (σ : Recast) (c : Completion) : Completion :=
  { link := c.link.map (Join.recast σ)
    keys := c.keys.recast σ
    restriction := recastOpt σ c.restriction }

theorem follow_recast (schema : Schema) (visible : List Facts) (f : Facts) (label : String)
    (path : RelationPath) :
    follow schema (recastScopes σ visible) (f.recast σ) label path = follow schema visible f label path := by
  have hscoped : scopedSource? (f.recast σ :: recastScopes σ visible) path.source
      = scopedSource? (f :: visible) path.source := scopedSource?_recast (f :: visible) path.source
  unfold follow
  rw [hscoped]

theorem alike_connect (kind : JoinKind) (label : String) (path : RelationPath) (source target : Entity)
    (f : Facts) (link : Link) :
    Alike (Prod.map (Prod.map (Option.map (Join.recast σ)) (Expr.recast σ)) (Facts.recast σ))
      (connect kind label path source target f link)
      (connect kind label path source target (f.recast σ) link) := by
  cases link with
  | forward foreignKey => exact .bind (.refl _) fun _ => .pure rfl
  | inverse foreignKey => exact .bind (.refl _) fun _ => .pure rfl
  | junction table sourceColumn targetColumn =>
    exact .bind (.refl _) fun _ => .bind (.refl _) fun _ => .bind (f.alike_addSource _) fun _ => .pure rfl

theorem alike_restriction (h : σ.Hidden) (label : String) (filter : Option String) :
    Alike (recastOpt σ) (restriction label filter) (restriction label filter) := by
  cases filter with
  | none => exact .ok rfl
  | some text =>
    cases he : Expr.ofDetached text with
    | error e =>
      rw [restriction, he]
      exact .error _ _
    | ok e =>
      rw [restriction, he]
      exact .ok (by rw [recastOpt, h.filter he])

theorem alike_complete (h : σ.Hidden) (schema : Schema) (visible : List Facts) (f : Facts) (kind : JoinKind)
    (t : Table) (c c' : Option Expr) (p : Option RelationPath) (path : RelationPath) :
    Alike (Prod.map (Completion.recast σ) (Facts.recast σ)) (complete schema visible f ⟨kind, t, c, p⟩ path)
      (complete schema (recastScopes σ visible) (f.recast σ) ⟨kind, t.recast σ, c', p⟩ path) := by
  unfold complete
  simp only [Table.label_recast, follow_recast]
  refine .bind (.refl _) fun ⟨source, relation, target⟩ => ?_
  refine .bind (alike_connect kind _ path source target f relation.link).lift fun ⟨⟨link, keys⟩, f'⟩ => ?_
  exact .bind (alike_restriction h _ relation.filter).liftParse fun _ => .pure rfl

theorem alike_completeAll (h : σ.Hidden) (schema : Schema) (visible : List Facts) :
    ∀ (js : List Join) (f : Facts),
    Alike (Prod.map (List.map (Option.map (Completion.recast σ))) (Facts.recast σ))
      (completeAll schema visible f js)
      (completeAll schema (recastScopes σ visible) (f.recast σ) (recastJoins σ js)) := by
  intro js
  induction js with
  | nil => exact fun _ => .pure rfl
  | cons j js ih =>
    intro f
    obtain ⟨kind, t, c, p⟩ := j
    rw [recastJoins]
    cases p with
    | none => cases c <;> exact .bind (ih f) fun _ => .pure rfl
    | some path =>
      cases c with
      | some c => exact .bind (ih f) fun _ => .pure rfl
      | none =>
        refine .bind (alike_complete h schema visible f kind t none none (some path) path) ?_
        rintro ⟨_, f'⟩
        exact .bind (ih f') fun _ => .pure rfl

/-- A reader of filters that does not see a recast. -/
def FilterBlind (σ : Recast) (filter : List Facts → Expr → Except CompileError Expr) : Prop :=
  ∀ scopes e, Alike (Expr.recast σ) (filter scopes e) (filter (recastScopes σ scopes) (e.recast σ))

theorem alike_completed {filter : List Facts → Expr → Except CompileError Expr} (hfilter : FilterBlind σ filter)
    (scopes : List Facts) (kind : JoinKind) (t : Table) (c c' : Option Expr) (path : Option RelationPath)
    (completion : Completion) :
    Alike (recastJoins σ) (completed filter scopes ⟨kind, t, c, path⟩ completion)
      (completed filter (recastScopes σ scopes) ⟨kind, t.recast σ, c', path⟩ (completion.recast σ)) := by
  obtain ⟨link, keys, r⟩ := completion
  have hcondition : ∀ r, recastOpt σ (some (Completion.condition ⟨link, keys, r⟩))
      = some (Completion.condition (Completion.recast σ ⟨link, keys, r⟩)) := by
    intro r
    cases r <;> rfl
  have hjoins : ∀ r,
      recastJoins σ (link.toList ++ [⟨kind, t, some (Completion.condition ⟨link, keys, r⟩), path⟩])
      = (link.map (Join.recast σ)).toList
        ++ [⟨kind, t.recast σ, some (Completion.condition (Completion.recast σ ⟨link, keys, r⟩)), path⟩] := by
    intro r
    rw [recastJoins_append, recastJoins_toList, recastJoins, recastJoins, hcondition]
  cases r with
  | none => exact .bind (ρ := recastOpt σ) (.pure rfl) fun _ => .pure (hjoins _)
  | some r => exact .bind (ρ := recastOpt σ) (.map (hfilter scopes r) fun _ => rfl) fun _ => .pure (hjoins _)

theorem expr_mark {schema : Schema} {filter : List Facts → Expr → Except CompileError Expr}
    {scopes : List Facts} (m : Mark) : expr schema filter scopes m.expr = .ok m.expr := by
  cases m <;> rfl

section

variable {schema : Schema} {filter : List Facts → Expr → Except CompileError Expr} (h : σ.Hidden)
  (hfilter : FilterBlind σ filter)

include h hfilter

set_option linter.unusedSectionVars false

mutual
theorem alike_expr {scopes} : ∀ e : Expr, Alike (Expr.recast σ)
    (expr schema filter scopes e) (expr schema filter (recastScopes σ scopes) (e.recast σ))
  | .ident _ | .literal _ => .pure rfl
  | .marker m => (Mark.anonymous m).alike expr_mark expr_mark
  | .named m => (Mark.named m).alike expr_mark expr_mark
  | .call _ _ args => .bind (alike_exprs args) fun _ => .pure rfl
  | .list items => .bind (alike_exprs items) fun _ => .pure rfl
  | .arith _ l r | .compare _ l r | .logic _ l r =>
    .bind (alike_expr l) fun _ => .bind (alike_expr r) fun _ => .pure rfl
  | .unary _ e => .bind (alike_expr e) fun _ => .pure rfl
  | .case o bs e => .bind (alike_optExpr o) fun _ => .bind (alike_branches bs) fun _ =>
      .bind (alike_optExpr e) fun _ => .pure rfl
  | .subquery s => .bind (alike_select s) fun _ => .pure rfl
theorem alike_exprs {scopes} : ∀ es : List Expr, Alike (recastExprs σ)
    (exprs schema filter scopes es) (exprs schema filter (recastScopes σ scopes) (recastExprs σ es))
  | [] => .pure rfl
  | e :: es => .bind (alike_expr e) fun _ => .bind (alike_exprs es) fun _ => .pure rfl
theorem alike_optExpr {scopes} : ∀ o : Option Expr, Alike (recastOpt σ)
    (optExpr schema filter scopes o) (optExpr schema filter (recastScopes σ scopes) (recastOpt σ o))
  | none => .pure rfl
  | some e => .bind (alike_expr e) fun _ => .pure rfl
theorem alike_branches {scopes} : ∀ bs : List Branch, Alike (recastBranches σ)
    (branches schema filter scopes bs) (branches schema filter (recastScopes σ scopes) (recastBranches σ bs))
  | [] => .pure rfl
  | ⟨c, r⟩ :: bs => .bind (alike_expr c) fun _ => .bind (alike_expr r) fun _ =>
      .bind (alike_branches bs) fun _ => .pure rfl
theorem alike_fields {scopes} : ∀ fs : List ResultField, Alike (recastFields σ)
    (fields schema filter scopes fs) (fields schema filter (recastScopes σ scopes) (recastFields σ fs))
  | [] => .pure rfl
  | ⟨e, _⟩ :: fs =>
    .bind (alike_expr e) fun _ => .bind (alike_fields fs) fun _ => .pure rfl
theorem alike_orders {scopes} : ∀ os : List OrderItem, Alike (recastOrders σ)
    (orders schema filter scopes os) (orders schema filter (recastScopes σ scopes) (recastOrders σ os))
  | [] => .pure rfl
  | ⟨e, _⟩ :: os =>
    .bind (alike_expr e) fun _ => .bind (alike_orders os) fun _ => .pure rfl
theorem alike_table {scopes} : ∀ t : Table, Alike (Table.recast σ)
    (table schema filter scopes t) (table schema filter (recastScopes σ scopes) (t.recast σ))
  | .named _ _ => .pure rfl
  | .derived s _ => .bind (alike_select s) fun _ => .pure rfl
theorem alike_optTable {scopes} : ∀ t : Option Table, Alike (recastOptTable σ)
    (optTable schema filter scopes t) (optTable schema filter (recastScopes σ scopes) (recastOptTable σ t))
  | none => .pure rfl
  | some t => .bind (alike_table t) fun _ => .pure rfl
theorem alike_joins {scopes} : ∀ (js : List Join) (cs : List (Option Completion)),
    Alike (recastJoins σ) (joins schema filter scopes js cs)
      (joins schema filter (recastScopes σ scopes) (recastJoins σ js)
        (cs.map (Option.map (Completion.recast σ))))
  | [], [] | [], _ :: _ => .pure rfl
  | ⟨kind, t, c, path⟩ :: js, some completion :: cs => .bind (alike_table t) fun t' =>
      .bind (alike_completed hfilter scopes kind t' c (recastOpt σ c) path completion) fun _ =>
      .bind (alike_joins js cs) fun _ => .pure (recastJoins_append _ _)
  | ⟨_, t, c, _⟩ :: js, [] => .bind (alike_table t) fun _ =>
      .bind (alike_optExpr c) fun _ => .bind (alike_joins js []) fun _ => .pure rfl
  | ⟨_, t, c, _⟩ :: js, none :: cs => .bind (alike_table t) fun _ =>
      .bind (alike_optExpr c) fun _ => .bind (alike_joins js cs) fun _ => .pure rfl
theorem alike_unions {scopes} : ∀ us : List UnionPart, Alike (recastUnions σ)
    (unions schema filter scopes us) (unions schema filter (recastScopes σ scopes) (recastUnions σ us))
  | [] => .pure rfl
  | ⟨_, s⟩ :: us => .bind (alike_select s) fun _ => .bind (alike_unions us) fun _ =>
      .pure rfl
theorem alike_select {visible isolated} : ∀ s : Select, Alike (Select.recast σ)
    (select schema filter visible isolated s)
    (select schema filter (recastScopes σ visible) isolated (s.recast σ))
  | ⟨_, fs, t, js, c, gs, hv, os, l, o, us, f⟩ => by
    rw [Select.recast, select, select]
    refine .bind (alike_completeAll h schema visible js f) fun ⟨cs, f'⟩ => ?_
    have hscopes : f'.recast σ :: (if isolated then [] else recastScopes σ visible)
        = recastScopes σ (f' :: if isolated then [] else visible) := by
      cases isolated <;> rfl
    simp only [Prod.map, hscopes]
    generalize f' :: (if isolated then [] else visible) = scopes
    exact .bind (alike_fields fs) fun _ => .bind (alike_optTable t) fun _ =>
      .bind (alike_joins js cs) fun _ => .bind (alike_optExpr c) fun _ =>
      .bind (alike_exprs gs) fun _ => .bind (alike_optExpr hv) fun _ =>
      .bind (alike_orders os) fun _ => .bind (alike_optExpr l) fun _ =>
      .bind (alike_optExpr o) fun _ => .bind (alike_unions us) fun _ => .pure rfl
end

end

/-- The reader of filters, at every depth. -/
theorem filterBlind (h : σ.Hidden) (schema : Schema) : ∀ budget, FilterBlind σ (filter schema budget)
  | 0 => fun _ _ => .error _ _
  | budget + 1 => fun _ e => alike_expr h (filterBlind h schema budget) e

section

variable (h : σ.Hidden) (schema : Schema) (budget : Nat)

include h

theorem alike_assignments {scopes} : ∀ as : List Assignment, Alike (recastAssignments σ)
    (assignments schema budget scopes as)
    (assignments schema budget (recastScopes σ scopes) (recastAssignments σ as))
  | [] => .pure rfl
  | ⟨t, v⟩ :: as => .bind (alike_expr h (filterBlind h schema budget) t) fun _ =>
      .bind (alike_expr h (filterBlind h schema budget) v) fun _ =>
      .bind (alike_assignments as) fun _ => .pure rfl

theorem alike_insertSource {scopes} : ∀ s : InsertSource, Alike (InsertSource.recast σ)
    (insertSource schema budget scopes s) (insertSource schema budget (recastScopes σ scopes) (s.recast σ))
  | .values rows => .bind (alike_exprs h (filterBlind h schema budget) rows) fun _ => .pure rfl
  | .select s => .bind (alike_select h (filterBlind h schema budget) s) fun _ => .pure rfl

/-- **The completion of joins does not see a hidden recast.** -/
theorem alike_query (q : Query) :
    Alike (Query.recast σ) (Joins.query schema q) (Joins.query schema (q.recast σ)) := by
  have hfilter := filterBlind h schema (nestingBound schema)
  cases q with
  | select s => exact .map (alike_select h hfilter s) fun _ => rfl
  | insert i =>
    refine .map (ρ := Insert.recast σ) ?_ fun _ => rfl
    exact .bind (alike_table h hfilter i.table) fun _ =>
      .bind (alike_exprs h hfilter i.columns) fun _ =>
      .bind (alike_insertSource h schema _ i.source) fun _ =>
      .bind (alike_fields h hfilter i.returning) fun _ => .pure rfl
  | update u =>
    refine .map (ρ := Update.recast σ) ?_ fun _ => rfl
    exact .bind (alike_table h hfilter u.table) fun _ =>
      .bind (alike_assignments h schema _ u.assignments) fun _ =>
      .bind (alike_optExpr h hfilter u.criteria) fun _ =>
      .bind (alike_orders h hfilter u.ordering) fun _ =>
      .bind (alike_optExpr h hfilter u.limit) fun _ =>
      .bind (alike_optExpr h hfilter u.offset) fun _ => .pure rfl
  | delete d =>
    refine .map (ρ := Delete.recast σ) ?_ fun _ => rfl
    exact .bind (alike_table h hfilter d.table) fun _ =>
      .bind (alike_optExpr h hfilter d.criteria) fun _ =>
      .bind (alike_orders h hfilter d.ordering) fun _ =>
      .bind (alike_optExpr h hfilter d.limit) fun _ =>
      .bind (alike_optExpr h hfilter d.offset) fun _ => .pure rfl

end

end Joins

/-! ## Results -/

namespace Results

/-- Only names are expanded, and to names. -/
theorem alike_expansion (ss : Sources) (e : Expr) (a : Option String) :
    Alike (Option.map (recastFields σ)) (expansion ss ⟨e, a⟩) (expansion ss ⟨e.recast σ, a⟩) := by
  have hsame : expansion ss ⟨e.recast σ, a⟩ = expansion ss ⟨e, a⟩ := by
    unfold expansion
    rw [Expr.asIdentifier?_recast]
  rw [hsame]
  cases hx : expansion ss ⟨e, a⟩ with
  | error err => exact .error _ _
  | ok x =>
    refine .ok ?_
    cases x with
    | none => rfl
    | some fs =>
      have hquiet : collectFields givens fs = [] := (collect_expansion hx).2
      rw [Option.map_some, recastFields_eq_self fs (hquiet ▸ nofun)]

theorem alike_expansions (ss : Sources) : ∀ fs : List ResultField,
    Alike (List.map (Option.map (recastFields σ))) (expansions ss fs) (expansions ss (recastFields σ fs)) := by
  intro fs
  induction fs with
  | nil => exact .pure rfl
  | cons f fs ih =>
    obtain ⟨e, a⟩ := f
    exact .bind (alike_expansion ss e a) fun _ => .bind ih fun _ => .pure rfl

theorem alike_names (e : Expr) (a : Option String) :
    Alike id (names ⟨e, a⟩) (names ⟨e.recast σ, a⟩) := by
  unfold names
  simp only [Expr.underlying?_recast]
  split
  · exact .ok rfl
  · split
    · exact .error _ _
    · exact .ok rfl

theorem alike_addResult (f : Facts) (name : String) (c : ResultColumn) :
    Alike (Facts.recast σ) (f.addResult name c) ((f.recast σ).addResult name c) := by
  have hresults : (f.recast σ).results = f.results := rfl
  unfold Facts.addResult
  rw [hresults]
  split
  · exact .error _ _
  · exact .ok rfl

theorem expr_mark {scopes : List Facts} (m : Mark) : expr scopes m.expr = .ok m.expr := by
  cases m <;> rfl

section

variable (h : σ.Hidden)

include h

theorem column_recast (scopes : List Facts) (label : String) (e : Expr) :
    column (recastScopes σ scopes) label (e.recast σ) = column scopes label e := by
  have horigin : origin (e.recast σ) = origin e := by rw [origin, origin, Expr.underlying?_recast]
  rw [column, column, Expr.typed?_recast h, horigin]

theorem alike_register (visible : List Facts) (f : Facts) (e : Expr) (a : Option String) :
    Alike (Facts.recast σ) (register visible f ⟨e, a⟩)
      (register (recastScopes σ visible) (f.recast σ) ⟨e.recast σ, a⟩) := by
  unfold register
  rw [ResultField.isWildcard_recast]
  split
  · exact .ok rfl
  · refine .bind (alike_names e a) fun ⟨name, label⟩ => ?_
    have hcolumn := column_recast h (f :: visible) label e
    simp only [id_eq]
    rw [show f.recast σ :: recastScopes σ visible = recastScopes σ (f :: visible) from rfl, hcolumn]
    exact alike_addResult f name _

theorem alike_registerAll (visible : List Facts) : ∀ (fs : List ResultField) (f : Facts),
    Alike (Facts.recast σ) (registerAll visible f fs)
      (registerAll (recastScopes σ visible) (f.recast σ) (recastFields σ fs))
  | [], _ => .ok rfl
  | ⟨e, a⟩ :: fs, f => .bind (alike_register h visible f e a) fun f' => alike_registerAll visible fs f'

set_option linter.unusedSectionVars false

mutual
theorem alike_expr {scopes} : ∀ e : Expr, Alike (Expr.recast σ)
    (expr scopes e) (expr (recastScopes σ scopes) (e.recast σ))
  | .ident _ | .literal _ => .pure rfl
  | .marker m => (Mark.anonymous m).alike expr_mark expr_mark
  | .named m => (Mark.named m).alike expr_mark expr_mark
  | .call _ _ args => .bind (alike_exprs args) fun _ => .pure rfl
  | .list items => .bind (alike_exprs items) fun _ => .pure rfl
  | .arith _ l r | .compare _ l r | .logic _ l r =>
    .bind (alike_expr l) fun _ => .bind (alike_expr r) fun _ => .pure rfl
  | .unary _ e => .bind (alike_expr e) fun _ => .pure rfl
  | .case o bs e => .bind (alike_optExpr o) fun _ => .bind (alike_branches bs) fun _ =>
      .bind (alike_optExpr e) fun _ => .pure rfl
  | .subquery s => .bind (alike_select s) fun _ => .pure rfl
theorem alike_exprs {scopes} : ∀ es : List Expr, Alike (recastExprs σ)
    (exprs scopes es) (exprs (recastScopes σ scopes) (recastExprs σ es))
  | [] => .pure rfl
  | e :: es => .bind (alike_expr e) fun _ => .bind (alike_exprs es) fun _ => .pure rfl
theorem alike_optExpr {scopes} : ∀ o : Option Expr, Alike (recastOpt σ)
    (optExpr scopes o) (optExpr (recastScopes σ scopes) (recastOpt σ o))
  | none => .pure rfl
  | some e => .bind (alike_expr e) fun _ => .pure rfl
theorem alike_branches {scopes} : ∀ bs : List Branch, Alike (recastBranches σ)
    (branches scopes bs) (branches (recastScopes σ scopes) (recastBranches σ bs))
  | [] => .pure rfl
  | ⟨c, r⟩ :: bs => .bind (alike_expr c) fun _ => .bind (alike_expr r) fun _ =>
      .bind (alike_branches bs) fun _ => .pure rfl
theorem alike_fields {visible f} : ∀ (fs : List ResultField) (xs : List (Option (List ResultField))),
    Alike (Prod.map (recastFields σ) (Facts.recast σ)) (fields visible f fs xs)
      (fields (recastScopes σ visible) (f.recast σ) (recastFields σ fs) (xs.map (Option.map (recastFields σ))))
  | [], [] | [], _ :: _ => .pure rfl
  | ⟨_, _⟩ :: fs, some expanded :: xs =>
    .bind (alike_registerAll h visible expanded f) fun f' => .bind (alike_fields fs xs) fun _ =>
      .pure (by rw [Prod.map, recastFields_append])
  | ⟨e, a⟩ :: fs, [] => .bind (alike_expr e) fun e' =>
      .bind (alike_register h visible f e' a) fun f' => .bind (alike_fields fs []) fun _ => .pure rfl
  | ⟨e, a⟩ :: fs, none :: xs => .bind (alike_expr e) fun e' =>
      .bind (alike_register h visible f e' a) fun f' => .bind (alike_fields fs xs) fun _ => .pure rfl
theorem alike_orders {scopes} : ∀ os : List OrderItem, Alike (recastOrders σ)
    (orders scopes os) (orders (recastScopes σ scopes) (recastOrders σ os))
  | [] => .pure rfl
  | ⟨e, _⟩ :: os =>
    .bind (alike_expr e) fun _ => .bind (alike_orders os) fun _ => .pure rfl
theorem alike_table : ∀ t : Table, Alike (Table.recast σ) (table t) (table (t.recast σ))
  | .named _ _ => .pure rfl
  | .derived s _ => .bind (alike_select s) fun _ => .pure rfl
theorem alike_optTable : ∀ t : Option Table,
    Alike (recastOptTable σ) (optTable t) (optTable (recastOptTable σ t))
  | none => .pure rfl
  | some t => .bind (alike_table t) fun _ => .pure rfl
theorem alike_joins {scopes} : ∀ js : List Join, Alike (recastJoins σ)
    (joins scopes js) (joins (recastScopes σ scopes) (recastJoins σ js))
  | [] => .pure rfl
  | ⟨_, t, c, _⟩ :: js => .bind (alike_table t) fun _ => .bind (alike_optExpr c) fun _ =>
      .bind (alike_joins js) fun _ => .pure rfl
theorem alike_unions : ∀ us : List UnionPart, Alike (recastUnions σ) (unions us) (unions (recastUnions σ us))
  | [] => .pure rfl
  | ⟨_, s⟩ :: us => .bind (alike_select s) fun _ => .bind (alike_unions us) fun _ => .pure rfl
theorem alike_select {visible} : ∀ s : Select, Alike (Select.recast σ)
    (select visible s) (select (recastScopes σ visible) (s.recast σ))
  | ⟨_, fs, t, js, c, gs, hv, os, l, o, us, f⟩ =>
    .bind (alike_expansions f.sources fs) fun xs => .bind (alike_fields fs xs) fun _ =>
      .bind (alike_optTable t) fun _ => .bind (alike_joins js) fun _ =>
      .bind (alike_optExpr c) fun _ => .bind (alike_exprs gs) fun _ =>
      .bind (alike_optExpr hv) fun _ => .bind (alike_orders os) fun _ =>
      .bind (alike_optExpr l) fun _ => .bind (alike_optExpr o) fun _ =>
      .bind (alike_unions us) fun _ => .pure rfl
end

theorem alike_assignments {scopes} : ∀ as : List Assignment, Alike (recastAssignments σ)
    (assignments scopes as) (assignments (recastScopes σ scopes) (recastAssignments σ as))
  | [] => .pure rfl
  | ⟨t, v⟩ :: as => .bind (alike_expr h t) fun _ => .bind (alike_expr h v) fun _ =>
      .bind (alike_assignments as) fun _ => .pure rfl

theorem alike_insertSource {scopes} : ∀ s : InsertSource, Alike (InsertSource.recast σ)
    (insertSource scopes s) (insertSource (recastScopes σ scopes) (s.recast σ))
  | .values rows => .bind (alike_exprs h rows) fun _ => .pure rfl
  | .select s => .bind (alike_select h s) fun _ => .pure rfl

/-- **The mapping of result columns does not see a hidden recast.** -/
theorem alike_query (q : Query) : Alike (Query.recast σ) (Results.query q) (Results.query (q.recast σ)) := by
  cases q with
  | select s => exact .map (alike_select h s) fun _ => rfl
  | insert i =>
    refine .map (ρ := Insert.recast σ) ?_ fun _ => rfl
    exact .bind (alike_expansions i.facts.sources i.returning) fun xs =>
      .bind (alike_table h i.table) fun _ => .bind (alike_exprs h i.columns) fun _ =>
      .bind (alike_insertSource h i.source) fun _ =>
      .bind (alike_fields h i.returning xs) fun _ => .pure rfl
  | update u =>
    refine .map (ρ := Update.recast σ) ?_ fun _ => rfl
    exact .bind (alike_table h u.table) fun _ => .bind (alike_assignments h u.assignments) fun _ =>
      .bind (alike_optExpr h u.criteria) fun _ => .bind (alike_orders h u.ordering) fun _ =>
      .bind (alike_optExpr h u.limit) fun _ => .bind (alike_optExpr h u.offset) fun _ =>
      .pure rfl
  | delete d =>
    refine .map (ρ := Delete.recast σ) ?_ fun _ => rfl
    exact .bind (alike_table h d.table) fun _ => .bind (alike_optExpr h d.criteria) fun _ =>
      .bind (alike_orders h d.ordering) fun _ => .bind (alike_optExpr h d.limit) fun _ =>
      .bind (alike_optExpr h d.offset) fun _ => .pure rfl

end

end Results

/-! ## All passes before the numbering -/

/-- One pass. -/
theorem Pass.alike_run (h : σ.Hidden) (n : Naming) {p : Pass} (hp : p ≠ .parameters) (q : Query) :
    Alike (Query.recast σ) (p.run n q) (p.run n (q.recast σ)) := by
  cases p with
  | sources => exact (n.blind.query q).lift
  | derived => exact ((Derived.blind h).query q).lift
  | joins => exact Joins.alike_query h n.schema q
  | columns => exact (Columns.blind.query q).lift
  | results => exact (Results.alike_query h q).lift
  | parameters => exact absurd rfl hp

theorem Pass.alike_foldlM (h : σ.Hidden) (n : Naming) : ∀ {ps : List Pass}, (∀ p ∈ ps, p ≠ .parameters) →
    ∀ q : Query, Alike (Query.recast σ) (ps.foldlM (fun q p => p.run n q) q)
      (ps.foldlM (fun q p => p.run n q) (q.recast σ))
  | [], _, _ => .pure rfl
  | p :: ps, hps, q => by
    obtain ⟨hp, hps⟩ := List.forall_mem_cons.mp hps
    rw [List.foldlM_cons, List.foldlM_cons]
    exact .bind (Pass.alike_run h n hp q) fun q' => Pass.alike_foldlM h n hps q'

/-- **The passes before the numbering do not see a hidden recast.** -/
theorem Query.prepares_recast (h : σ.Hidden) {n : Naming} {q p : Query} (hq : q.Prepares n p) :
    (q.recast σ).Prepares n (p.recast σ) :=
  (Pass.alike_foldlM h n (by decide) q).eq_ok hq

theorem Query.prepares_of_recast (h : σ.Hidden) {n : Naming} {q p : Query} (hq : (q.recast σ).Prepares n p) :
    ∃ p', q.Prepares n p' ∧ p'.recast σ = p :=
  (Pass.alike_foldlM h n (by decide) q).of_eq_ok hq

end EntitySql
