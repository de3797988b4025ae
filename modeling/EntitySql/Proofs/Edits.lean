import Mathlib
import EntitySql.Proofs.Passes
import EntitySql.Proofs.Selects

/-!
# Edits of query trees

What a pass may do to a query, said node by node. An `Edit` lists the changes to the parts: names where
they stand, markers, tables, joins that are completed, fields that are expanded, and facts. One query is
edited to another (`Query.Edited`) if they differ by such changes only. Each pass is shown to be an edit
once, and what holds after a pass is then derived from the edit.

A name stands at a `Spot`: it sees the sources of its own query and of the visible ones around it, and
in some clauses the result aliases of its own.
-/

namespace EntitySql

/-- What a query offers to the names in it. -/
structure View where
  sources : Sources
  /-- The explicit result aliases. -/
  labels : List String

/-- Where a name stands: the visible queries, the innermost first, and whether the clause admits result
aliases. -/
structure Spot where
  scopes : List View
  labelled : Bool := false

/-- What a select offers. -/
def View.ofSelect (fields : List ResultField) (facts : Facts) : View :=
  ⟨facts.sources, fields.filterMap (·.label)⟩

/-- What a statement without result aliases offers. -/
def View.ofFacts (facts : Facts) : View := ⟨facts.sources, []⟩

/-- The changes that are made to the parts of a query. -/
structure Edit where
  ident : Spot → Identifier → Identifier → Prop := fun _ i i' => i' = i
  mark : Mark → Mark → Prop := fun m m' => m' = m
  /-- The name and the alias of a table. -/
  table : (joined : Bool) → String × Option String → String × Option String → Prop :=
    fun _ t t' => t' = t
  /-- The joins that stay what they are, up to their parts. -/
  keep : Join → Prop := fun _ => True
  /-- The joins that take the place of a join, whose table is already edited. -/
  complete : Join → List Join → Prop := fun _ _ => False
  /-- The fields that take the place of a field. -/
  expand : Spot → ResultField → List ResultField → Prop := fun _ _ _ => False
  /-- The facts of a query that has the given tables after the edit. -/
  facts : List Table → Facts → Facts → Prop := fun _ f f' => f' = f
  /-- A select that stands alone: a derived table, a part of a union, or what is inserted. -/
  alone : Select → Select → Prop := fun _ _ => True

variable (d : Edit)

mutual
inductive Expr.Edited : Spot → Expr → Expr → Prop
  | ident {p i i'} : d.ident p i i' → Expr.Edited p (.ident i) (.ident i')
  | literal {p} (l) : Expr.Edited p (.literal l) (.literal l)
  | marker {p m m'} : d.mark (.anonymous m) (.anonymous m') → Expr.Edited p (.marker m) (.marker m')
  | named {p m m'} : d.mark (.named m) (.named m') → Expr.Edited p (.named m) (.named m')
  /-- A named marker becomes an anonymous one. -/
  | replaced {p m m'} : d.mark (.named m) (.anonymous m') → Expr.Edited p (.named m) (.marker m')
  | call {p args args'} (name distinct) :
    ExprsEdited p args args' → Expr.Edited p (.call name distinct args) (.call name distinct args')
  | list {p items items'} : ExprsEdited p items items' → Expr.Edited p (.list items) (.list items')
  | arith {p l r l' r'} (op) :
    Expr.Edited p l l' → Expr.Edited p r r' → Expr.Edited p (.arith op l r) (.arith op l' r')
  | compare {p l r l' r'} (op) :
    Expr.Edited p l l' → Expr.Edited p r r' → Expr.Edited p (.compare op l r) (.compare op l' r')
  | logic {p l r l' r'} (op) :
    Expr.Edited p l l' → Expr.Edited p r r' → Expr.Edited p (.logic op l r) (.logic op l' r')
  | unary {p e e'} (op) : Expr.Edited p e e' → Expr.Edited p (.unary op e) (.unary op e')
  | case {p o o' bs bs' e e'} : OptEdited p o o' → BranchesEdited p bs bs' → OptEdited p e e' →
    Expr.Edited p (.case o bs e) (.case o' bs' e')
  | subquery {p s s'} : Select.Edited p.scopes s s' → Expr.Edited p (.subquery s) (.subquery s')
inductive ExprsEdited : Spot → List Expr → List Expr → Prop
  | nil {p} : ExprsEdited p [] []
  | cons {p e e' es es'} :
    Expr.Edited p e e' → ExprsEdited p es es' → ExprsEdited p (e :: es) (e' :: es')
inductive OptEdited : Spot → Option Expr → Option Expr → Prop
  | none {p} : OptEdited p none none
  | some {p e e'} : Expr.Edited p e e' → OptEdited p (some e) (some e')
inductive BranchesEdited : Spot → List Branch → List Branch → Prop
  | nil {p} : BranchesEdited p [] []
  | cons {p c c' r r' bs bs'} : Expr.Edited p c c' → Expr.Edited p r r' → BranchesEdited p bs bs' →
    BranchesEdited p (⟨c, r⟩ :: bs) (⟨c', r'⟩ :: bs')
inductive FieldsEdited : Spot → List ResultField → List ResultField → Prop
  | nil {p} : FieldsEdited p [] []
  | keep {p e e' fs fs'} (label) : Expr.Edited p e e' → FieldsEdited p fs fs' →
    FieldsEdited p (⟨e, label⟩ :: fs) (⟨e', label⟩ :: fs')
  | expand {p f xs fs fs'} : d.expand p f xs → FieldsEdited p fs fs' →
    FieldsEdited p (f :: fs) (xs ++ fs')
inductive OrdersEdited : Spot → List OrderItem → List OrderItem → Prop
  | nil {p} : OrdersEdited p [] []
  | cons {p e e' os os'} (ascending) : Expr.Edited p e e' → OrdersEdited p os os' →
    OrdersEdited p (⟨e, ascending⟩ :: os) (⟨e', ascending⟩ :: os')
/-- A derived table sees nothing of the query around it. -/
inductive Table.Edited : Bool → Table → Table → Prop
  | named {joined name label name' label'} : d.table joined (name, label) (name', label') →
    Table.Edited joined (.named name label) (.named name' label')
  | derived {joined s s'} (label) : d.alone s s' → Select.Edited [] s s' →
    Table.Edited joined (.derived s label) (.derived s' label)
inductive OptTableEdited : Option Table → Option Table → Prop
  | none : OptTableEdited none none
  | some {t t'} : Table.Edited false t t' → OptTableEdited (some t) (some t')
inductive JoinsEdited : Spot → List Join → List Join → Prop
  | nil {p} : JoinsEdited p [] []
  | keep {p kind t t' c c' path js js'} : d.keep ⟨kind, t, c, path⟩ → Table.Edited true t t' →
    OptEdited p c c' → JoinsEdited p js js' →
    JoinsEdited p (⟨kind, t, c, path⟩ :: js) (⟨kind, t', c', path⟩ :: js')
  | complete {p kind t t' c path new js js'} : Table.Edited true t t' →
    d.complete ⟨kind, t', c, path⟩ new → JoinsEdited p js js' →
    JoinsEdited p (⟨kind, t, c, path⟩ :: js) (new ++ js')
inductive UnionsEdited : List UnionPart → List UnionPart → Prop
  | nil : UnionsEdited [] []
  | cons {s s' us us'} (all) : d.alone s s' → Select.Edited [] s s' → UnionsEdited us us' →
    UnionsEdited (⟨all, s⟩ :: us) (⟨all, s'⟩ :: us')
inductive Select.Edited : List View → Select → Select → Prop
  | mk {visible distinct fs fs' t t' js js' c c' gs gs' hv hv' os os' l l' o o' us us' f f'} :
    FieldsEdited ⟨.ofSelect fs f :: visible, false⟩ fs fs' →
    OptTableEdited t t' →
    JoinsEdited ⟨.ofSelect fs f :: visible, false⟩ js js' →
    OptEdited ⟨.ofSelect fs f :: visible, false⟩ c c' →
    ExprsEdited ⟨.ofSelect fs f :: visible, true⟩ gs gs' →
    OptEdited ⟨.ofSelect fs f :: visible, true⟩ hv hv' →
    OrdersEdited ⟨.ofSelect fs f :: visible, true⟩ os os' →
    OptEdited ⟨.ofSelect fs f :: visible, false⟩ l l' →
    OptEdited ⟨.ofSelect fs f :: visible, false⟩ o o' →
    UnionsEdited us us' → d.facts (t'.toList ++ js'.map (·.table)) f f' →
    Select.Edited visible ⟨distinct, fs, t, js, c, gs, hv, os, l, o, us, f⟩
      ⟨distinct, fs', t', js', c', gs', hv', os', l', o', us', f'⟩
end

inductive AssignmentsEdited (p : Spot) : List Assignment → List Assignment → Prop
  | nil : AssignmentsEdited p [] []
  | cons {t t' v v' as as'} : t.Edited d p t' → v.Edited d p v' → AssignmentsEdited p as as' →
    AssignmentsEdited p (⟨t, v⟩ :: as) (⟨t', v'⟩ :: as')

inductive InsertSource.Edited (p : Spot) : InsertSource → InsertSource → Prop
  | values {rows rows'} : ExprsEdited d p rows rows' → InsertSource.Edited p (.values rows) (.values rows')
  | select {s s'} : d.alone s s' → s.Edited d [] s' → InsertSource.Edited p (.select s) (.select s')

/-- The first query is edited to the second. -/
inductive Query.Edited : Query → Query → Prop
  | select {s s'} : s.Edited d [] s' → Query.Edited (.select s) (.select s')
  | insert {t t' cs cs' s s' fs fs' f f'} : t.Edited d false t' →
    ExprsEdited d ⟨[.ofFacts f], false⟩ cs cs' → s.Edited d ⟨[.ofFacts f], false⟩ s' →
    FieldsEdited d ⟨[.ofFacts f], false⟩ fs fs' → d.facts [t'] f f' →
    Query.Edited (.insert ⟨t, cs, s, fs, f⟩) (.insert ⟨t', cs', s', fs', f'⟩)
  | update {t t' as as' c c' os os' l l' o o' f f'} : t.Edited d false t' →
    AssignmentsEdited d ⟨[.ofFacts f], false⟩ as as' → OptEdited d ⟨[.ofFacts f], false⟩ c c' →
    OrdersEdited d ⟨[.ofFacts f], true⟩ os os' → OptEdited d ⟨[.ofFacts f], false⟩ l l' →
    OptEdited d ⟨[.ofFacts f], false⟩ o o' → d.facts [t'] f f' →
    Query.Edited (.update ⟨t, as, c, os, l, o, f⟩) (.update ⟨t', as', c', os', l', o', f'⟩)
  | delete {t t' c c' os os' l l' o o' f f'} : t.Edited d false t' →
    OptEdited d ⟨[.ofFacts f], false⟩ c c' → OrdersEdited d ⟨[.ofFacts f], true⟩ os os' →
    OptEdited d ⟨[.ofFacts f], false⟩ l l' → OptEdited d ⟨[.ofFacts f], false⟩ o o' → d.facts [t'] f f' →
    Query.Edited (.delete ⟨t, c, os, l, o, f⟩) (.delete ⟨t', c', os', l', o', f'⟩)

variable {d}

/-- The facts of the edited query may be others. -/
theorem Query.Edited.withFacts {q q' : Query} (h : q.Edited d q') {f : Facts}
    (hf : ∀ ts, d.facts ts q.facts f) :
    q.Edited d (q'.withFacts f) := by
  cases h with
  | select h =>
    obtain ⟨hfs, ht, hjs, hc, hgs, hhv, hos, hl, ho, hus, -⟩ := h
    exact .select ⟨hfs, ht, hjs, hc, hgs, hhv, hos, hl, ho, hus, hf _⟩
  | insert ht hcs hs hfs _ => exact .insert ht hcs hs hfs (hf _)
  | update ht has hc hos hl ho _ => exact .update ht has hc hos hl ho (hf _)
  | delete ht hc hos hl ho _ => exact .delete ht hc hos hl ho (hf _)

/-! ## Sweeps -/

/-- A sweep makes the changes of an edit. What it sees of a query's facts agrees by `R` with what the
query offers; facts that grow while a query is swept agree all the time. -/
structure Sweep.Makes (w : Sweep) (d : Edit) (R : Facts → View → Prop) : Prop where
  refl : ∀ f, d.facts [] f f
  trans : ∀ {ts us f g h}, d.facts ts f g → d.facts us g h → d.facts (ts ++ us) f h
  mark : ∀ m, d.mark m m
  keep : ∀ j, d.keep j
  opening : ∀ fs f, d.facts [] f (w.opening fs f) ∧ R (w.opening fs f) (.ofSelect fs f)
  ident : ∀ {scopes visible labelled i i'}, List.Forall₂ R scopes visible →
    w.ident ⟨scopes, labelled⟩ i = .ok i' → d.ident ⟨visible, labelled⟩ i i'
  named : ∀ {joined scopes f s name label t' f'}, R f s →
    w.table joined scopes f (.named name label) = .ok (t', f') →
    (∃ name' label', t' = .named name' label' ∧ d.table joined (name, label) (name', label'))
      ∧ R f' s ∧ d.facts [t'] f f'
  derived : ∀ {joined scopes f s inner label t' f'}, R f s →
    w.table joined scopes f (.derived inner label) = .ok (t', f') →
    t' = .derived inner label ∧ R f' s ∧ d.facts [t'] f f'
  alone : ∀ {s s'}, w.select [] s = .ok s' → d.alone s s' := by exact id

namespace Sweep

open Outcome

section

variable {w : Sweep} {R : Facts → View → Prop} (hw : w.Makes d R)

include hw

set_option linter.unusedSectionVars false

mutual
theorem Makes.expr {scopes visible labelled} : ∀ e : Expr, List.Forall₂ R scopes visible →
    Gives (e.Edited d ⟨visible, labelled⟩) (w.expr ⟨scopes, labelled⟩ e)
  | .ident _, hR => .bind .any fun hi _ => .pure (.ident (hw.ident hR hi))
  | .literal l, _ => .pure (.literal l)
  | .marker _, _ => .pure (.marker (hw.mark _))
  | .named _, _ => .pure (.named (hw.mark _))
  | .call name distinct args, hR => .bind (Makes.exprs args hR) fun _ h => .pure (.call name distinct h)
  | .list items, hR => .bind (Makes.exprs items hR) fun _ h => .pure (.list h)
  | .arith op l r, hR =>
    .bind (Makes.expr l hR) fun _ hl => .bind (Makes.expr r hR) fun _ hr => .pure (.arith op hl hr)
  | .compare op l r, hR =>
    .bind (Makes.expr l hR) fun _ hl => .bind (Makes.expr r hR) fun _ hr => .pure (.compare op hl hr)
  | .logic op l r, hR =>
    .bind (Makes.expr l hR) fun _ hl => .bind (Makes.expr r hR) fun _ hr => .pure (.logic op hl hr)
  | .unary op e, hR => .bind (Makes.expr e hR) fun _ h => .pure (.unary op h)
  | .case o bs e, hR => .bind (Makes.optExpr o hR) fun _ ho => .bind (Makes.branches bs hR) fun _ hbs =>
    .bind (Makes.optExpr e hR) fun _ he => .pure (.case ho hbs he)
  | .subquery s, hR => .bind (Makes.select s hR) fun _ h => .pure (.subquery h)
theorem Makes.exprs {scopes visible labelled} : ∀ es : List Expr, List.Forall₂ R scopes visible →
    Gives (ExprsEdited d ⟨visible, labelled⟩ es) (w.exprs ⟨scopes, labelled⟩ es)
  | [], _ => .pure .nil
  | e :: es, hR =>
    .bind (Makes.expr e hR) fun _ he => .bind (Makes.exprs es hR) fun _ hes => .pure (.cons he hes)
theorem Makes.optExpr {scopes visible labelled} : ∀ o : Option Expr, List.Forall₂ R scopes visible →
    Gives (OptEdited d ⟨visible, labelled⟩ o) (w.optExpr ⟨scopes, labelled⟩ o)
  | none, _ => .pure .none
  | some e, hR => .bind (Makes.expr e hR) fun _ h => .pure (.some h)
theorem Makes.branches {scopes visible labelled} : ∀ bs : List Branch, List.Forall₂ R scopes visible →
    Gives (BranchesEdited d ⟨visible, labelled⟩ bs) (w.branches ⟨scopes, labelled⟩ bs)
  | [], _ => .pure .nil
  | ⟨c, r⟩ :: bs, hR => .bind (Makes.expr c hR) fun _ hc => .bind (Makes.expr r hR) fun _ hr =>
    .bind (Makes.branches bs hR) fun _ hbs => .pure (.cons hc hr hbs)
theorem Makes.fields {scopes visible labelled} : ∀ fs : List ResultField, List.Forall₂ R scopes visible →
    Gives (FieldsEdited d ⟨visible, labelled⟩ fs) (w.fields ⟨scopes, labelled⟩ fs)
  | [], _ => .pure .nil
  | ⟨e, a⟩ :: fs, hR =>
    .bind (Makes.expr e hR) fun _ he => .bind (Makes.fields fs hR) fun _ hfs => .pure (.keep a he hfs)
theorem Makes.orders {scopes visible labelled} : ∀ os : List OrderItem, List.Forall₂ R scopes visible →
    Gives (OrdersEdited d ⟨visible, labelled⟩ os) (w.orders ⟨scopes, labelled⟩ os)
  | [], _ => .pure .nil
  | ⟨e, a⟩ :: os, hR =>
    .bind (Makes.expr e hR) fun _ he => .bind (Makes.orders os hR) fun _ hos => .pure (.cons a he hos)
theorem Makes.source {joined scopes f s} : ∀ t : Table, R f s →
    Gives (fun x => t.Edited d joined x.1 ∧ R x.2 s ∧ d.facts [x.1] f x.2) (w.source joined scopes f t)
  | .named _ _, hR => by
    intro x h
    obtain ⟨t', f'⟩ := x
    obtain ⟨⟨_, _, rfl, ht⟩, hf⟩ := hw.named hR h
    exact ⟨.named ht, hf⟩
  | .derived s label, hR => by
    refine .bind (Makes.select s .nil) fun hrun hs x h => ?_
    obtain ⟨t', f'⟩ := x
    obtain ⟨rfl, hf⟩ := hw.derived hR h
    exact ⟨.derived label (hw.alone hrun) hs, hf⟩
theorem Makes.optSource {scopes f s} : ∀ t : Option Table, R f s →
    Gives (fun x => OptTableEdited d t x.1 ∧ R x.2 s ∧ d.facts x.1.toList f x.2) (w.optSource scopes f t)
  | none, hR => .pure ⟨.none, hR, hw.refl _⟩
  | some t, hR => .bind (Makes.source t hR) fun _ h => .pure ⟨.some h.1, h.2⟩
theorem Makes.joins {scopes visible f s} : ∀ js : List Join, R f s → List.Forall₂ R scopes visible →
    Gives (fun x => JoinsEdited d ⟨s :: visible, false⟩ js x.1 ∧ R x.2 s ∧ d.facts (x.1.map (·.table)) f x.2)
      (w.joins scopes f js)
  | [], hR, _ => .pure ⟨.nil, hR, hw.refl _⟩
  | ⟨_, t, c, _⟩ :: js, hR, hs => .bind (Makes.source t hR) fun _ ht =>
    .bind (Makes.optExpr c (.cons ht.2.1 hs)) fun _ hc => .bind (Makes.joins js ht.2.1 hs) fun _ hjs =>
    .pure ⟨.keep (hw.keep _) ht.1 hc hjs.1, hjs.2.1, hw.trans ht.2.2 hjs.2.2⟩
theorem Makes.unions : ∀ us : List UnionPart, Gives (UnionsEdited d us) (w.unions us)
  | [] => .pure .nil
  | ⟨all, s⟩ :: us => .bind (Makes.select s .nil) fun hrun hs => .bind (Makes.unions us) fun _ hus =>
    .pure (.cons all (hw.alone hrun) hs hus)
theorem Makes.select {scopes visible} : ∀ s : Select, List.Forall₂ R scopes visible →
    Gives (s.Edited d visible) (w.select scopes s)
  | ⟨_, fs, t, js, c, gs, hv, os, l, o, us, f⟩, hs => by
    obtain ⟨hf₀, hR₀⟩ := hw.opening fs f
    refine .bind (Makes.fields fs (.cons hR₀ hs)) fun _ hfs => .bind (Makes.optSource t hR₀) fun _ ht =>
      .bind (Makes.joins js ht.2.1 hs) fun _ hjs => ?_
    obtain ⟨hjs, hR, hf⟩ := hjs
    exact .bind (Makes.optExpr c (.cons hR hs)) fun _ hc => .bind (Makes.exprs gs (.cons hR hs)) fun _ hgs =>
      .bind (Makes.optExpr hv (.cons hR hs)) fun _ hhv => .bind (Makes.orders os (.cons hR hs)) fun _ hos =>
      .bind (Makes.optExpr l (.cons hR hs)) fun _ hl => .bind (Makes.optExpr o (.cons hR hs)) fun _ ho =>
      .bind (Makes.unions us) fun _ hus =>
      .pure ⟨hfs, ht.1, hjs, hc, hgs, hhv, hos, hl, ho, hus, (hw.trans hf₀ (hw.trans ht.2.2 hf) :)⟩
end

theorem Makes.assignments : ∀ {as : List Assignment} {scopes visible labelled}, List.Forall₂ R scopes visible →
    Gives (AssignmentsEdited d ⟨visible, labelled⟩ as) (w.assignments ⟨scopes, labelled⟩ as)
  | [], _, _, _, _ => .pure .nil
  | ⟨t, v⟩ :: _, _, _, _, hR => .bind (Makes.expr hw t hR) fun _ ht => .bind (Makes.expr hw v hR) fun _ hv =>
    .bind (Makes.assignments hR) fun _ has => .pure (.cons ht hv has)

theorem Makes.insertSource {scopes visible labelled} (hR : List.Forall₂ R scopes visible) : ∀ s : InsertSource,
    Gives (s.Edited d ⟨visible, labelled⟩) (w.insertSource ⟨scopes, labelled⟩ s)
  | .values rows => .bind (Makes.exprs hw rows hR) fun _ h => .pure (.values h)
  | .select s => .bind (Makes.select hw s .nil) fun hrun h => .pure (.select (hw.alone hrun) h)

/-- **A sweep that makes the changes of an edit edits every query.** -/
theorem Makes.query {q : Query} (hq : R q.facts (.ofFacts q.facts)) : Gives (q.Edited d) (w.query q) := by
  cases q with
  | select s => exact .map fun _ h => .select (Makes.select hw s .nil h)
  | insert i =>
    refine .map (.bind (Makes.source hw _ hq) fun _ ht => ?_)
    have hR := List.Forall₂.cons ht.2.1 .nil
    exact .bind (Makes.exprs hw _ hR) fun _ hcs => .bind (Makes.insertSource hw hR _) fun _ hs =>
      .bind (Makes.fields hw _ hR) fun _ hfs => .pure (.insert ht.1 hcs hs hfs ht.2.2)
  | update u =>
    refine .map (.bind (Makes.source hw _ hq) fun _ ht => ?_)
    have hR := List.Forall₂.cons ht.2.1 .nil
    exact .bind (Makes.assignments hw hR) fun _ has => .bind (Makes.optExpr hw _ hR) fun _ hc =>
      .bind (Makes.orders hw _ hR) fun _ hos => .bind (Makes.optExpr hw _ hR) fun _ hl =>
      .bind (Makes.optExpr hw _ hR) fun _ ho => .pure (.update ht.1 has hc hos hl ho ht.2.2)
  | delete x =>
    refine .map (.bind (Makes.source hw _ hq) fun _ ht => ?_)
    have hR := List.Forall₂.cons ht.2.1 .nil
    exact .bind (Makes.optExpr hw _ hR) fun _ hc => .bind (Makes.orders hw _ hR) fun _ hos =>
      .bind (Makes.optExpr hw _ hR) fun _ hl => .bind (Makes.optExpr hw _ hR) fun _ ho =>
      .pure (.delete ht.1 hc hos hl ho ht.2.2)

end

end Sweep

end EntitySql
