import Mathlib
import EntitySql.Proofs.Numbering
import EntitySql.Proofs.Revisions

/-!
# The edit of fields

The fifth pass leaves tables and joins as they are.

* `Results.edited`: wildcards are expanded.
-/

namespace EntitySql

open Outcome

namespace Results

/-- Wildcards are expanded, by the sources of the query they are a field of. -/
def edit : Edit where
  expand p f xs := ∃ s around, p.scopes = s :: around ∧ expansion s.sources f = .ok (some xs)
  facts _ f f' := f'.sources = f.sources
  alone s s' := select [] s = .ok s'

theorem sources_register {visible : List Facts} {f f' : Facts} {field : ResultField}
    (h : register visible f field = .ok f') : f'.sources = f.sources := by
  unfold register at h
  split at h
  · cases h
    rfl
  · simp only [bind_eq_ok] at h
    obtain ⟨⟨name, label⟩, -, h⟩ := h
    unfold Facts.addResult at h
    split at h <;> cases h
    rfl

theorem expansions_eq_ok {sources : Sources} : ∀ {fs : List ResultField} {xs},
    expansions sources fs = .ok xs → List.Forall₂ (fun f x => expansion sources f = .ok x) fs xs
  | [], _, h => by cases h; exact .nil
  | f :: fs, _, h => by
    simp only [expansions, bind_eq_ok, pure_eq_ok] at h
    obtain ⟨x, hx, xs, hxs, rfl⟩ := h
    exact .cons hx (expansions_eq_ok hxs)

/-- The selects of the second list are those of the first with their results mapped. -/
def Selected (ss ss' : List Select) : Prop :=
  List.Forall₂ (fun s s' => ∃ visible, select visible s = .ok s') ss ss'

theorem Selected.nil : Selected [] [] := List.Forall₂.nil

theorem Selected.append {ss ss' ts ts' : List Select} (h : Selected ss ss') (h' : Selected ts ts') :
    Selected (ss ++ ts) (ss' ++ ts') :=
  List.rel_append h h'

theorem selects_expansion {sources : Sources} {f : ResultField} {xs : List ResultField}
    (h : expansion sources f = .ok (some xs)) : f.expr.selects = [] ∧ fieldsSelects xs = [] := by
  obtain ⟨⟨i, hf⟩, hxs⟩ := names_of_expansion h
  refine ⟨by rw [hf]; rfl, fieldsSelects_eq_nil fun x hx => ?_⟩
  obtain ⟨i, hi⟩ := hxs x hx
  rw [hi]
  rfl

/-- The expansion of fields makes the changes of an edit. -/
structure Makes (d : Edit) : Prop where
  ident : ∀ p i, d.ident p i i := by intros; rfl
  mark : ∀ m, d.mark m m := by intros; rfl
  named : ∀ joined t, d.table joined t t := by intros; rfl
  keep : ∀ j, d.keep j := by intros; trivial
  expand : ∀ {s around labelled f xs}, expansion s.sources f = .ok (some xs) → d.expand ⟨s :: around, labelled⟩ f xs
  refl : ∀ ts f, d.facts ts f f := by intros; rfl
  trans : ∀ {ts f g h}, d.facts ts f g → d.facts ts g h → d.facts ts f h := by
    intro _ _ _ _ hf hg; exact hg.trans hf
  noted : ∀ ts {visible field f f'}, register visible f field = .ok f' → d.facts ts f f'
  alone : ∀ {s s'}, select [] s = .ok s' → d.alone s s' := by intros; trivial

section

variable {d : Edit} (hd : Makes d)

include hd

theorem Makes.notedAll (ts : List Table) {visible : List Facts} : ∀ {fields : List ResultField} {f f' : Facts},
    registerAll visible f fields = .ok f' → d.facts ts f f'
  | [], _, _, h => by cases h; exact hd.refl ..
  | _ :: _, _, _, h => by
    simp only [registerAll, bind_eq_ok] at h
    obtain ⟨f₁, hf₁, h⟩ := h
    exact hd.trans (hd.noted ts hf₁) (Makes.notedAll ts h)

set_option linter.unusedSectionVars false

mutual
theorem Makes.expr {scopes p} : ∀ e : Expr,
    Gives (fun e' => e.Edited d p e' ∧ Selected e.selects e'.selects) (expr scopes e)
  | .ident _ => .pure ⟨.ident (hd.ident ..), .nil⟩
  | .literal l => .pure ⟨.literal l, .nil⟩
  | .marker _ => .pure ⟨.marker (hd.mark _), .nil⟩
  | .named _ => .pure ⟨.named (hd.mark _), .nil⟩
  | .call name distinct args =>
    .bind (Makes.exprs args) fun _ h => .pure ⟨.call name distinct h.1, h.2⟩
  | .list items => .bind (Makes.exprs items) fun _ h => .pure ⟨.list h.1, h.2⟩
  | .arith op l r => .bind (Makes.expr l) fun _ hl => .bind (Makes.expr r) fun _ hr =>
    .pure ⟨.arith op hl.1 hr.1, hl.2.append hr.2⟩
  | .compare op l r => .bind (Makes.expr l) fun _ hl => .bind (Makes.expr r) fun _ hr =>
    .pure ⟨.compare op hl.1 hr.1, hl.2.append hr.2⟩
  | .logic op l r => .bind (Makes.expr l) fun _ hl => .bind (Makes.expr r) fun _ hr =>
    .pure ⟨.logic op hl.1 hr.1, hl.2.append hr.2⟩
  | .unary op e => .bind (Makes.expr e) fun _ h => .pure ⟨.unary op h.1, h.2⟩
  | .case o bs e => .bind (Makes.optExpr o) fun _ ho => .bind (Makes.branches bs) fun _ hbs =>
    .bind (Makes.optExpr e) fun _ he =>
    .pure ⟨.case ho.1 hbs.1 he.1, (ho.2.append hbs.2).append he.2⟩
  | .subquery s => .bind (Makes.select s) fun _ h => .pure ⟨.subquery h.1, h.2⟩
theorem Makes.exprs {scopes p} : ∀ es : List Expr,
    Gives (fun es' => ExprsEdited d p es es' ∧ Selected (exprsSelects es) (exprsSelects es')) (exprs scopes es)
  | [] => .pure ⟨.nil, .nil⟩
  | e :: es => .bind (Makes.expr e) fun _ he => .bind (Makes.exprs es) fun _ hes =>
    .pure ⟨.cons he.1 hes.1, he.2.append hes.2⟩
theorem Makes.optExpr {scopes p} : ∀ o : Option Expr,
    Gives (fun o' => OptEdited d p o o' ∧ Selected (optSelects o) (optSelects o')) (optExpr scopes o)
  | none => .pure ⟨.none, .nil⟩
  | some e => .bind (Makes.expr e) fun _ h => .pure ⟨.some h.1, h.2⟩
theorem Makes.branches {scopes p} : ∀ bs : List Branch,
    Gives (fun bs' => BranchesEdited d p bs bs' ∧ Selected (branchesSelects bs) (branchesSelects bs'))
      (branches scopes bs)
  | [] => .pure ⟨.nil, .nil⟩
  | ⟨c, r⟩ :: bs => .bind (Makes.expr c) fun _ hc => .bind (Makes.expr r) fun _ hr =>
    .bind (Makes.branches bs) fun _ hbs =>
    .pure ⟨.cons hc.1 hr.1 hbs.1, (hc.2.append hr.2).append hbs.2⟩
theorem Makes.fields {s around labelled visible f} : ∀ (fs : List ResultField) {xs},
    List.Forall₂ (fun f x => expansion s.sources f = .ok x) fs xs →
    Gives (fun x => (FieldsEdited d ⟨s :: around, labelled⟩ fs x.1 ∧ ∀ ts, d.facts ts f x.2)
      ∧ Selected (fieldsSelects fs) (fieldsSelects x.1)) (fields visible f fs xs)
  | [], _, .nil => .pure ⟨⟨.nil, fun ts => hd.refl ts _⟩, .nil⟩
  | ⟨e, label⟩ :: fs, some expanded :: xs, .cons hx hxs => by
    refine .bind .any fun hf₁ _ => .bind (Makes.fields fs hxs) fun _ h => .pure
      ⟨⟨.expand (hd.expand hx) h.1.1, fun ts => hd.trans (hd.notedAll ts hf₁) (h.1.2 ts)⟩, ?_⟩
    obtain ⟨hnone, hexpanded⟩ := selects_expansion hx
    rw [fieldsSelects_append, hexpanded, fieldsSelects, (hnone : e.selects = [])]
    exact h.2
  | ⟨e, label⟩ :: fs, none :: xs, .cons _ hxs =>
    .bind (Makes.expr e) fun _ he => .bind .any fun hf₁ _ => .bind (Makes.fields fs hxs) fun _ h =>
    .pure ⟨⟨.keep label he.1 h.1.1, fun ts => hd.trans (hd.noted ts hf₁) (h.1.2 ts)⟩, he.2.append h.2⟩
theorem Makes.orders {scopes p} : ∀ os : List OrderItem,
    Gives (fun os' => OrdersEdited d p os os' ∧ Selected (ordersSelects os) (ordersSelects os')) (orders scopes os)
  | [] => .pure ⟨.nil, .nil⟩
  | ⟨e, a⟩ :: os => .bind (Makes.expr e) fun _ he => .bind (Makes.orders os) fun _ hos =>
    .pure ⟨.cons a he.1 hos.1, he.2.append hos.2⟩
theorem Makes.table {joined} : ∀ t : Table,
    Gives (fun t' => t.Edited d joined t' ∧ Selected t.selects t'.selects) (table t)
  | .named _ _ => .pure ⟨.named (hd.named ..), .nil⟩
  | .derived s label =>
    .bind (Makes.select s) fun hrun h => .pure ⟨.derived label (hd.alone hrun) h.1, h.2⟩
theorem Makes.optTable : ∀ t : Option Table,
    Gives (fun t' => OptTableEdited d t t' ∧ Selected (optTableSelects t) (optTableSelects t')) (optTable t)
  | none => .pure ⟨.none, .nil⟩
  | some t => .bind (Makes.table t) fun _ h => .pure ⟨.some h.1, h.2⟩
theorem Makes.joins {scopes p} : ∀ js : List Join,
    Gives (fun js' => JoinsEdited d p js js' ∧ Selected (joinsSelects js) (joinsSelects js')) (joins scopes js)
  | [] => .pure ⟨.nil, .nil⟩
  | ⟨_, t, c, _⟩ :: js => .bind (Makes.table t) fun _ ht => .bind (Makes.optExpr c) fun _ hc =>
    .bind (Makes.joins js) fun _ hjs =>
    .pure ⟨.keep (hd.keep _) ht.1 hc.1 hjs.1, (ht.2.append hc.2).append hjs.2⟩
theorem Makes.unions : ∀ us : List UnionPart,
    Gives (fun us' => UnionsEdited d us us' ∧ Selected (unionsSelects us) (unionsSelects us')) (unions us)
  | [] => .pure ⟨.nil, .nil⟩
  | ⟨all, s⟩ :: us => .bind (Makes.select s) fun hrun hs => .bind (Makes.unions us) fun _ hus =>
    .pure ⟨.cons all (hd.alone hrun) hs.1 hus.1, hs.2.append hus.2⟩
theorem Makes.select {visible around} : ∀ s : Select,
    Gives (fun s' => s.Edited d around s' ∧ Selected s.selects s'.selects) (select visible s)
  | ⟨_, fs, t, js, c, gs, hv, os, l, o, us, f⟩ => by
    refine .of_run (.bind .any fun hxs _ =>
      .bind (Makes.fields fs (s := .ofSelect fs f) (expansions_eq_ok hxs)) fun _ hfs =>
      .bind (Makes.optTable t) fun _ ht => .bind (Makes.joins js) fun _ hjs => .bind (Makes.optExpr c) fun _ hc =>
      .bind (Makes.exprs gs) fun _ hgs => .bind (Makes.optExpr hv) fun _ hhv => .bind (Makes.orders os) fun _ hos =>
      .bind (Makes.optExpr l) fun _ hl => .bind (Makes.optExpr o) fun _ ho => .bind (Makes.unions us) fun _ hus =>
      .pure fun hself => ⟨⟨hfs.1.1, ht.1, hjs.1, hc.1, hgs.1, hhv.1, hos.1, hl.1, ho.1, hus.1, hfs.1.2 _⟩,
        .cons ⟨visible, hself⟩ ?_⟩)
    exact ((((((((hfs.2.append ht.2).append hjs.2).append hc.2).append hgs.2).append hhv.2).append hos.2).append
      hl.2).append ho.2).append hus.2
end

theorem Makes.assignments {scopes p} : ∀ {as : List Assignment},
    Gives (fun as' => AssignmentsEdited d p as as'
      ∧ Selected (as.flatMap fun a => a.target.selects ++ a.value.selects)
        (as'.flatMap fun a => a.target.selects ++ a.value.selects)) (assignments scopes as)
  | [] => .pure ⟨.nil, .nil⟩
  | ⟨t, v⟩ :: _ => .bind (hd.expr t) fun _ ht => .bind (hd.expr v) fun _ hv => .bind Makes.assignments fun _ has =>
    .pure ⟨.cons ht.1 hv.1 has.1, (ht.2.append hv.2).append has.2⟩

theorem Makes.insertSource {scopes p} : ∀ s : InsertSource,
    Gives (fun s' => s.Edited d p s' ∧ Selected s.selects s'.selects) (insertSource scopes s)
  | .values rows => .bind (hd.exprs rows) fun _ h => .pure ⟨.values h.1, h.2⟩
  | .select s => .bind (hd.select s) fun hrun h => .pure ⟨.select (hd.alone hrun) h.1, h.2⟩

/-- **An expansion of fields that makes the changes of an edit edits every query**, and goes through all
its selects. -/
theorem Makes.query : ∀ {q : Query},
    Gives (fun q' => q.Edited d q' ∧ Selected q.selects q'.selects) (Results.query q)
  | .select s => .map fun _ h => (hd.select s h).imp .select id
  | .insert i => .map (.bind .any fun hxs _ => .bind (hd.table _) fun _ ht => .bind (hd.exprs _) fun _ hcs =>
    .bind (hd.insertSource _) fun _ hs =>
    .bind (hd.fields _ (s := .ofFacts i.facts) (expansions_eq_ok hxs)) fun _ hfs =>
    .pure ⟨.insert ht.1 hcs.1 hs.1 hfs.1.1 (hfs.1.2 _), ((ht.2.append hcs.2).append hs.2).append hfs.2⟩)
  | .update _ => .map (.bind (hd.table _) fun _ ht => .bind hd.assignments fun _ has =>
    .bind (hd.optExpr _) fun _ hc => .bind (hd.orders _) fun _ hos => .bind (hd.optExpr _) fun _ hl =>
    .bind (hd.optExpr _) fun _ ho => .pure ⟨.update ht.1 has.1 hc.1 hos.1 hl.1 ho.1 (hd.refl ..),
      ((((ht.2.append has.2).append hc.2).append hos.2).append hl.2).append ho.2⟩)
  | .delete _ => .map (.bind (hd.table _) fun _ ht => .bind (hd.optExpr _) fun _ hc =>
    .bind (hd.orders _) fun _ hos => .bind (hd.optExpr _) fun _ hl => .bind (hd.optExpr _) fun _ ho =>
    .pure ⟨.delete ht.1 hc.1 hos.1 hl.1 ho.1 (hd.refl ..),
      (((ht.2.append hc.2).append hos.2).append hl.2).append ho.2⟩)

end

theorem makes : Makes edit where
  expand hx := ⟨_, _, rfl, hx⟩
  noted _ := sources_register
  alone h := h

theorem sources_fields {visible : List Facts} {f f' : Facts} {fs fs' : List ResultField} {xs}
    (hxs : expansions f.sources fs = .ok xs) (h : fields visible f fs xs = .ok (fs', f')) :
    f'.sources = f.sources := by
  exact (@Makes.fields _ makes (.ofFacts f) [] false _ _ fs _ (expansions_eq_ok hxs) _ h).1.2 []

/-- **The fifth pass expands wildcards** and changes nothing else. -/
theorem edited {q q' : Query} (h : Results.query q = .ok q') : q.Edited edit q' := (makes.query h).1

/-- All selects of a query have had their results mapped. -/
theorem selected_query {q q' : Query} (h : query q = .ok q') : Selected q.selects q'.selects := (makes.query h).2

end Results

end EntitySql
