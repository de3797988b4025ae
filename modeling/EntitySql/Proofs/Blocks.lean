import Mathlib
import EntitySql.Proofs.SelectLists

/-!
# The blocks of a query

A statement and each select inside it is a block: it has tables, facts about them, and fields that it
returns. Names look at the sources of blocks only, and an edit works block by block.

* `Query.sources_of_view`: what a name sees are sources of blocks.
* `Query.Edited.blocks`: each block of an edited query is the edit of one of the query, or stands in what
  the edit inserts.
* `Results.query_mapped`: the fields of a block have their columns once results are mapped, wildcards over
  raw tables apart.
-/

namespace EntitySql

open Outcome

/-- A statement or a select, without the clauses that only hold expressions. -/
structure Block where
  tables : List Table
  /-- The select list, or what an insert returns. -/
  fields : List ResultField
  facts : Facts

/-- The tables that a select reads from. -/
def Select.tables (s : Select) : List Table := s.source.toList ++ s.joins.map (·.table)

def Select.block (s : Select) : Block := ⟨s.tables, s.fields, s.facts⟩

namespace Query

/-- The block of the statement itself, where it is no select. -/
def ownBlock? : Query → Option Block
  | .select _ => none
  | .insert i => some ⟨[i.table], i.returning, i.facts⟩
  | .update u => some ⟨[u.table], [], u.facts⟩
  | .delete d => some ⟨[d.table], [], d.facts⟩

/-- All blocks of a query, also those inside others. -/
def blocks (q : Query) : List Block := q.ownBlock?.toList ++ q.selects.map Select.block

theorem select_mem_blocks {q : Query} {s : Select} (h : s ∈ q.selects) : s.block ∈ q.blocks :=
  List.mem_append_right _ (List.mem_map_of_mem h)

end Query

/-- The sources and the tables of a block pass the checks. -/
structure Block.Formed (c : Checks) (b : Block) : Prop where
  sources : c.sources b.facts.sources
  tables : ∀ t ∈ b.tables, ∃ joined, t.Formed c joined

theorem Select.Formed.block {c : Checks} {s : Select} (h : s.Formed c) : s.block.Formed c := by
  obtain ⟨_, fs, t, js, cond, gs, hv, os, l, o, us, f⟩ := s
  obtain ⟨-, ht, hjs, -, -, -, -, -, -, -, hsources, -⟩ := h
  refine ⟨hsources, fun x hx => ?_⟩
  rcases List.mem_append.mp hx with hx | hx
  · cases t with
    | none => cases hx
    | some t =>
      cases List.mem_singleton.mp hx
      exact ⟨false, ht⟩
  · obtain ⟨j, hj, rfl⟩ := List.mem_map.mp hx
    exact ⟨true, (joinsFormed_iff.mp hjs j hj).1⟩

theorem Query.Formed.blocks {c : Checks} {q : Query} (h : q.Formed c) : ∀ b ∈ q.blocks, b.Formed c := by
  intro b hb
  rcases List.mem_append.mp hb with hb | hb
  · cases q with
    | select s => cases hb
    | insert i | update u | delete d =>
      cases List.mem_singleton.mp hb
      refine ⟨h.sources, fun t ht => ?_⟩
      cases List.mem_singleton.mp ht
      exact ⟨false, h.table⟩
  · obtain ⟨s, hs, rfl⟩ := List.mem_map.mp hb
    exact (h.covers.selects s hs).block

/-! ## What names see -/

/-- The names see the given queries around them, and selects among those given. -/
def SeenIn (vs : List View) (ss : List Select) (as : List Reference) : Prop :=
  ∀ a ∈ as, ∀ v ∈ a.spot.scopes, v ∈ vs ∨ ∃ s ∈ ss, v.sources = s.facts.sources

namespace SeenIn

variable {vs : List View} {ss ss' : List Select} {as as' : List Reference}

theorem nil : SeenIn vs ss [] := List.forall_mem_nil _

theorem append (h : SeenIn vs ss as) (h' : SeenIn vs ss' as') : SeenIn vs (ss ++ ss') (as ++ as') := by
  refine List.forall_mem_append.mpr ⟨fun a ha v hv => ?_, fun a ha v hv => ?_⟩
  · exact (h a ha v hv).imp_right fun ⟨s, hs, heq⟩ => ⟨s, List.mem_append_left _ hs, heq⟩
  · exact (h' a ha v hv).imp_right fun ⟨s, hs, heq⟩ => ⟨s, List.mem_append_right _ hs, heq⟩

/-- What is seen of an isolated part is part of it. -/
theorem alone (h : SeenIn [] ss as) : SeenIn vs ss as :=
  fun a ha v hv => .inr ((h a ha v hv).resolve_left List.not_mem_nil)

/-- A query around the names is itself one of the selects. -/
theorem inside {s : Select} {v : View} (hv : v.sources = s.facts.sources) (h : SeenIn (v :: vs) ss as) :
    SeenIn vs (s :: ss) as := by
  intro a ha w hw
  rcases h a ha w hw with hmem | ⟨s', hs', heq⟩
  · rcases List.mem_cons.mp hmem with rfl | hmem
    · exact .inr ⟨s, List.mem_cons_self, hv⟩
    · exact .inl hmem
  · exact .inr ⟨s', List.mem_cons_of_mem _ hs', heq⟩

end SeenIn

mutual
theorem Expr.seenIn {p} : ∀ e : Expr, SeenIn p.scopes e.selects (e.references p)
  | .ident _ => by
    intro a ha v hv
    cases List.mem_singleton.mp ha
    exact .inl hv
  | .literal _ | .marker _ | .named _ => .nil
  | .call _ _ args => seenIn_exprs args
  | .list items => seenIn_exprs items
  | .arith _ l r | .compare _ l r | .logic _ l r => (Expr.seenIn l).append (Expr.seenIn r)
  | .unary _ e => Expr.seenIn e
  | .case o bs e => ((seenIn_opt o).append (seenIn_branches bs)).append (seenIn_opt e)
  | .subquery s => Select.seenIn s
theorem seenIn_exprs {p} : ∀ es : List Expr, SeenIn p.scopes (exprsSelects es) (exprsReferences p es)
  | [] => .nil
  | e :: es => (Expr.seenIn e).append (seenIn_exprs es)
theorem seenIn_opt {p} : ∀ o : Option Expr, SeenIn p.scopes (optSelects o) (optReferences p o)
  | none => .nil
  | some e => Expr.seenIn e
theorem seenIn_branches {p} : ∀ bs : List Branch,
    SeenIn p.scopes (branchesSelects bs) (branchesReferences p bs)
  | [] => .nil
  | ⟨c, r⟩ :: bs => ((Expr.seenIn c).append (Expr.seenIn r)).append (seenIn_branches bs)
theorem seenIn_fields {p} : ∀ fs : List ResultField,
    SeenIn p.scopes (fieldsSelects fs) (fieldsReferences p fs)
  | [] => .nil
  | ⟨e, _⟩ :: fs => (Expr.seenIn e).append (seenIn_fields fs)
theorem seenIn_orders {p} : ∀ os : List OrderItem,
    SeenIn p.scopes (ordersSelects os) (ordersReferences p os)
  | [] => .nil
  | ⟨e, _⟩ :: os => (Expr.seenIn e).append (seenIn_orders os)
theorem Table.seenIn : ∀ t : Table, SeenIn [] t.selects t.references
  | .named _ _ => .nil
  | .derived s _ => Select.seenIn s
theorem seenIn_optTable : ∀ t : Option Table, SeenIn [] (optTableSelects t) (optTableReferences t)
  | none => .nil
  | some t => Table.seenIn t
theorem seenIn_joins {p} : ∀ js : List Join, SeenIn p.scopes (joinsSelects js) (joinsReferences p js)
  | [] => .nil
  | ⟨_, t, c, _⟩ :: js => ((Table.seenIn t).alone.append (seenIn_opt c)).append (seenIn_joins js)
theorem seenIn_unions : ∀ us : List UnionPart, SeenIn [] (unionsSelects us) (unionsReferences us)
  | [] => .nil
  | ⟨_, s⟩ :: us => (Select.seenIn s).append (seenIn_unions us)
theorem Select.seenIn {visible} : ∀ s : Select, SeenIn visible s.selects (s.references visible)
  | ⟨_, fs, t, js, c, gs, hv, os, l, o, us, f⟩ => by
    have hall := (((((((((seenIn_fields fs (p := ⟨.ofSelect fs f :: visible, false⟩)).append
      (seenIn_optTable t).alone).append (seenIn_joins js)).append (seenIn_opt c)).append
      (seenIn_exprs gs (p := ⟨_, true⟩))).append (seenIn_opt hv (p := ⟨_, true⟩))).append
      (seenIn_orders os (p := ⟨_, true⟩))).append (seenIn_opt l)).append (seenIn_opt o)).append
      (seenIn_unions us).alone
    exact hall.inside rfl
end

theorem seenIn_assignments {p} : ∀ as : List Assignment, SeenIn p.scopes
    (as.flatMap fun a => a.target.selects ++ a.value.selects) (assignmentsReferences p as)
  | [] => .nil
  | ⟨t, v⟩ :: as => (t.seenIn.append v.seenIn).append (seenIn_assignments as)

theorem InsertSource.seenIn {p} : ∀ s : InsertSource, SeenIn p.scopes s.selects (s.references p)
  | .values rows => seenIn_exprs rows
  | .select s => s.seenIn.alone

/-- **What a name sees are sources of blocks of its query.** -/
theorem Query.sources_of_view {q : Query} {a : Reference} (ha : a ∈ q.references) {v : View}
    (hv : v ∈ a.spot.scopes) : ∃ b ∈ q.blocks, v.sources = b.facts.sources := by
  have hseen : ∃ own : List View, (∀ w ∈ own, ∃ b ∈ q.ownBlock?, w.sources = b.facts.sources)
      ∧ SeenIn own q.selects q.references := by
    cases q with
    | select s => exact ⟨[], List.forall_mem_nil _, s.seenIn⟩
    | insert i =>
      refine ⟨[.ofFacts i.facts], List.forall_mem_singleton.mpr ⟨_, rfl, rfl⟩, ?_⟩
      exact ((i.table.seenIn.alone.append (seenIn_exprs i.columns)).append i.source.seenIn).append
        (seenIn_fields i.returning)
    | update u =>
      refine ⟨[.ofFacts u.facts], List.forall_mem_singleton.mpr ⟨_, rfl, rfl⟩, ?_⟩
      exact ((((u.table.seenIn.alone.append (seenIn_assignments u.assignments (p := ⟨_, false⟩))).append
        (seenIn_opt u.criteria)).append (seenIn_orders u.ordering (p := ⟨_, true⟩))).append
        (seenIn_opt u.limit)).append (seenIn_opt u.offset)
    | delete d =>
      refine ⟨[.ofFacts d.facts], List.forall_mem_singleton.mpr ⟨_, rfl, rfl⟩, ?_⟩
      exact (((d.table.seenIn.alone.append (seenIn_opt d.criteria (p := ⟨_, false⟩))).append
        (seenIn_orders d.ordering (p := ⟨_, true⟩))).append (seenIn_opt d.limit)).append (seenIn_opt d.offset)
  obtain ⟨own, hown, hseen⟩ := hseen
  rcases hseen a ha v hv with hmem | ⟨s, hs, heq⟩
  · obtain ⟨b, hb, heq⟩ := hown v hmem
    exact ⟨b, List.mem_append_left _ (Option.mem_toList.mpr hb), heq⟩
  · exact ⟨s.block, select_mem_blocks hs, heq⟩

/-! ## Edits of blocks -/

/-- The edit inserts no selects but those of `I`, no derived tables, and drops none. -/
structure Edit.Inserts (d : Edit) (I : Select → Prop) : Prop where
  /-- A join without a condition is completed to one of the same table, after links without selects. -/
  complete : ∀ {j new}, d.complete j new → optSelects j.condition = [] ∧ ∃ links l, new = links ++ [l]
    ∧ (∀ k ∈ links, k.table.selects = [] ∧ optSelects k.condition = [])
    ∧ l.table = j.table ∧ ∀ s ∈ optSelects l.condition, I s
  expand : ∀ {p f xs}, d.expand p f xs → f.expr.selects = [] ∧ fieldsSelects xs = []

/-- The selects of the second list are the edits of those of the first, in order, and some of `I`. -/
def Stems (d : Edit) (I : Select → Prop) (ss ss' : List Select) : Prop :=
  Interleaved (fun s s' => ∃ visible, s.Edited d visible s') I ss ss'

namespace Stems

variable {d : Edit} {I : Select → Prop} {ss ss' ts ts' : List Select}

theorem nil : Stems d I [] [] := Interleaved.nil

theorem append (h : Stems d I ss ss') (h' : Stems d I ts ts') : Stems d I (ss ++ ts) (ss' ++ ts') :=
  Interleaved.append h h'

end Stems

section

variable {d : Edit} {I : Select → Prop} (hd : d.Inserts I)

include hd

set_option linter.unusedSectionVars false

/-- What completes a join holds the selects of its table, and those of `I`. -/
theorem Stems.complete {j : Join} {new : List Join} (h : d.complete j new) {ss : List Select}
    (ht : Stems d I ss j.table.selects) : Stems d I (ss ++ optSelects j.condition) (joinsSelects new) := by
  obtain ⟨hnone, links, ⟨kind, t, c, path⟩, rfl, hlinks, htable, hc⟩ := hd.complete h
  have hnew : joinsSelects (links ++ [⟨kind, t, c, path⟩]) = j.table.selects ++ optSelects c := by
    rw [joinsSelects_append, joinsSelects_eq_nil hlinks, ← (htable : t = j.table)]
    exact List.append_nil _
  rw [hnone, hnew]
  exact ht.append (Interleaved.of_forall hc)

mutual
theorem Expr.Edited.stems {p} : ∀ (e : Expr) {e'}, e.Edited d p e' → Stems d I e.selects e'.selects
  | .ident _, _, .ident _ | .literal _, _, .literal _ | .marker _, _, .marker _
  | .named _, _, .named _ | .named _, _, .replaced _ => .nil
  | .call _ _ args, _, .call _ _ hargs => ExprsEdited.stems args hargs
  | .list items, _, .list hitems => ExprsEdited.stems items hitems
  | .arith _ l r, _, .arith _ hl hr | .compare _ l r, _, .compare _ hl hr
  | .logic _ l r, _, .logic _ hl hr => (Expr.Edited.stems l hl).append (Expr.Edited.stems r hr)
  | .unary _ e, _, .unary _ he => (Expr.Edited.stems e he :)
  | .case o bs e, _, .case ho hbs he =>
    ((OptEdited.stems o ho).append (BranchesEdited.stems bs hbs)).append (OptEdited.stems e he)
  | .subquery s, _, .subquery hs => Select.Edited.stems s hs
theorem ExprsEdited.stems {p} : ∀ (es : List Expr) {es'}, ExprsEdited d p es es' →
    Stems d I (exprsSelects es) (exprsSelects es')
  | [], _, .nil => .nil
  | e :: es, _, .cons he hes => (Expr.Edited.stems e he).append (ExprsEdited.stems es hes)
theorem OptEdited.stems {p} : ∀ (o : Option Expr) {o'}, OptEdited d p o o' →
    Stems d I (optSelects o) (optSelects o')
  | none, _, .none => .nil
  | some e, _, .some he => Expr.Edited.stems e he
theorem BranchesEdited.stems {p} : ∀ (bs : List Branch) {bs'}, BranchesEdited d p bs bs' →
    Stems d I (branchesSelects bs) (branchesSelects bs')
  | [], _, .nil => .nil
  | ⟨c, r⟩ :: bs, _, .cons hc hr hbs =>
    ((Expr.Edited.stems c hc).append (Expr.Edited.stems r hr)).append (BranchesEdited.stems bs hbs)
theorem FieldsEdited.stems {p} : ∀ (fs : List ResultField) {fs'}, FieldsEdited d p fs fs' →
    Stems d I (fieldsSelects fs) (fieldsSelects fs')
  | [], _, .nil => .nil
  | ⟨e, _⟩ :: fs, _, .keep _ he hfs => (Expr.Edited.stems e he).append (FieldsEdited.stems fs hfs)
  | ⟨e, _⟩ :: fs, _, .expand hx hfs => by
    obtain ⟨hnone, hxs⟩ := hd.expand hx
    rw [fieldsSelects_append, hxs, fieldsSelects, (hnone : e.selects = [])]
    exact (FieldsEdited.stems fs hfs :)
theorem OrdersEdited.stems {p} : ∀ (os : List OrderItem) {os'}, OrdersEdited d p os os' →
    Stems d I (ordersSelects os) (ordersSelects os')
  | [], _, .nil => .nil
  | ⟨e, _⟩ :: os, _, .cons _ he hos => (Expr.Edited.stems e he).append (OrdersEdited.stems os hos)
theorem Table.Edited.stems {joined} : ∀ (t : Table) {t'}, t.Edited d joined t' → Stems d I t.selects t'.selects
  | .named _ _, _, .named _ => .nil
  | .derived s _, _, .derived _ _ hs => Select.Edited.stems s hs
theorem OptTableEdited.stems : ∀ (t : Option Table) {t'}, OptTableEdited d t t' →
    Stems d I (optTableSelects t) (optTableSelects t')
  | none, _, .none => .nil
  | some t, _, .some ht => Table.Edited.stems t ht
theorem JoinsEdited.stems {p} : ∀ (js : List Join) {js'}, JoinsEdited d p js js' →
    Stems d I (joinsSelects js) (joinsSelects js')
  | [], _, .nil => .nil
  | ⟨_, t, c, _⟩ :: js, _, .keep _ ht hc hjs =>
    ((Table.Edited.stems t ht).append (OptEdited.stems c hc)).append (JoinsEdited.stems js hjs)
  | ⟨kind, t, c, path⟩ :: js, _, .complete ht hnew hjs => by
    rw [joinsSelects_append]
    exact (Stems.complete hd hnew (Table.Edited.stems t ht)).append (JoinsEdited.stems js hjs)
theorem UnionsEdited.stems : ∀ (us : List UnionPart) {us'}, UnionsEdited d us us' →
    Stems d I (unionsSelects us) (unionsSelects us')
  | [], _, .nil => .nil
  | ⟨_, s⟩ :: us, _, .cons _ _ hs hus => (Select.Edited.stems s hs).append (UnionsEdited.stems us hus)
theorem Select.Edited.stems {visible} : ∀ (s : Select) {s'}, s.Edited d visible s' →
    Stems d I s.selects s'.selects
  | ⟨distinct, fs, t, js, c, gs, hv, os, l, o, us, f⟩, _, .mk hfs ht hjs hc hgs hhv hos hl ho hus hf => by
    have hself : Select.Edited d visible ⟨distinct, fs, t, js, c, gs, hv, os, l, o, us, f⟩ _ :=
      .mk hfs ht hjs hc hgs hhv hos hl ho hus hf
    have hinner := (((((((((FieldsEdited.stems fs hfs).append (OptTableEdited.stems t ht)).append
      (JoinsEdited.stems js hjs)).append (OptEdited.stems c hc)).append (ExprsEdited.stems gs hgs)).append
      (OptEdited.stems hv hhv)).append (OrdersEdited.stems os hos)).append (OptEdited.stems l hl)).append
      (OptEdited.stems o ho)).append (UnionsEdited.stems us hus)
    exact Interleaved.keep ⟨visible, hself⟩ hinner
end

theorem AssignmentsEdited.stems : ∀ {as as' : List Assignment} {p}, AssignmentsEdited d p as as' →
    Stems d I (as.flatMap fun a => a.target.selects ++ a.value.selects)
      (as'.flatMap fun a => a.target.selects ++ a.value.selects)
  | [], _, _, .nil => .nil
  | ⟨t, v⟩ :: _, _, _, .cons ht hv has =>
    ((Expr.Edited.stems hd t ht).append (Expr.Edited.stems hd v hv)).append has.stems

theorem InsertSource.Edited.stems {p : Spot} : ∀ {s s' : InsertSource}, s.Edited d p s' →
    Stems d I s.selects s'.selects
  | .values rows, _, .values hrows => ExprsEdited.stems hd rows hrows
  | .select s, _, .select _ hs => Select.Edited.stems hd s hs

theorem Query.Edited.stems {q q' : Query} (h : q.Edited d q') : Stems d I q.selects q'.selects := by
  cases h with
  | select hs => exact Select.Edited.stems hd _ hs
  | insert ht hcs hs hfs _ =>
    exact (((Table.Edited.stems hd _ ht).append (ExprsEdited.stems hd _ hcs)).append
      (InsertSource.Edited.stems hd hs)).append (FieldsEdited.stems hd _ hfs)
  | update ht has hc hos hl ho _ =>
    exact (((((Table.Edited.stems hd _ ht).append (AssignmentsEdited.stems hd has)).append
      (OptEdited.stems hd _ hc)).append (OrdersEdited.stems hd _ hos)).append (OptEdited.stems hd _ hl)).append
      (OptEdited.stems hd _ ho)
  | delete ht hc hos hl ho _ =>
    exact ((((Table.Edited.stems hd _ ht).append (OptEdited.stems hd _ hc)).append
      (OrdersEdited.stems hd _ hos)).append (OptEdited.stems hd _ hl)).append (OptEdited.stems hd _ ho)

end

/-- The derived tables of two lists are edited to each other, and none is dropped or added. -/
structure DerivedEdited (d : Edit) (ts ts' : List Table) : Prop where
  before : ∀ s' label, Table.derived s' label ∈ ts' →
    ∃ s, Table.derived s label ∈ ts ∧ d.alone s s' ∧ s.Edited d [] s'
  after : ∀ s label, Table.derived s label ∈ ts →
    ∃ s', Table.derived s' label ∈ ts' ∧ d.alone s s' ∧ s.Edited d [] s'

/-- One block is edited to another: the selects of its derived tables are, and so are its fields. -/
structure Block.Edited (d : Edit) (b b' : Block) : Prop where
  tables : DerivedEdited d b.tables b'.tables
  fields : ∃ v around, v.sources = b.facts.sources ∧ FieldsEdited d ⟨v :: around, false⟩ b.fields b'.fields
  facts : d.facts b'.tables b.facts b'.facts

section

variable {d : Edit}

namespace DerivedEdited

variable {ts ts' us us' : List Table}

theorem nil : DerivedEdited d [] [] :=
  ⟨fun _ _ hmem => absurd hmem List.not_mem_nil, fun _ _ hmem => absurd hmem List.not_mem_nil⟩

theorem append (h : DerivedEdited d ts ts') (h' : DerivedEdited d us us') :
    DerivedEdited d (ts ++ us) (ts' ++ us') := by
  refine ⟨fun s' label hmem => ?_, fun s label hmem => ?_⟩
  · rcases List.mem_append.mp hmem with hmem | hmem
    · obtain ⟨s, hs, hedit⟩ := h.before s' label hmem
      exact ⟨s, List.mem_append_left _ hs, hedit⟩
    · obtain ⟨s, hs, hedit⟩ := h'.before s' label hmem
      exact ⟨s, List.mem_append_right _ hs, hedit⟩
  · rcases List.mem_append.mp hmem with hmem | hmem
    · obtain ⟨s', hs', hedit⟩ := h.after s label hmem
      exact ⟨s', List.mem_append_left _ hs', hedit⟩
    · obtain ⟨s', hs', hedit⟩ := h'.after s label hmem
      exact ⟨s', List.mem_append_right _ hs', hedit⟩

theorem single {joined : Bool} {t t' : Table} (h : t.Edited d joined t') : DerivedEdited d [t] [t'] := by
  refine ⟨fun s' label hmem => ?_, fun s label hmem => ?_⟩
  · cases List.mem_singleton.mp hmem
    cases h with
    | derived _ ha hs => exact ⟨_, List.mem_singleton_self _, ha, hs⟩
  · cases List.mem_singleton.mp hmem
    cases h with
    | derived _ ha hs => exact ⟨_, List.mem_singleton_self _, ha, hs⟩

/-- Tables without selects may be added. -/
theorem widen (h : DerivedEdited d ts ts') (hsub : ts' ⊆ us)
    (hnew : ∀ t ∈ us, t ∈ ts' ∨ t.selects = []) : DerivedEdited d ts us := by
  refine ⟨fun s' label hmem => ?_, fun s label hmem => ?_⟩
  · rcases hnew _ hmem with hmem | hnil
    · exact h.before s' label hmem
    · cases s'
      cases hnil
  · obtain ⟨s', hs', hedit⟩ := h.after s label hmem
    exact ⟨s', hsub hs', hedit⟩

end DerivedEdited

theorem OptTableEdited.derivedEdited {t t' : Option Table} (h : OptTableEdited d t t') :
    DerivedEdited d t.toList t'.toList := by
  cases h with
  | none => exact .nil
  | some ht => exact .single ht

theorem JoinsEdited.derivedEdited {I : Select → Prop} (hd : d.Inserts I) : ∀ {js js' : List Join} {p : Spot},
    JoinsEdited d p js js' → DerivedEdited d (js.map (·.table)) (js'.map (·.table))
  | [], _, _, .nil => .nil
  | _ :: _, _, _, .keep _ ht _ hjs => (DerivedEdited.single ht).append (hjs.derivedEdited hd)
  | _ :: _, _, _, .complete ht hnew hjs => by
    -- the completed join keeps its table, and its link has no select
    rw [List.map_append]
    obtain ⟨-, links, l, rfl, hlinks, htable, -⟩ := hd.complete hnew
    have hwiden : DerivedEdited d [_] ((links ++ [l]).map (·.table)) :=
      (DerivedEdited.single ht).widen (List.cons_subset.mpr ⟨by simp [htable], List.nil_subset _⟩)
        fun t ht => by
          rw [List.map_append, List.mem_append] at ht
          rcases ht with ht | ht
          · obtain ⟨k, hk, rfl⟩ := List.mem_map.mp ht
            exact .inr (hlinks k hk).1
          · exact .inl (by rwa [List.map_singleton, htable] at ht)
    exact hwiden.append (hjs.derivedEdited hd)

theorem Select.Edited.block {I : Select → Prop} (hd : d.Inserts I) {s s' : Select} {visible : List View}
    (h : s.Edited d visible s') : s.block.Edited d s'.block := by
  obtain ⟨hfs, ht, hjs, -, -, -, -, -, -, -, hf⟩ := h
  exact ⟨ht.derivedEdited.append (hjs.derivedEdited hd), ⟨_, _, rfl, hfs⟩, hf⟩

theorem Block.Edited.single {t t' : Table} {fs fs' : List ResultField} {f f' : Facts}
    (ht : t.Edited d false t') (hfs : FieldsEdited d ⟨[.ofFacts f], false⟩ fs fs') (hf : d.facts [t'] f f') :
    Block.Edited d ⟨[t], fs, f⟩ ⟨[t'], fs', f'⟩ :=
  ⟨.single ht, ⟨_, _, rfl, hfs⟩, hf⟩

/-- **An edit works block by block**, in order, apart from the blocks that it inserts. -/
theorem Query.Edited.interleaved {I : Select → Prop} (hd : d.Inserts I) {q q' : Query} (h : q.Edited d q') :
    Interleaved (Block.Edited d) (fun b => ∃ s, I s ∧ b = s.block) q.blocks q'.blocks := by
  have hselects : Interleaved (Block.Edited d) (fun b => ∃ s, I s ∧ b = s.block)
      (q.selects.map Select.block) (q'.selects.map Select.block) :=
    (Query.Edited.stems hd h).map (fun _ _ ⟨_, hedit⟩ => hedit.block hd) fun s hs => ⟨s, hs, rfl⟩
  cases h with
  | select => exact hselects
  | insert ht _ _ hfs hf => exact .keep (.single ht hfs hf) hselects
  | update ht _ _ _ _ _ hf | delete ht _ _ _ _ hf => exact .keep (.single ht .nil hf) hselects

theorem Query.Edited.blocks {I : Select → Prop} (hd : d.Inserts I) {q q' : Query} (h : q.Edited d q') :
    ∀ b' ∈ q'.blocks, (∃ b ∈ q.blocks, b.Edited d b') ∨ ∃ s, I s ∧ b' = s.block :=
  (h.interleaved hd).exists_of_mem

end

/-! ## Mapped results -/

namespace Results

/-! ### The columns of one select -/

/-- The column of a field that is no wildcard is among the results. -/
def Registered (f : Facts) (field : ResultField) : Prop :=
  field.isWildcard = false →
    ∃ name column, names field = .ok (name, column.column) ∧ (name, column) ∈ f.results

theorem registered_register {visible : List Facts} {f f' : Facts} {field : ResultField}
    (h : register visible f field = .ok f') : Registered f' field ∧ f.results ⊆ f'.results := by
  unfold register at h
  split at h
  · next hw =>
    cases h
    exact ⟨fun hno => absurd hw (by rw [hno]; exact Bool.false_ne_true), List.Subset.refl _⟩
  · simp only [bind_eq_ok] at h
    obtain ⟨⟨name, label⟩, hnames, h⟩ := h
    unfold Facts.addResult at h
    split at h <;> cases h
    refine ⟨fun _ => ⟨name, _, ?_, List.mem_append_right _ (List.mem_singleton_self _)⟩,
      List.subset_append_left _ _⟩
    rw [hnames]
    unfold column
    split <;> rfl

theorem Registered.mono {f f' : Facts} {field : ResultField} (h : Registered f field)
    (hsub : f.results ⊆ f'.results) : Registered f' field := fun hw => by
  obtain ⟨name, column, hnames, hmem⟩ := h hw
  exact ⟨name, column, hnames, hsub hmem⟩

theorem registered_registerAll {visible : List Facts} : ∀ {fs : List ResultField} {f f' : Facts},
    registerAll visible f fs = .ok f' → (∀ x ∈ fs, Registered f' x) ∧ f.results ⊆ f'.results
  | [], _, _, h => by
    cases h
    exact ⟨List.forall_mem_nil _, List.Subset.refl _⟩
  | _ :: _, _, _, h => by
    simp only [registerAll, bind_eq_ok] at h
    obtain ⟨f₁, hf₁, h⟩ := h
    obtain ⟨hone, hsub⟩ := registered_register hf₁
    obtain ⟨hall, hsub'⟩ := registered_registerAll h
    exact ⟨List.forall_mem_cons.mpr ⟨hone.mono hsub', hall⟩, List.Subset.trans hsub hsub'⟩

theorem registered_fields {visible : List Facts} : ∀ {fs : List ResultField} {f f' : Facts} {xs fs'},
    fs.length = xs.length → fields visible f fs xs = .ok (fs', f') →
    (∀ x ∈ fs', Registered f' x) ∧ f.results ⊆ f'.results
  | [], _, _, _, _, _, h => by
    simp only [fields, pure_eq_ok] at h
    cases h
    exact ⟨List.forall_mem_nil _, List.Subset.refl _⟩
  | ⟨_, _⟩ :: fs, _, _, some expanded :: xs, _, hlen, h => by
    simp only [fields, bind_eq_ok, pure_eq_ok] at h
    obtain ⟨f₁, hf₁, ⟨fs', f₂⟩, hfs, h⟩ := h
    cases h
    obtain ⟨hexpanded, hsub⟩ := registered_registerAll hf₁
    obtain ⟨hrest, hsub'⟩ := registered_fields (Nat.succ.inj hlen) hfs
    exact ⟨List.forall_mem_append.mpr ⟨fun x hx => (hexpanded x hx).mono hsub', hrest⟩, List.Subset.trans hsub hsub'⟩
  | ⟨e, _⟩ :: fs, _, _, none :: xs, _, hlen, h => by
    simp only [fields, bind_eq_ok, pure_eq_ok] at h
    obtain ⟨e', he, f₁, hf₁, ⟨fs', f₂⟩, hfs, h⟩ := h
    cases h
    obtain ⟨hone, hsub⟩ := registered_register hf₁
    obtain ⟨hrest, hsub'⟩ := registered_fields (Nat.succ.inj hlen) hfs
    exact ⟨List.forall_mem_cons.mpr ⟨hone.mono hsub', hrest⟩, List.Subset.trans hsub hsub'⟩

/-- A wildcard stays only if it covers a raw table. -/
theorem raw_of_expansion {sources : Sources} {i : Identifier} {label : Option String}
    (h : expansion sources ⟨.ident i, label⟩ = .ok none) (hw : i.isWildcard = true) :
    ∃ ss qualify, meant sources i = .ok (ss, qualify) ∧ ∃ s ∈ ss, s.isRaw = true := by
  unfold expansion at h
  simp only [Expr.asIdentifier?, hw, if_true, bind_eq_ok, pure_eq_ok] at h
  obtain ⟨⟨ss, qualify⟩, hmeant, h⟩ := h
  split at h
  · next hraw => exact ⟨ss, qualify, hmeant, List.any_eq_true.mp hraw⟩
  · cases h

theorem raw_fields {ss : Sources} : ∀ {fs : List ResultField} {visible f xs fs' f'},
    List.Forall₂ (fun f x => expansion ss f = .ok x) fs xs → fields visible f fs xs = .ok (fs', f') →
    ∀ i label, ⟨.ident i, label⟩ ∈ fs' → i.isWildcard = true → i.resolution = none →
      ∃ means qualify, meant ss i = .ok (means, qualify) ∧ ∃ s ∈ means, s.isRaw = true
  | [], _, _, _, _, _, _, h => by
    simp only [fields, pure_eq_ok] at h
    cases h
    intro _ _ hmem
    cases hmem
  | ⟨_, _⟩ :: fs, _, _, some expanded :: xs, _, _, .cons hx hxs, h => by
    simp only [fields, bind_eq_ok, pure_eq_ok] at h
    obtain ⟨f₁, hf₁, ⟨fs', f₂⟩, hfs, h⟩ := h
    cases h
    intro i label hmem hw hnone
    rcases List.mem_append.mp hmem with hmem | hmem
    · -- what takes the place of a wildcard is resolved
      obtain ⟨_, means, qualify, -, -, -, -, rfl⟩ := expansion_eq_some hx
      obtain ⟨s, -, hmem⟩ := List.mem_flatMap.mp hmem
      obtain ⟨path, p, -, heq⟩ := mem_ofSource hmem
      cases heq
      cases hnone
    · exact raw_fields hxs hfs i label hmem hw hnone
  | ⟨e, _⟩ :: fs, _, _, none :: xs, _, _, .cons hx hxs, h => by
    simp only [fields, bind_eq_ok, pure_eq_ok] at h
    obtain ⟨e', he, f₁, hf₁, ⟨fs', f₂⟩, hfs, h⟩ := h
    cases h
    intro i label hmem hw hnone
    rcases List.mem_cons.mp hmem with heq | hmem
    · cases heq
      cases (makes.expr e (p := ⟨[], false⟩) he).1 with
      | ident hi =>
        cases hi
        exact raw_of_expansion hx hw
    · exact raw_fields hxs hfs i label hmem hw hnone

end Results

/-- Every field that is no wildcard has its column, and every wildcard that is left covers a raw table. -/
structure Block.Mapped (b : Block) : Prop where
  registered : ∀ f ∈ b.fields, Results.Registered b.facts f
  raw : ∀ i label, ⟨.ident i, label⟩ ∈ b.fields → i.isWildcard = true → i.resolution = none →
    ∃ ss qualify, Results.meant b.facts.sources i = .ok (ss, qualify) ∧ ∃ s ∈ ss, s.isRaw = true

namespace Results

theorem mapped_fields {visible : List Facts} {fs fs' : List ResultField} {xs f f'} {ts : List Table}
    (hxs : expansions f.sources fs = .ok xs) (hfs : fields visible f fs xs = .ok (fs', f')) :
    Block.Mapped ⟨ts, fs', f'⟩ := by
  have hall := expansions_eq_ok hxs
  refine ⟨(registered_fields hall.length_eq hfs).1, ?_⟩
  rw [sources_fields hxs hfs]
  exact raw_fields hall hfs

theorem mapped_select {visible : List Facts} {s s' : Select} (h : select visible s = .ok s') : s'.block.Mapped := by
  obtain ⟨_, fs, t, js, c, gs, hv, os, l, o, us, f⟩ := s
  simp only [select, bind_eq_ok, pure_eq_ok] at h
  obtain ⟨xs, hxs, ⟨fs', f'⟩, hfs, t', -, js', -, c', -, gs', -, hv', -, os', -, l', -, o', -, us', -, rfl⟩ := h
  exact mapped_fields hxs hfs

end Results

/-- The second block is the first with its wildcards expanded and its results mapped. -/
def Block.Maps (b b' : Block) : Prop :=
  ∃ visible xs, Results.expansions b.facts.sources b.fields = .ok xs
    ∧ Results.fields visible b.facts b.fields xs = .ok (b'.fields, b'.facts)

namespace Results

theorem maps_select {s s' : Select} (h : ∃ visible, select visible s = .ok s') : s.block.Maps s'.block := by
  obtain ⟨_, fs, t, js, c, gs, hv, os, l, o, us, f⟩ := s
  obtain ⟨visible, h⟩ := h
  simp only [select, bind_eq_ok, pure_eq_ok] at h
  obtain ⟨xs, hxs, ⟨fs', f'⟩, hfs, t', -, js', -, c', -, gs', -, hv', -, os', -, l', -, o', -, us', -, rfl⟩ := h
  exact ⟨visible, xs, hxs, hfs⟩

/-- **Results are mapped block by block.** -/
theorem maps_query {q q' : Query} (h : query q = .ok q') : List.Forall₂ Block.Maps q.blocks q'.blocks := by
  have hselects : List.Forall₂ Block.Maps (q.selects.map Select.block) (q'.selects.map Select.block) :=
    List.forall₂_map_left_iff.mpr (List.forall₂_map_right_iff.mpr ((selected_query h).imp fun _ _ => maps_select))
  cases q with
  | select s =>
    obtain ⟨s', -, rfl⟩ := map_eq_ok.mp h
    exact hselects
  | insert i =>
    obtain ⟨i', hi, rfl⟩ := map_eq_ok.mp h
    simp only [insert, bind_eq_ok, pure_eq_ok] at hi
    obtain ⟨xs, hxs, t', ht, cs', hcs, s', hs, ⟨fs', f'⟩, hfs, rfl⟩ := hi
    exact .cons ⟨[], xs, hxs, hfs⟩ hselects
  | update u =>
    obtain ⟨u', hu, rfl⟩ := map_eq_ok.mp h
    simp only [update, bind_eq_ok, pure_eq_ok] at hu
    obtain ⟨t', -, as', -, c', -, os', -, l', -, o', -, rfl⟩ := hu
    exact .cons ⟨[], [], rfl, rfl⟩ hselects
  | delete d =>
    obtain ⟨d', hd, rfl⟩ := map_eq_ok.mp h
    simp only [delete, bind_eq_ok, pure_eq_ok] at hd
    obtain ⟨t', -, c', -, os', -, l', -, o', -, rfl⟩ := hd
    exact .cons ⟨[], [], rfl, rfl⟩ hselects

/-- **The blocks of a query whose results are mapped** have a column for each field, wildcards over raw
tables apart. -/
theorem query_mapped {q q' : Query} (h : query q = .ok q') : ∀ b ∈ q'.blocks, b.Mapped := by
  intro b hb
  have hmaps : Interleaved Block.Maps (fun _ => False) q.blocks q'.blocks := .of_forall₂ (maps_query h)
  obtain ⟨b', -, visible, xs, hxs, hfs⟩ := (hmaps.exists_of_mem b hb).resolve_right id
  exact mapped_fields hxs hfs

end Results

/-! ## What the passes insert -/

/-- The mapping of tables inserts nothing. -/
theorem Naming.edit_inserts {n : Naming} : n.edit.Inserts fun _ => False where
  complete h := h.elim
  expand h := h.elim

/-- The mapping of derived tables inserts nothing. -/
theorem Derived.edit_inserts : Derived.edit.Inserts fun _ => False where
  complete h := h.elim
  expand h := h.elim

/-- Completed joins bring in the selects of filters. -/
theorem Joins.inserts_filters {schema : Schema} {A : Entity → Bool} {K : String → Expr → Prop}
    {L : Select → Select → Prop} {I : Select → Prop} (hI : ∀ label x, K label x → ∀ s ∈ x.selects, I s) :
    (Joins.edit schema A K L).Inserts I where
  complete {j new} h := by
    obtain ⟨hconnects, hr⟩ := h
    obtain ⟨⟨_, _, -, -⟩, hlinks⟩ := hconnects.equates
    refine ⟨by rw [hconnects.pending.2]; rfl, _, _, rfl, fun k hk => ?_, rfl, ?_⟩
    · obtain ⟨table, a, b, k, -, ⟨_, _, -, -⟩, rfl⟩ := hlinks k (Option.mem_toList.mp hk)
      exact ⟨rfl, rfl⟩
    · dsimp only
      unfold Completion.condition
      split
      · next r hsome => exact List.forall_mem_append.mpr ⟨List.forall_mem_nil _, hI _ r (hr r hsome)⟩
      · exact List.forall_mem_nil _
  expand h := h.elim

theorem Joins.edit_inserts {schema : Schema} {A : Entity → Bool} {c : Checks} {L : Select → Select → Prop} :
    (Joins.edit schema A (fun _ => Expr.Formed c) L).Inserts fun s => s.Formed c :=
  inserts_filters fun _ x hx => (Expr.Formed.covers (p := ⟨[], false⟩) x hx).selects

/-- The resolution of names inserts nothing. -/
theorem Columns.edit_inserts : Columns.edit.Inserts fun _ => False where
  complete h := h.elim
  expand h := h.elim

/-- The fields that take the place of a wildcard are names. -/
theorem Results.edit_inserts : Results.edit.Inserts fun _ => False where
  complete h := h.elim
  expand := fun ⟨_, _, _, hx⟩ => selects_expansion hx

/-- The numbering of parameters inserts nothing. -/
theorem Parameters.edit_inserts : Parameters.edit.Inserts fun _ => False where
  complete h := h.elim
  expand h := h.elim

end EntitySql
