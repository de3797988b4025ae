import Mathlib
import EntitySql.Dialect
import EntitySql.Proofs.Quoting
import EntitySql.Proofs.SelectLists

/-!
# What SQL says of a query

SQL says less than the query it is written for: it has no facts, no resolved types and no relation paths,
calls functions by the names of the dialect, knows markers by their ordinals alone, and shows of an insert
neither the alias of its table nor the qualifiers of its columns. `Query.erased` is the query with only
that left.

* `Query.collect_erased`: its markers are those of the query, by their ordinals.
* `Query.Formed.shaped_erased`: it has the shape of a query that is read from a text, if the names of the
  query can be quoted and no select is without fields.
-/

namespace EntitySql

/-! ## Erasing a tree -/

/-- A marker as it is read from its placeholder. -/
def Mark.erased : Mark → Mark
  | anonymous m => anonymous { position := m.ordinal }
  | named m => named { name := m.name }

mutual
def Expr.erased : Expr → Expr
  | .ident i => .name i.value
  | .literal l => .literal l
  | .marker m => .marker { position := m.ordinal }
  | .named m => .named { name := m.name }
  | .call name distinct args =>
    .call (Dialect.generic.functionName name args.length) distinct (erasedExprs args)
  | .list items => .list (erasedExprs items)
  | .arith op l r => .arith op l.erased r.erased
  | .compare op l r => .compare op l.erased r.erased
  | .logic op l r => .logic op l.erased r.erased
  | .unary op e => .unary op e.erased
  | .case operand bs otherwise => .case (erasedOpt operand) (erasedBranches bs) (erasedOpt otherwise)
  | .subquery s => .subquery s.erased
def erasedExprs : List Expr → List Expr
  | [] => []
  | e :: es => e.erased :: erasedExprs es
def erasedOpt : Option Expr → Option Expr
  | none => none
  | some e => some e.erased
def erasedBranches : List Branch → List Branch
  | [] => []
  | ⟨c, r⟩ :: bs => ⟨c.erased, r.erased⟩ :: erasedBranches bs
def erasedFields : List ResultField → List ResultField
  | [] => []
  | ⟨e, a⟩ :: fs => ⟨e.erased, a⟩ :: erasedFields fs
def erasedOrders : List OrderItem → List OrderItem
  | [] => []
  | ⟨e, ascending⟩ :: os => ⟨e.erased, ascending⟩ :: erasedOrders os
def Table.erased : Table → Table
  | .named name a => .named name a
  | .derived s a => .derived s.erased a
def erasedOptTable : Option Table → Option Table
  | none => none
  | some t => some t.erased
def erasedJoins : List Join → List Join
  | [] => []
  | ⟨kind, t, condition, _⟩ :: js => ⟨kind, t.erased, erasedOpt condition, none⟩ :: erasedJoins js
def erasedUnions : List UnionPart → List UnionPart
  | [] => []
  | ⟨all, s⟩ :: us => ⟨all, s.erased⟩ :: erasedUnions us
def Select.erased : Select → Select
  | ⟨distinct, fields, source, joins, criteria, grouping, having, ordering, limit, offset, unions, _⟩ =>
    ⟨distinct, erasedFields fields, erasedOptTable source, erasedJoins joins, erasedOpt criteria,
      erasedExprs grouping, erasedOpt having, erasedOrders ordering, erasedOpt limit, erasedOpt offset,
      erasedUnions unions, {}⟩
end

/-- The table of an insert, which has no alias. -/
def Table.erasedTarget : Table → Table
  | .named name _ => .named name none
  | .derived s _ => .derived s.erased none

/-- The column of an insert: the last segment of its name. -/
def Expr.erasedColumn : Expr → Expr
  | .ident i => .name i.name
  | e => e.erased

def Assignment.erased (a : Assignment) : Assignment := ⟨a.target.erased, a.value.erased⟩

def InsertSource.erased : InsertSource → InsertSource
  | .values rows => .values (erasedExprs rows)
  | .select s => .select s.erased

/-- What SQL says of a query. -/
def Query.erased : Query → Query
  | .select s => .select s.erased
  | .insert i => .insert
    { table := i.table.erasedTarget
      columns := i.columns.map Expr.erasedColumn
      source := i.source.erased
      returning := erasedFields i.returning }
  | .update u => .update
    { table := u.table.erased
      assignments := u.assignments.map Assignment.erased
      criteria := erasedOpt u.criteria
      ordering := erasedOrders u.ordering
      limit := erasedOpt u.limit
      offset := erasedOpt u.offset }
  | .delete d => .delete
    { table := d.table.erased
      criteria := erasedOpt d.criteria
      ordering := erasedOrders d.ordering
      limit := erasedOpt d.limit
      offset := erasedOpt d.offset }

/-! ## What is kept -/

theorem erasedExprs_eq (es : List Expr) : erasedExprs es = es.map Expr.erased := by
  induction es with
  | nil => rfl
  | cons e es ih => rw [erasedExprs, ih, List.map_cons]

theorem isEmpty_erasedFields (fs : List ResultField) : (erasedFields fs).isEmpty = fs.isEmpty := by
  cases fs with
  | nil => rfl
  | cons f fs =>
    obtain ⟨e, a⟩ := f
    rfl

namespace Expr

variable (e : Expr)

theorem precedence_erased : e.erased.precedence = e.precedence := by
  cases e <;> rfl

theorem isGroup_erased : e.erased.isGroup = e.isGroup := by
  cases e <;> rfl

theorem isNegative_erased : e.erased.isNegative = e.isNegative := by
  cases e with
  | unary op e => cases op <;> rfl
  | _ => rfl

theorem needsParens_erased (required : Nat) (outer : Option LogicOp) :
    e.erased.needsParens required outer = e.needsParens required outer := by
  unfold needsParens
  rw [precedence_erased]
  cases e with
  | logic op l r => cases outer <;> rfl
  | _ => rfl

variable {e}

theorem eq_literal_of_erased {l : Literal} (h : e.erased = .literal l) : e = .literal l := by
  cases e with
  | literal l => exact h
  | _ => cases h

end Expr

theorem Select.unions_erased {s : Select} (h : s.unions = []) : s.erased.unions = [] := by
  obtain ⟨_, _, _, _, _, _, _, _, _, _, unions, _⟩ := s
  subst h
  rfl

/-! ## Markers -/

mutual
theorem Expr.collect_erased : ∀ e : Expr, e.erased.collect markers = (e.collect markers).map Mark.erased
  | .ident _ | .literal _ | .marker _ | .named _ => rfl
  | .call _ _ args => collect_erasedExprs args
  | .list items => collect_erasedExprs items
  | .arith _ l r | .compare _ l r | .logic _ l r => by
    rw [Expr.erased, Expr.collect, Expr.collect, List.map_append, Expr.collect_erased l, Expr.collect_erased r]
  | .unary _ e => Expr.collect_erased e
  | .case o bs e => by
    rw [Expr.erased, Expr.collect, Expr.collect, List.map_append, List.map_append, collect_erasedOpt o,
      collect_erasedBranches bs, collect_erasedOpt e]
  | .subquery s => Select.collect_erased s
theorem collect_erasedExprs : ∀ es,
    collectExprs markers (erasedExprs es) = (collectExprs markers es).map Mark.erased
  | [] => rfl
  | e :: es => by
    rw [erasedExprs, collectExprs, collectExprs, List.map_append, Expr.collect_erased e,
      collect_erasedExprs es]
theorem collect_erasedOpt : ∀ o, collectOpt markers (erasedOpt o) = (collectOpt markers o).map Mark.erased
  | none => rfl
  | some e => Expr.collect_erased e
theorem collect_erasedBranches : ∀ bs,
    collectBranches markers (erasedBranches bs) = (collectBranches markers bs).map Mark.erased
  | [] => rfl
  | ⟨c, r⟩ :: bs => by
    rw [erasedBranches, collectBranches, collectBranches, List.map_append, List.map_append,
      Expr.collect_erased c, Expr.collect_erased r, collect_erasedBranches bs]
theorem collect_erasedFields : ∀ fs,
    collectFields markers (erasedFields fs) = (collectFields markers fs).map Mark.erased
  | [] => rfl
  | ⟨e, _⟩ :: fs => by
    rw [erasedFields, collectFields, collectFields, List.map_append, Expr.collect_erased e,
      collect_erasedFields fs]
theorem collect_erasedOrders : ∀ os,
    collectOrders markers (erasedOrders os) = (collectOrders markers os).map Mark.erased
  | [] => rfl
  | ⟨e, _⟩ :: os => by
    rw [erasedOrders, collectOrders, collectOrders, List.map_append, Expr.collect_erased e,
      collect_erasedOrders os]
theorem Table.collect_erased : ∀ t : Table, t.erased.collect markers = (t.collect markers).map Mark.erased
  | .named _ _ => rfl
  | .derived s _ => Select.collect_erased s
theorem collect_erasedOptTable : ∀ t,
    collectOptTable markers (erasedOptTable t) = (collectOptTable markers t).map Mark.erased
  | none => rfl
  | some t => Table.collect_erased t
theorem collect_erasedJoins : ∀ js,
    collectJoins markers (erasedJoins js) = (collectJoins markers js).map Mark.erased
  | [] => rfl
  | ⟨_, t, c, _⟩ :: js => by
    rw [erasedJoins, collectJoins, collectJoins, List.map_append, List.map_append, Table.collect_erased t,
      collect_erasedOpt c, collect_erasedJoins js]
theorem collect_erasedUnions : ∀ us,
    collectUnions markers (erasedUnions us) = (collectUnions markers us).map Mark.erased
  | [] => rfl
  | ⟨_, s⟩ :: us => by
    rw [erasedUnions, collectUnions, collectUnions, List.map_append, Select.collect_erased s,
      collect_erasedUnions us]
theorem Select.collect_erased : ∀ s : Select, s.erased.collect markers = (s.collect markers).map Mark.erased
  | ⟨_, fs, t, js, c, gs, hv, os, l, o, us, _⟩ => by
    simp only [Select.erased, Select.collect, markers_facts, markers_paging, List.map_append, List.map_nil,
      collect_erasedFields fs, collect_erasedOptTable t, collect_erasedJoins js, collect_erasedOpt c,
      collect_erasedExprs gs, collect_erasedOpt hv, collect_erasedOrders os, collect_erasedOpt l,
      collect_erasedOpt o, collect_erasedUnions us]
end

theorem Table.collect_erasedTarget (t : Table) :
    t.erasedTarget.collect markers = (t.collect markers).map Mark.erased := by
  cases t with
  | named => rfl
  | derived s => exact s.collect_erased

theorem Expr.collect_erasedColumn (e : Expr) :
    e.erasedColumn.collect markers = (e.collect markers).map Mark.erased := by
  cases e with
  | ident => rfl
  | _ => exact Expr.collect_erased _

theorem collect_erasedColumns (es : List Expr) :
    collectExprs markers (es.map Expr.erasedColumn) = (collectExprs markers es).map Mark.erased := by
  induction es with
  | nil => rfl
  | cons e es ih =>
    rw [List.map_cons, collectExprs, collectExprs, List.map_append, e.collect_erasedColumn, ih]

theorem collect_erasedAssignments (as : List Assignment) :
    collectAssignments markers (as.map Assignment.erased) = (collectAssignments markers as).map Mark.erased := by
  induction as with
  | nil => rfl
  | cons a as ih =>
    rw [List.map_cons, Assignment.erased, collectAssignments, collectAssignments, List.map_append,
      List.map_append, a.target.collect_erased, a.value.collect_erased, ih]

theorem InsertSource.collect_erased (s : InsertSource) :
    s.erased.collect markers = (s.collect markers).map Mark.erased := by
  cases s with
  | values rows => exact collect_erasedExprs rows
  | select s => exact s.collect_erased

/-- **The markers of an erased query** are those of the query, by their ordinals. -/
theorem Query.collect_erased (q : Query) : q.erased.collect markers = (q.collect markers).map Mark.erased := by
  cases q with
  | select s => exact s.collect_erased
  | insert i =>
    simp only [Query.erased, Query.collect, Insert.collect, markers_facts, markers_returned, List.map_append,
      List.map_nil, i.table.collect_erasedTarget, collect_erasedColumns, i.source.collect_erased,
      collect_erasedFields]
  | update u =>
    simp only [Query.erased, Query.collect, Update.collect, markers_facts, markers_paging, List.map_append,
      List.map_nil, u.table.collect_erased, collect_erasedAssignments, collect_erasedOpt,
      collect_erasedOrders]
  | delete d =>
    simp only [Query.erased, Query.collect, Delete.collect, markers_facts, markers_paging, List.map_append,
      List.map_nil, d.table.collect_erased, collect_erasedOpt, collect_erasedOrders]

/-! ## The shape of an erased query -/

/-- What is asked of a resolved query so that its SQL is read as what it says: names can be quoted, aliases
are single segments, and no joined table could be taken for a path. -/
def Checks.written : Checks where
  ident i := Text.Leads i.value ∨ i.value = "*"
  target i := Text.Leads i.value
  literal := Literal.IsPlain
  call := Token.IsName
  compare op := op ≠ .contains
  label := Text.Single
  table joined name := Text.Leads name ∧ (joined = true → RelationPath.ofName? name = none)
  join conditional _ := conditional = true

/-- Selects that all have fields. -/
def Fielded (ss : List Select) : Prop := ∀ s ∈ ss, s.fields ≠ []

theorem fielded_append {ss ts : List Select} : Fielded (ss ++ ts) ↔ Fielded ss ∧ Fielded ts :=
  List.forall_mem_append

theorem LabelFormed.shaped_erased {label : Option String} (h : LabelFormed .written label) :
    LabelShaped .quotable label :=
  fun a ha => (h a ha).leads

mutual
theorem Expr.Formed.shaped_erased : ∀ e : Expr, e.Formed .written → Fielded e.selects →
    e.erased.Shaped .quotable
  | .ident _, h, _ => ⟨h, rfl⟩
  | .literal _, h, _ => h
  | .marker _, _, _ => trivial
  | .named _, _, _ => ⟨trivial, rfl⟩
  | .call _ _ args, h, hf => ⟨trivial, ExprsFormed.shaped_erased args h.2 hf⟩
  | .list items, h, hf => by
    refine ⟨?_, ExprsFormed.shaped_erased items h.2 hf⟩
    rw [erasedExprs_eq, List.length_map]
    exact h.1
  | .arith _ l r, h, hf => by
    obtain ⟨hfl, hfr⟩ := fielded_append.mp hf
    exact ⟨Expr.Formed.shaped_erased l h.1 hfl, Expr.Formed.shaped_erased r h.2 hfr⟩
  | .logic _ l r, h, hf => by
    obtain ⟨hfl, hfr⟩ := fielded_append.mp hf
    exact ⟨Expr.Formed.shaped_erased l h.1 hfl, Expr.Formed.shaped_erased r h.2 hfr⟩
  | .compare _ l r, ⟨_, hl, hno, hyes⟩, hf => by
    obtain ⟨hfl, hfr⟩ := fielded_append.mp hf
    exact ⟨Expr.Formed.shaped_erased l hl hfl, fun hm => Expr.Formed.shaped_erased r (hno hm) hfr,
      fun hm => ⟨Expr.FormedMember.member_erased r (hyes hm).1 hfr, r.precedence_erased ▸ (hyes hm).2⟩⟩
  | .unary .not e, h, hf => (Expr.Formed.shaped_erased e h hf :)
  | .unary .negate e, h, hf =>
    ⟨Expr.Formed.shaped_erased e h.1 hf, fun l hl => h.2 l (Expr.eq_literal_of_erased hl)⟩
  | .case o bs e, ⟨ho, hne, hbs, he⟩, hf => by
    rw [Expr.selects, fielded_append, fielded_append] at hf
    refine ⟨OptFormed.shaped_erased o ho hf.1.1, ?_, BranchesFormed.shaped_erased bs hbs hf.1.2,
      OptFormed.shaped_erased e he hf.2⟩
    match bs, hne with
    | ⟨_, _⟩ :: _, _ => exact List.cons_ne_nil _ _
  | .subquery s, h, hf => Select.Formed.shaped_erased s h hf
theorem Expr.FormedMember.member_erased : ∀ e : Expr, e.FormedMember .written → Fielded e.selects →
    e.erased.Member .quotable
  | .list items, ⟨hne, hone, h⟩, hf => by
    refine ⟨?_, ?_, ExprsFormed.shaped_erased items h hf⟩
    · rw [erasedExprs_eq]
      exact fun hnil => hne (List.map_eq_nil_iff.mp hnil)
    · intro e he
      match items, he with
      | [e₁], he =>
        cases he
        rw [e₁.isGroup_erased]
        exact hone e₁ rfl
  | .subquery s, h, hf => Select.Formed.shaped_erased s h hf
  | .arith _ l r, h, hf => by
    obtain ⟨hfl, hfr⟩ := fielded_append.mp hf
    exact ⟨Expr.FormedMember.member_erased l h.1 hfl, l.precedence_erased ▸ h.2.1,
      Expr.Formed.shaped_erased r h.2.2 hfr⟩
theorem ExprsFormed.shaped_erased : ∀ es, ExprsFormed .written es → Fielded (exprsSelects es) →
    ExprsShaped .quotable (erasedExprs es)
  | [], _, _ => trivial
  | e :: es, h, hf => by
    obtain ⟨hfe, hfes⟩ := fielded_append.mp hf
    exact ⟨Expr.Formed.shaped_erased e h.1 hfe, ExprsFormed.shaped_erased es h.2 hfes⟩
theorem OptFormed.shaped_erased : ∀ o, OptFormed .written o → Fielded (optSelects o) →
    OptShaped .quotable (erasedOpt o)
  | none, _, _ => trivial
  | some e, h, hf => Expr.Formed.shaped_erased e h hf
theorem BranchesFormed.shaped_erased : ∀ bs, BranchesFormed .written bs → Fielded (branchesSelects bs) →
    BranchesShaped .quotable (erasedBranches bs)
  | [], _, _ => trivial
  | ⟨c, r⟩ :: bs, h, hf => by
    rw [branchesSelects, fielded_append, fielded_append] at hf
    exact ⟨Expr.Formed.shaped_erased c h.1 hf.1.1, Expr.Formed.shaped_erased r h.2.1 hf.1.2,
      BranchesFormed.shaped_erased bs h.2.2 hf.2⟩
theorem FieldsFormed.shaped_erased : ∀ fs, FieldsFormed .written fs → Fielded (fieldsSelects fs) →
    FieldsShaped .quotable (erasedFields fs)
  | [], _, _ => trivial
  | ⟨e, _⟩ :: fs, h, hf => by
    obtain ⟨hfe, hffs⟩ := fielded_append.mp hf
    exact ⟨Expr.Formed.shaped_erased e h.1 hfe, h.2.1.shaped_erased,
      FieldsFormed.shaped_erased fs h.2.2 hffs⟩
theorem OrdersFormed.shaped_erased : ∀ os, OrdersFormed .written os → Fielded (ordersSelects os) →
    OrdersShaped .quotable (erasedOrders os)
  | [], _, _ => trivial
  | ⟨e, _⟩ :: os, h, hf => by
    obtain ⟨hfe, hfos⟩ := fielded_append.mp hf
    exact ⟨Expr.Formed.shaped_erased e h.1 hfe, OrdersFormed.shaped_erased os h.2 hfos⟩
theorem Table.Formed.shaped_erased {joined : Bool} : ∀ t : Table, t.Formed .written joined →
    Fielded t.selects → t.erased.Shaped .quotable
  | .named _ _, h, _ => ⟨h.1.1, h.2.shaped_erased⟩
  | .derived s _, h, hf => ⟨Select.Formed.shaped_erased s h.1 hf, h.2.shaped_erased⟩
theorem OptTableFormed.shaped_erased : ∀ t, OptTableFormed .written t → Fielded (optTableSelects t) →
    OptTableShaped .quotable (erasedOptTable t)
  | none, _, _ => trivial
  | some t, h, hf => Table.Formed.shaped_erased t h hf
theorem JoinsFormed.shaped_erased : ∀ js, JoinsFormed .written js → Fielded (joinsSelects js) →
    JoinsShaped .quotable (erasedJoins js)
  | [], _, _ => trivial
  | ⟨_, t, c, _⟩ :: js, ⟨ht, hc, hconditional, hjs⟩, hf => by
    rw [joinsSelects, fielded_append, fielded_append] at hf
    refine ⟨Table.Formed.shaped_erased t ht hf.1.1, OptFormed.shaped_erased c hc hf.1.2, ?_, ?_,
      JoinsFormed.shaped_erased js hjs hf.2⟩
    · -- no relation path is read from the table's name
      match t, ht with
      | .named _ _, ht => exact (ht.1.2 rfl).symm
      | .derived _ _, _ => rfl
    · match c, hconditional with
      | some _, _ => exact nofun
theorem UnionsFormed.shaped_erased : ∀ us, UnionsFormed .written us → Fielded (unionsSelects us) →
    UnionsShaped .quotable (erasedUnions us)
  | [], _, _ => trivial
  | ⟨_, s⟩ :: us, h, hf => by
    obtain ⟨hfs, hfus⟩ := fielded_append.mp hf
    exact ⟨Select.Formed.shaped_erased s h.1 hfs, Select.unions_erased h.2.1,
      UnionsFormed.shaped_erased us h.2.2 hfus⟩
theorem Select.Formed.shaped_erased : ∀ s : Select, s.Formed .written → Fielded s.selects →
    s.erased.Shaped .quotable
  | ⟨_, fs, t, js, c, gs, hv, os, l, o, us, _⟩, ⟨hfs, ht, hjs, hc, hgs, hhv, hos, hl, ho, hus, _⟩, hf => by
    simp only [Fielded, Select.selects, List.cons_append, List.forall_mem_cons, List.forall_mem_append] at hf
    obtain ⟨hown, ⟨⟨⟨⟨⟨⟨⟨⟨ffs, ft⟩, fjs⟩, fc⟩, fgs⟩, fhv⟩, fos⟩, fl⟩, fo⟩, fus⟩ := hf
    have hne : erasedFields fs ≠ [] := by
      intro hnil
      have hempty : fs.isEmpty = true := by
        rw [← isEmpty_erasedFields, hnil]
        rfl
      exact hown (List.isEmpty_iff.mp hempty)
    exact ⟨hne, FieldsFormed.shaped_erased fs hfs ffs, OptTableFormed.shaped_erased t ht ft,
      JoinsFormed.shaped_erased js hjs fjs, OptFormed.shaped_erased c hc fc,
      ExprsFormed.shaped_erased gs hgs fgs, OptFormed.shaped_erased hv hhv fhv,
      OrdersFormed.shaped_erased os hos fos, OptFormed.shaped_erased l hl fl,
      OptFormed.shaped_erased o ho fo, UnionsFormed.shaped_erased us hus fus, rfl⟩
end

/-- The columns that an insert names. -/
def Query.columns : Query → List Expr
  | .insert i => i.columns
  | _ => []

theorem fielded_of_mem {es : List Expr} {e : Expr} (he : e ∈ es) (hf : Fielded (exprsSelects es)) :
    Fielded e.selects := by
  induction es with
  | nil => cases he
  | cons e₁ es ih =>
    obtain ⟨hfe, hfes⟩ := fielded_append.mp hf
    rcases List.mem_cons.mp he with rfl | he
    · exact hfe
    · exact ih he hfes

theorem Expr.TargetFormed.shaped_erased {e : Expr} (h : e.TargetFormed .written) :
    e.erased.NameShaped .quotable := by
  obtain ⟨i, rfl, hi⟩ := h
  exact ⟨i.value, hi, rfl⟩

/-- The last segment of a column that is no wildcard can be quoted. -/
theorem Expr.TargetFormed.shaped_erasedColumn {e : Expr} (h : e.TargetFormed .written)
    (hcolumn : ∀ i, e = .ident i → i.isWildcard = false) : e.erasedColumn.NameShaped .quotable := by
  obtain ⟨i, rfl, -⟩ := h
  have hsingle : Text.Single i.name :=
    ⟨Text.plain_lastSegment i.value, Identifier.name_ne_star (hcolumn i rfl)⟩
  exact ⟨i.name, hsingle.leads, rfl⟩

theorem Expr.RowFormed.shaped_erased {e : Expr} (h : e.RowFormed .written) (hf : Fielded e.selects) :
    e.erased.RowShaped .quotable := by
  obtain ⟨items, rfl, hne, hitems⟩ := h
  refine ⟨erasedExprs items, rfl, ?_, ExprsFormed.shaped_erased items hitems hf⟩
  rw [erasedExprs_eq]
  exact fun hnil => hne (List.map_eq_nil_iff.mp hnil)

theorem InsertSource.Formed.shaped_erased {s : InsertSource} (h : s.Formed .written)
    (hf : Fielded s.selects) : s.erased.Shaped .quotable := by
  cases s with
  | values rows =>
    obtain ⟨hne, hrows⟩ := h
    refine ⟨?_, ?_⟩
    · rw [erasedExprs_eq]
      exact fun hnil => hne (List.map_eq_nil_iff.mp hnil)
    · rw [erasedExprs_eq]
      exact List.forall_mem_map.mpr fun r hr => (hrows r hr).shaped_erased (fielded_of_mem hr hf)
  | select s => exact Select.Formed.shaped_erased s h hf

/-- **An erased query has the shape of one that is read from a text.** -/
theorem Query.Formed.shaped_erased {q : Query} (h : q.Formed .written) (hf : Fielded q.selects)
    (hcolumns : ∀ i, .ident i ∈ q.columns → i.isWildcard = false) : q.erased.Shaped .quotable := by
  cases q with
  | select s => exact Select.Formed.shaped_erased s h hf
  | insert i =>
    simp only [Query.selects, fielded_append] at hf
    obtain ⟨⟨⟨ft, -⟩, fsource⟩, freturning⟩ := hf
    refine ⟨?_, ?_, h.source.shaped_erased fsource, FieldsFormed.shaped_erased _ h.returning freturning, rfl⟩
    · have htable := h.table
      cases ht : i.table with
      | named name a =>
        rw [ht] at htable
        exact ⟨htable.1.1, by rintro _ ⟨⟩⟩
      | derived s a =>
        rw [ht] at htable ft
        exact ⟨Select.Formed.shaped_erased s htable.1 ft, by rintro _ ⟨⟩⟩
    · refine List.forall_mem_map.mpr fun e he => (h.columns e he).shaped_erasedColumn ?_
      rintro x rfl
      exact hcolumns x he
  | update u =>
    simp only [Query.selects, fielded_append] at hf
    obtain ⟨⟨⟨⟨⟨ft, fas⟩, fc⟩, fos⟩, fl⟩, fo⟩ := hf
    refine ⟨Table.Formed.shaped_erased _ h.table ft, ?_, ?_, OptFormed.shaped_erased _ h.criteria fc,
      OrdersFormed.shaped_erased _ h.ordering fos, OptFormed.shaped_erased _ h.limit fl,
      OptFormed.shaped_erased _ h.offset fo, rfl⟩
    · exact fun hnil => h.nonempty (List.map_eq_nil_iff.mp hnil)
    · refine List.forall_mem_map.mpr fun a ha => ?_
      obtain ⟨htarget, hvalue⟩ := h.assignments a ha
      have hfv : Fielded a.value.selects :=
        fun s hs => fas s (List.mem_flatMap.mpr ⟨a, ha, List.mem_append_right _ hs⟩)
      exact ⟨htarget.shaped_erased, Expr.Formed.shaped_erased a.value hvalue hfv⟩
  | delete d =>
    simp only [Query.selects, fielded_append] at hf
    obtain ⟨⟨⟨⟨ft, fc⟩, fos⟩, fl⟩, fo⟩ := hf
    exact ⟨Table.Formed.shaped_erased _ h.table ft, OptFormed.shaped_erased _ h.criteria fc,
      OrdersFormed.shaped_erased _ h.ordering fos, OptFormed.shaped_erased _ h.limit fl,
      OptFormed.shaped_erased _ h.offset fo, rfl⟩

end EntitySql
