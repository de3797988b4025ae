import Mathlib
import EntitySql.Compiler
import EntitySql.Proofs.Gathering

/-!
# Placeholders and slots

The SQL of a query shows the placeholders of its markers in the order in which a dialect writes the
clauses. Two dialects keep the order of the text; the third writes an offset before the limit and
leaves out what an insert returns.

* `Rendering.ordinals_query`: the placeholders of the SQL are the ordinals that `written` gathers.
* `Compiler.ordinals_eq_range`: where the order is kept, the placeholders are numbered from zero, one
  for each slot.
* `Compiler.ordinals_eq_range_iff`: where it is not, this holds of the queries without a clash
  (`Query.Aligned`), and of no others.
-/

namespace EntitySql

open Outcome

/-! ## Placeholders of pieces -/

namespace Sql

@[simp] theorem ordinals_nil : ordinals [] = [] := rfl

@[simp] theorem ordinals_text (s : String) (ps : Sql) : ordinals (.text s :: ps) = ordinals ps := rfl

@[simp] theorem ordinals_placeholder (n : Nat) (ps : Sql) :
    ordinals (.placeholder n :: ps) = n :: ordinals ps := rfl

@[simp] theorem ordinals_append (s t : Sql) : ordinals (s ++ t) = ordinals s ++ ordinals t :=
  List.filterMap_append

@[simp] theorem ordinals_join (sep : String) : ∀ ss : List Sql,
    ordinals (join sep ss) = ss.flatMap ordinals
  | [] => rfl
  | [s] => by simp [join]
  | s :: t :: ss => by simp [join, ordinals_join sep (t :: ss)]

@[simp] theorem ordinals_enclosed (s : Sql) : ordinals (enclosed s) = ordinals s := by simp [enclosed]

@[simp] theorem ordinals_wrapIf (b : Bool) (s : Sql) : ordinals (wrapIf b s) = ordinals s := by
  cases b <;> simp [wrapIf]

end Sql

@[simp] theorem Dialect.ordinals_concat (d : Dialect) (parts : List Sql) :
    Sql.ordinals (d.concat parts) = parts.flatMap Sql.ordinals := by
  cases d <;> simp [Dialect.concat]

@[simp] theorem Dialect.ordinals_contains (d : Dialect) (l r : Sql) :
    Sql.ordinals (d.contains l r) = Sql.ordinals l ++ Sql.ordinals r := by
  simp [Dialect.contains, Sql.ofText]

/-! ## Placeholders of trees -/

/-- The ordinals of a tree, in the order in which a dialect writes them. -/
def written (d : Dialect) : Collector Nat where
  marker m := m.ordinal.toList
  paging limit offset := if d = .mysql then offset ++ limit else limit ++ offset
  returned fields := if d.supportsReturning then fields else []

@[simp] theorem written_facts (d : Dialect) (f : Facts) : (written d).facts f = [] := rfl

@[simp] theorem written_returned (d : Dialect) (ns : List Nat) :
    (written d).returned ns = if d.supportsReturning then ns else [] := rfl

namespace Rendering

variable {d : Dialect}

@[simp] theorem ordinals_label (keyword : String) (a : Option String) :
    Sql.ordinals (label d keyword a) = [] := by cases a <;> rfl

@[simp] theorem ordinals_minus (s : Sql) : Sql.ordinals (minus d s) = Sql.ordinals s := by
  unfold minus
  split <;> simp

@[simp] theorem ordinals_clause (keyword : String) (parts : List Sql) :
    Sql.ordinals (clause keyword parts) = parts.flatMap Sql.ordinals := by
  cases parts <;> simp [clause]

theorem ordinals_pagination (l o : Option Sql) : Sql.ordinals (d.pagination l o)
    = (written d).paging (l.toList.flatMap Sql.ordinals) (o.toList.flatMap Sql.ordinals) := by
  cases d <;> cases l <;> cases o <;> simp [Dialect.pagination, written]

mutual
theorem ordinals_expr : ∀ e : Expr, Gives (fun sql => Sql.ordinals sql = e.collect (written d)) (expr d e)
  | .ident _ | .literal _ => .pure rfl
  | .marker m => by
    rw [expr]
    split
    · next n hn => exact .pure (by simp [Expr.collect, written, hn])
    · exact .error
  | .named _ => .error
  | .call _ _ args => .bind (ordinals_exprs args) fun _ h => .pure (by simp [Expr.collect, h])
  | .list items => .bind (ordinals_exprs items) fun _ h => .pure (by simp [Expr.collect, h])
  | .arith op l r => .bind (ordinals_expr l) fun _ hl => .bind (ordinals_expr r) fun _ hr => by
    rw [Expr.collect, ← hl, ← hr]
    split <;> exact .pure (by simp)
  | .compare op l r => .bind (ordinals_expr l) fun _ hl => .bind (ordinals_expr r) fun _ hr => by
    rw [Expr.collect, ← hl, ← hr]
    split <;> exact .pure (by simp)
  | .logic _ l r => .bind (ordinals_expr l) fun _ hl => .bind (ordinals_expr r) fun _ hr =>
    .pure (by simp [Expr.collect, hl, hr])
  | .unary .not e | .unary .negate e => .bind (ordinals_expr e) fun _ h => .pure (by simp [Expr.collect, h])
  | .case o bs e => .bind (ordinals_optExpr o) fun _ ho => .bind (ordinals_branches bs) fun _ hbs =>
    .bind (ordinals_optExpr e) fun _ he => .pure (by simp [Expr.collect, ho, hbs, he])
  | .subquery s => .bind (ordinals_select s) fun _ h => .pure (by simp [Expr.collect, h])
theorem ordinals_exprs : ∀ es : List Expr,
    Gives (fun ss => ss.flatMap Sql.ordinals = collectExprs (written d) es) (exprs d es)
  | [] => .pure rfl
  | e :: es => .bind (ordinals_expr e) fun _ he => .bind (ordinals_exprs es) fun _ hes =>
    .pure (by simp [collectExprs, he, hes])
theorem ordinals_optExpr {keyword : String} : ∀ o : Option Expr,
    Gives (fun sql => Sql.ordinals sql = collectOpt (written d) o) (optExpr d keyword o)
  | none => .pure rfl
  | some e => .bind (ordinals_expr e) fun _ he => .pure (by simp [collectOpt, he])
theorem ordinals_count? : ∀ o : Option Expr,
    Gives (fun sql => sql.toList.flatMap Sql.ordinals = collectOpt (written d) o) (count? d o)
  | none => .pure rfl
  | some e => .bind (ordinals_expr e) fun _ he => .pure (by simp [collectOpt, he])
theorem ordinals_branches : ∀ bs : List Branch,
    Gives (fun sql => Sql.ordinals sql = collectBranches (written d) bs) (branches d bs)
  | [] => .pure rfl
  | ⟨c, r⟩ :: bs => .bind (ordinals_expr c) fun _ hc => .bind (ordinals_expr r) fun _ hr =>
    .bind (ordinals_branches bs) fun _ hbs => .pure (by simp [collectBranches, hc, hr, hbs])
theorem ordinals_fields : ∀ fs : List ResultField,
    Gives (fun ss => ss.flatMap Sql.ordinals = collectFields (written d) fs) (fields d fs)
  | [] => .pure rfl
  | ⟨e, _⟩ :: fs => .bind (ordinals_expr e) fun _ he => .bind (ordinals_fields fs) fun _ hfs =>
    .pure (by simp [collectFields, he, hfs])
theorem ordinals_orders : ∀ os : List OrderItem,
    Gives (fun ss => ss.flatMap Sql.ordinals = collectOrders (written d) os) (orders d os)
  | [] => .pure rfl
  | ⟨e, _⟩ :: os => .bind (ordinals_expr e) fun _ he => .bind (ordinals_orders os) fun _ hos =>
    .pure (by simp [collectOrders, he, hos])
theorem ordinals_table : ∀ t : Table, Gives (fun sql => Sql.ordinals sql = t.collect (written d)) (table d t)
  | .named _ _ => .pure (by simp [Table.collect])
  | .derived s _ => .bind (ordinals_select s) fun _ hs => .pure (by simp [Table.collect, hs])
theorem ordinals_optTable : ∀ t : Option Table,
    Gives (fun sql => Sql.ordinals sql = collectOptTable (written d) t) (optTable d t)
  | none => .pure rfl
  | some t => .bind (ordinals_table t) fun _ ht => .pure (by simp [collectOptTable, ht])
theorem ordinals_joins : ∀ js : List Join,
    Gives (fun sql => Sql.ordinals sql = collectJoins (written d) js) (joins d js)
  | [] => .pure rfl
  | ⟨_, _, none, _⟩ :: _ => .error
  | ⟨_, t, some c, _⟩ :: js => .bind (ordinals_table t) fun _ ht => .bind (ordinals_expr c) fun _ hc =>
    .bind (ordinals_joins js) fun _ hjs => .pure (by simp [collectJoins, collectOpt, ht, hc, hjs])
theorem ordinals_unions : ∀ us : List UnionPart,
    Gives (fun sql => Sql.ordinals sql = collectUnions (written d) us) (unions d us)
  | [] => .pure rfl
  | ⟨_, s⟩ :: us => .bind (ordinals_select s) fun _ hs => .bind (ordinals_unions us) fun _ hus =>
    .pure (by simp [collectUnions, hs, hus])
theorem ordinals_select : ∀ s : Select, Gives (fun sql => Sql.ordinals sql = s.collect (written d)) (select d s)
  | ⟨_, fs, t, js, c, gs, hv, os, l, o, us, f⟩ =>
    .bind (ordinals_fields fs) fun _ hfs => .bind (ordinals_optTable t) fun _ ht =>
    .bind (ordinals_joins js) fun _ hjs => .bind (ordinals_optExpr c) fun _ hc =>
    .bind (ordinals_exprs gs) fun _ hgs => .bind (ordinals_optExpr hv) fun _ hhv =>
    .bind (ordinals_orders os) fun _ hos => .bind (ordinals_count? l) fun _ hl =>
    .bind (ordinals_count? o) fun _ ho => .bind (ordinals_unions us) fun _ hus =>
    .pure (by simp [Select.collect, ordinals_pagination, hfs, ht, hjs, hc, hgs, hhv, hos, hl, ho, hus])
end

theorem ordinals_target (t : Table) : Gives (fun sql => Sql.ordinals sql = t.collect (written d)) (target d t) := by
  cases t with
  | named => exact .pure rfl
  | derived => exact .error

theorem ordinals_columns : ∀ es : List Expr,
    Gives (fun ss => ss.flatMap Sql.ordinals = collectExprs (written d) es) (columns d es)
  | [] => .pure rfl
  | e :: es => by
    refine .bind .any fun he _ => .bind (ordinals_columns es) fun _ hes => .pure ?_
    rw [List.flatMap_cons, hes, collectExprs]
    cases e <;> cases he
    rfl

theorem ordinals_rows : ∀ es : List Expr,
    Gives (fun ss => ss.flatMap Sql.ordinals = collectExprs (written d) es) (rows d es)
  | [] => .pure rfl
  | e :: es => by
    refine .bind .any fun he _ => .bind (ordinals_rows es) fun _ hes => .pure ?_
    rw [List.flatMap_cons, hes, collectExprs]
    cases e with
    | list items => rw [ordinals_expr (.list items) he]
    | _ => cases he

theorem ordinals_insertSource : ∀ s : InsertSource,
    Gives (fun sql => Sql.ordinals sql = s.collect (written d)) (insertSource d s)
  | .values rs => .bind (ordinals_rows rs) fun _ h => .pure (by simp [InsertSource.collect, h])
  | .select s => .bind (ordinals_select s) fun _ h => .pure (by simp [InsertSource.collect, h])

theorem ordinals_insert (i : Insert) : Gives (fun sql => Sql.ordinals sql = i.collect (written d)) (insert d i) := by
  refine .bind (ordinals_target _) fun _ ht => .bind (ordinals_columns _) fun {cs} _ hcs =>
    .bind (ordinals_insertSource _) fun _ hs => ?_
  have hcolumns : Sql.ordinals (if cs = [] then []
      else .text " " :: Sql.enclosed (Sql.join ", " cs)) = collectExprs (written d) i.columns := by
    rw [← hcs]
    cases cs <;> simp
  dsimp only
  split
  · next hd =>
    exact .bind (ordinals_fields _) fun _ hfs => .pure (by simp [Insert.collect, hd, hcolumns, ht, hs, hfs])
  · next hd => exact .pure (by simp [Insert.collect, hd, hcolumns, ht, hs])

theorem ordinals_assignments : ∀ as : List Assignment,
    Gives (fun ss => ss.flatMap Sql.ordinals = collectAssignments (written d) as) (assignments d as)
  | [] => .pure rfl
  | ⟨t, v⟩ :: as => .bind (ordinals_expr t) fun _ ht => .bind (ordinals_expr v) fun _ hv =>
    .bind (ordinals_assignments as) fun _ has => .pure (by simp [collectAssignments, ht, hv, has])

theorem ordinals_tail (os : List OrderItem) (l o : Option Expr) :
    Gives (fun sql => Sql.ordinals sql = collectOrders (written d) os
      ++ (written d).paging (collectOpt (written d) l) (collectOpt (written d) o)) (tail d os l o) :=
  .bind (ordinals_orders os) fun _ hos => .bind (ordinals_count? l) fun _ hl =>
    .bind (ordinals_count? o) fun _ ho => .pure (by simp [ordinals_pagination, hos, hl, ho])

/-- **The placeholders of the SQL are the ordinals of the query's markers**, in the order in which the
dialect writes them. -/
theorem ordinals_query : ∀ q : Query, Gives (fun sql => Sql.ordinals sql = q.collect (written d)) (query d q)
  | .select s => ordinals_select s
  | .insert i => ordinals_insert i
  | .update u => .bind (ordinals_assignments _) fun _ has => .bind (ordinals_table _) fun _ ht =>
    .bind (ordinals_optExpr _) fun _ hc => .bind (ordinals_tail _ _ _) fun _ htail =>
    .pure (by simp [Query.collect, Update.collect, ht, has, hc, htail])
  | .delete x => .bind (ordinals_table _) fun _ ht => .bind (ordinals_optExpr _) fun _ hc =>
    .bind (ordinals_tail _ _ _) fun _ htail => .pure (by simp [Query.collect, Delete.collect, ht, hc, htail])

end Rendering

/-! ## Numbers of a resolved query -/

theorem markers_steady {A : Entity → Bool} : markers.Steady A where
  source _ _ := rfl
  labels _ _ := rfl
  results _ _ := rfl
  paging _ _ := rfl
  returned _ := rfl

/-- The slots noted on a tree. -/
def slotLists : Collector (List Slot) where
  facts f := [f.slots]

theorem slotLists_steady {A : Entity → Bool} : slotLists.Steady A where
  source _ h := by
    obtain ⟨rfl, -⟩ := Facts.addSource_eq_ok h
    rfl
  labels _ _ := rfl
  results _ _ := rfl
  paging _ _ := rfl
  returned _ := rfl

theorem strangers_none (q : Query) : q.collect (strangers fun _ => true) = [] := by
  rw [Query.collect_related collect_strangers, List.flatMap_eq_nil_iff]
  intro f _
  simp [Facts.strangers]

/-- The slots of the query itself are left to the numbering. -/
theorem Query.Prepares.slots {n : Naming} {q p : Query} (h : Prepares n q p) :
    p.facts.slots = q.facts.slots := by
  have hslots := (h.grown (K := fun _ => True) slotLists_steady
    (fun _ _ _ _ _ _ _ _ _ _ _ => trivial) (fun _ _ => rfl) (strangers_none q)).2
  exact (List.cons.inj hslots).1

/-- The markers of filters are fresh. -/
theorem fresh_filters : Joins.FiltersGive (fun _ => true) (fun m => m.ordinal? = none) markers := by
  intro e _ name rel _ text _ x hx
  obtain ⟨ts, -, -, hts, -⟩ := Parse.run_eq_ok hx
  rw [(Expr.ofDetached_shaped hx hts fun t _ => Vocabulary.admits_all t).1]
  exact Token.marksFrom_fresh ts 0

/-- The markers of a resolved query are fresh ones that were numbered. -/
theorem Query.numbered_resolve {n : Naming} {q r : Query}
    (hfresh : ∀ m ∈ q.collect markers, m.ordinal? = none) (hslots : q.facts.slots = [])
    (h : q.resolve n = .ok r) : ∃ ms, (∀ m ∈ ms, m.ordinal? = none)
      ∧ Numbered (fun _ => True) ms (r.collect markers) [] r.facts.slots := by
  obtain ⟨p, hp, h⟩ := Query.resolve_eq_ok h
  have hgrown := (hp.grown markers_steady fresh_filters (fun _ _ => rfl) (strangers_none q)).1
  have hnum := Parameters.numbered_query (A := fun _ => True) trivial (fun _ _ => trivial) h
  rw [hp.slots, hslots] at hnum
  exact ⟨_, hgrown.forall_mem (fun _ h => h) hfresh, hnum⟩

/-- **Resolution numbers the markers of a query from zero**, one for each slot. -/
theorem Query.ordinals_resolve {n : Naming} {q r : Query}
    (hfresh : ∀ m ∈ q.collect markers, m.ordinal? = none) (hslots : q.facts.slots = [])
    (h : q.resolve n = .ok r) :
    (r.collect markers).filterMap Mark.ordinal? = List.range r.facts.slots.length := by
  obtain ⟨ms, hms, hnum⟩ := numbered_resolve hfresh hslots h
  obtain ⟨new, hnew, -, hordinals⟩ := hnum.fresh hms
  rw [hnew, hordinals, List.nil_append, List.length_nil, List.range_eq_range']

/-! ## Where the order of the text is kept -/

/-- A dialect that writes all clauses in the order of the text. -/
def Dialect.KeepsOrder (d : Dialect) : Prop := d = .generic ∨ d = .postgres

theorem written_eq {d : Dialect} (hd : d.KeepsOrder) (q : Query) :
    q.collect (written d) = (q.collect markers).filterMap Mark.ordinal? := by
  refine Query.collect_related (R := fun ms ns => ns = ms.filterMap Mark.ordinal?) (k := markers) ?_ q
  constructor
  case nil => rfl
  case append => rintro _ _ _ _ rfl rfl; rw [List.filterMap_append]
  case marker =>
    rintro ⟨_, _, _, _, _, ordinal⟩
    cases ordinal <;> rfl
  case named => intro _; rfl
  case facts => intro _; rfl
  case paging =>
    rintro _ _ _ _ rfl rfl
    rcases hd with rfl | rfl <;> simp [written]
  case returned =>
    rintro _ _ rfl
    rcases hd with rfl | rfl <;> rfl

namespace Compiler

/-- The SQL of a compiled query, in pieces, and the resolved query that it was written from. -/
structure Writes (c : Compiler) (q r : Query) (sql : Sql) (a : Artifact) : Prop where
  resolved : q.resolve c.naming = .ok r
  pieces : Rendering.query c.dialect r = .ok sql
  text : a.sql = c.dialect.spell sql
  slots : a.slots = r.facts.slots

theorem compile_writes {c : Compiler} {q : Query} {a : Artifact} (h : c.compile q = .ok a) :
    ∃ r sql, c.Writes q r sql a := by
  unfold compile trace at h
  cases hr : q.resolve c.naming with
  | error e => rw [hr] at h; cases h
  | ok r =>
    rw [hr] at h
    simp only [finish, Query.render] at h
    cases hsql : Rendering.query c.dialect r with
    | error e => rw [hsql] at h; cases h
    | ok sql =>
      rw [hsql] at h
      cases h
      exact ⟨r, sql, hr, hsql, rfl, rfl⟩

/-- **Placeholders and slots agree** where a dialect keeps the order of the text: the placeholders of
the SQL, from left to right, are those of the slots in their order. -/
theorem ordinals_eq_range {c : Compiler} {q : Query} {a : Artifact} (hd : c.dialect.KeepsOrder)
    (hfresh : ∀ m ∈ q.collect markers, m.ordinal? = none) (hslots : q.facts.slots = [])
    (h : c.compile q = .ok a) :
    ∃ r sql, c.Writes q r sql a ∧ sql.ordinals = List.range a.slots.length
      ∧ (c.dialect = .postgres → sql.ordinals.map c.dialect.placeholder
        = (List.range a.slots.length).map fun i => "$" ++ toString (i + 1)) := by
  obtain ⟨r, sql, hw⟩ := compile_writes h
  have hordinals : sql.ordinals = List.range a.slots.length := by
    rw [Rendering.ordinals_query _ hw.pieces, written_eq hd, hw.slots]
    exact Query.ordinals_resolve hfresh hslots hw.resolved
  refine ⟨r, sql, hw, hordinals, fun hpg => ?_⟩
  rw [hordinals, hpg]
  rfl

theorem ordinals_eq_range_delete :
    ∃ r sql, Writes ⟨{}, .postgres, {}⟩
        (.delete { table := .named "t" none
                   criteria := some (.compare .eq (.name "id") (.marker { position := some 0 }))
                   limit := some (.named { name := "n" }) }) r sql
        { sql := "DELETE FROM \"t\" WHERE \"id\" = $1 LIMIT $2"
          slots := [.required (.position 0) none, .required (.name "n") none] }
      ∧ sql.ordinals = List.range 2
      ∧ (Dialect.postgres = .postgres → sql.ordinals.map Dialect.postgres.placeholder
        = (List.range 2).map fun i => "$" ++ toString (i + 1)) :=
  ordinals_eq_range (.inr rfl) (by decide) rfl (by decide +kernel)

end Compiler

/-! ## Where it is not -/

/-- An entry in the list of a query's placeholders, in the order of the text. -/
inductive Entry where
  | ordinal (n : Nat)
  /-- A place where the order of the text is not kept. -/
  | clash
  deriving DecidableEq

def Entry.ordinal? : Entry → Option Nat
  | ordinal n => some n
  | clash => none

/-- The placeholders of a list of entries. -/
def Entry.ordinals (es : List Entry) : List Nat := es.filterMap ordinal?

/-- The entries of a tree. There is a clash where both a limit and an offset hold placeholders, and
where a returned field holds one. -/
def alignment : Collector Entry where
  marker m := m.ordinal.toList.map .ordinal
  paging limit offset :=
    limit ++ offset
      ++ if Entry.ordinals limit = [] ∨ Entry.ordinals offset = [] then [] else [.clash]
  returned fields := fields ++ if Entry.ordinals fields = [] then [] else [.clash]

/-- The query has no clash. -/
def Query.Aligned (q : Query) : Prop := .clash ∉ q.collect alignment

instance (q : Query) : Decidable q.Aligned := inferInstanceAs (Decidable (_ ∉ _))

namespace Entry

@[simp] theorem ordinals_append (es fs : List Entry) : ordinals (es ++ fs) = ordinals es ++ ordinals fs :=
  List.filterMap_append

theorem ordinals_flag (p : Prop) [Decidable p] : ordinals (if p then [] else [.clash]) = [] := by
  split <;> rfl

theorem not_mem_flag {p : Prop} [Decidable p] : clash ∉ (if p then [] else [clash]) ↔ p := by
  split <;> simp_all

end Entry

/-- Apart from clashes, the entries are the ordinals of the markers. -/
theorem ordinals_alignment (q : Query) :
    Entry.ordinals (q.collect alignment) = (q.collect markers).filterMap Mark.ordinal? := by
  refine Query.collect_related (R := fun ms es => Entry.ordinals es = ms.filterMap Mark.ordinal?)
    (k := markers) ?_ q
  constructor
  case nil => rfl
  case append =>
    intro _ _ _ _ h g
    rw [Entry.ordinals_append, List.filterMap_append, h, g]
  case marker =>
    rintro ⟨_, _, _, _, _, ordinal⟩
    cases ordinal <;> rfl
  case named => intro _; rfl
  case facts => intro _; rfl
  case paging =>
    intro _ _ _ _ h g
    simp only [alignment, Entry.ordinals_append, Entry.ordinals_flag, List.append_nil, markers_paging,
      List.filterMap_append, h, g]
  case returned =>
    intro _ _ h
    simp only [alignment, Entry.ordinals_append, Entry.ordinals_flag, List.append_nil,
      markers_returned, h]

/-- The placeholders `ns` are written for the entries `es`: no others, none twice, and in the order of
the entries exactly where these have no clash. -/
structure Entry.Spell (es : List Entry) (ns : List Nat) : Prop where
  subperm : ns.Subperm (ordinals es)
  ordered : (ordinals es).Nodup → (ns = ordinals es ↔ .clash ∉ es)

namespace Entry.Spell

variable {es fs : List Entry} {ns ms : List Nat}

theorem append (h : Spell es ns) (g : Spell fs ms) : Spell (es ++ fs) (ns ++ ms) where
  subperm := by
    rw [ordinals_append]
    exact h.subperm.append g.subperm
  ordered := by
    rw [ordinals_append]
    intro hnd
    have hes := h.ordered hnd.of_append_left
    have hfs := g.ordered hnd.of_append_right
    rw [List.mem_append, not_or, ← hes, ← hfs]
    constructor
    · intro heq
      -- neither side can be longer than what it is written for, so both have its length
      have hlen := congrArg List.length heq
      have h₁ := h.subperm.length_le
      have h₂ := g.subperm.length_le
      simp only [List.length_append] at hlen
      exact List.append_inj heq (by omega)
    · rintro ⟨rfl, rfl⟩
      rfl

theorem paging (h : Spell es ns) (g : Spell fs ms) :
    Spell (alignment.paging es fs) ((written .mysql).paging ns ms) where
  subperm := by
    simp only [alignment, written, if_pos, ordinals_append, ordinals_flag, List.append_nil]
    exact (g.subperm.append h.subperm).trans List.perm_append_comm.subperm
  ordered := by
    simp only [alignment, written, if_pos, ordinals_append, ordinals_flag, List.append_nil,
      List.mem_append, not_or, not_mem_flag]
    intro hnd
    have hes := h.ordered hnd.of_append_left
    have hfs := g.ordered hnd.of_append_right
    rw [← hes, ← hfs]
    constructor
    · intro heq
      have hlen := congrArg List.length heq
      have h₁ := h.subperm.length_le
      have h₂ := g.subperm.length_le
      simp only [List.length_append] at hlen
      have hempty : ordinals es = [] ∨ ordinals fs = [] := by
        by_contra hne
        simp only [not_or] at hne
        obtain ⟨n, ns', hn⟩ := List.exists_cons_of_ne_nil hne.1
        cases ms with
        | nil =>
          have := List.length_pos_iff.mpr hne.2
          simp only [List.length_nil] at hlen h₂
          omega
        | cons m ms =>
          -- the first placeholder of the offset would be one of the limit
          rw [hn, List.cons_append, List.cons_append] at heq
          obtain ⟨rfl, -⟩ := List.cons.inj heq
          have hm : m ∈ ordinals fs := g.subperm.subset List.mem_cons_self
          have hm' : m ∈ ordinals es := by rw [hn]; exact List.mem_cons_self
          exact List.disjoint_of_nodup_append hnd hm' hm
      rcases hempty with he | he
      · rw [he, List.nil_append] at heq
        have hns : ns = [] := List.subperm_nil.mp (he ▸ h.subperm)
        rw [hns, List.append_nil] at heq
        exact ⟨⟨hns.trans he.symm, heq⟩, .inl he⟩
      · rw [he, List.append_nil] at heq
        have hms : ms = [] := List.subperm_nil.mp (he ▸ g.subperm)
        rw [hms, List.nil_append] at heq
        exact ⟨⟨heq, hms.trans he.symm⟩, .inr he⟩
    · rintro ⟨⟨rfl, rfl⟩, he | he⟩ <;> simp [he]

theorem returned (h : Spell es ns) :
    Spell (alignment.returned es) ((written .mysql).returned ns) where
  subperm := List.nil_subperm
  ordered := by
    simp only [alignment, written_returned, Dialect.supportsReturning, Bool.false_eq_true, if_false,
      ordinals_append, ordinals_flag, List.append_nil, List.mem_append, not_or, not_mem_flag]
    intro hnd
    constructor
    · intro he
      have hns : ns = [] := List.subperm_nil.mp (he ▸ h.subperm)
      exact ⟨(h.ordered hnd).mp (hns.trans he), he.symm⟩
    · rintro ⟨-, he⟩
      exact he.symm

end Entry.Spell

theorem spell_alignment (q : Query) : Entry.Spell (q.collect alignment) (q.collect (written .mysql)) := by
  refine Query.collect_related ?_ q
  have hsilent : Entry.Spell [] [] := ⟨List.nil_subperm, by simp [Entry.ordinals]⟩
  constructor
  case nil => exact hsilent
  case append => exact fun h g => h.append g
  case marker =>
    rintro ⟨_, _, _, _, _, ordinal⟩
    cases ordinal with
    | none => exact hsilent
    | some n => exact ⟨List.Subperm.refl _, by simp [Entry.ordinals, Entry.ordinal?, written, alignment]⟩
  case named => exact fun _ => hsilent
  case facts => exact fun _ => hsilent
  case paging => exact fun h g => h.paging g
  case returned => exact fun h => h.returned

namespace Compiler

theorem compileText_eq (c : Compiler) (text : String) :
    c.compileText text = ParseError.lift (Query.ofText text) >>= c.compile := by
  rw [compileText, traceText]
  cases Query.ofText text <;> rfl

theorem compileText_eq_ok {c : Compiler} {text : String} {a : Artifact} (h : c.compileText text = .ok a) :
    ∃ q, Query.ofText text = .ok q ∧ c.compile q = .ok a := by
  rw [compileText_eq, Outcome.bind_eq_ok] at h
  simpa only [Joins.lift_parse_eq_ok] using h

/-- The markers of a query read from a text are fresh, and there are no slots. -/
theorem fresh_ofText {text : String} {q : Query} (h : Query.ofText text = .ok q) :
    (∀ m ∈ q.collect markers, m.ordinal? = none) ∧ q.facts.slots = [] := by
  obtain ⟨ts, -, -, hts, -⟩ := Parse.run_eq_ok h
  obtain ⟨hmarks, hshaped⟩ := Query.ofText_shaped h hts fun t _ => Vocabulary.admits_all t
  refine ⟨by rw [hmarks]; exact Token.marksFrom_fresh ts 0, ?_⟩
  rw [hshaped.facts_eq]

/-- **Placeholders and slots agree on aligned queries only** where a dialect writes the offset before
the limit and leaves out what an insert returns. -/
theorem ordinals_eq_range_iff {c : Compiler} {text : String} {a : Artifact} (hd : c.dialect = .mysql)
    (h : c.compileText text = .ok a) :
    ∃ q r sql, Query.ofText text = .ok q ∧ c.Writes q r sql a
      ∧ (sql.ordinals = List.range a.slots.length ↔ r.Aligned) := by
  obtain ⟨q, hq, h⟩ := compileText_eq_ok h
  obtain ⟨r, sql, hw⟩ := compile_writes h
  obtain ⟨hfresh, hslots⟩ := fresh_ofText hq
  refine ⟨q, r, sql, hq, hw, ?_⟩
  have hrange : Entry.ordinals (r.collect alignment) = List.range a.slots.length := by
    rw [ordinals_alignment, hw.slots]
    exact Query.ordinals_resolve hfresh hslots hw.resolved
  have hpieces := hw.pieces
  rw [hd] at hpieces
  rw [Rendering.ordinals_query _ hpieces, ← hrange]
  exact (spell_alignment r).ordered (hrange ▸ List.nodup_range)

theorem ordinals_eq_range_iff_limit_offset :
    ∃ q r sql, Query.ofText "SELECT id FROM t LIMIT ? OFFSET ?" = .ok q
      ∧ Writes ⟨{}, .mysql, {}⟩ q r sql
        { sql := "SELECT \x60id\x60 FROM \x60t\x60 LIMIT ?, ?"
          slots := [.required (.position 0) none, .required (.position 1) none]
          results := [("id", ⟨"id", none, true, none⟩)] }
      ∧ (sql.ordinals = List.range 2 ↔ r.Aligned) :=
  ordinals_eq_range_iff rfl (by decide +kernel)

/-- The placeholders of a compiled text, and whether the resolved query is aligned. -/
def placeholders? (c : Compiler) (text : String) : Option (List Nat × Bool) := do
  let q ← (Query.ofText text).toOption
  let r ← (q.resolve c.naming).toOption
  let sql ← (Rendering.query c.dialect r).toOption
  return (sql.ordinals, decide r.Aligned)

/-- A limit and an offset change places: the first placeholder is that of the second slot. -/
theorem placeholders_limit_offset :
    placeholders? ⟨{}, .mysql, {}⟩ "SELECT id FROM t LIMIT ? OFFSET ?" = some ([1, 0], false) := by
  decide +kernel

end Compiler

end EntitySql
