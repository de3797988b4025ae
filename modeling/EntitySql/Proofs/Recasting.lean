import Mathlib
import EntitySql.Proofs.Completion
import EntitySql.Proofs.Lexing
import EntitySql.Typing

/-!
# Other markers and literals in a query

A `Recast` puts other markers in the place of a query's markers and other literals in the place of those
it was given, here and in all selects inside it. Everything else stays: names, tables, operators, and what
else is noted of a query. So nothing changes for whoever looks at these only, such as the look-up of names
and, where markers keep their types, the typing of expressions.

* `Query.recast_eq_self`: a recast that keeps each marker and all literals of a query keeps the query.
* `Expr.typed?_recast`: types stay.
-/

namespace EntitySql

/-- The expression that a marker is. -/
def Mark.expr : Mark → Expr
  | anonymous m => .marker m
  | named m => .named m

/-- What is put in the place of markers and literals. -/
structure Recast where
  mark : Mark → Mark := id
  literals : Option Bindings → Option Bindings := id

variable (σ : Recast)

def Facts.recast (f : Facts) : Facts := { f with literals := σ.literals f.literals }

mutual
def Expr.recast : Expr → Expr
  | .ident i => .ident i
  | .literal l => .literal l
  | .marker m => (σ.mark (.anonymous m)).expr
  | .named m => (σ.mark (.named m)).expr
  | .call name distinct args => .call name distinct (recastExprs args)
  | .list items => .list (recastExprs items)
  | .arith op l r => .arith op l.recast r.recast
  | .compare op l r => .compare op l.recast r.recast
  | .logic op l r => .logic op l.recast r.recast
  | .unary op e => .unary op e.recast
  | .case operand bs otherwise => .case (recastOpt operand) (recastBranches bs) (recastOpt otherwise)
  | .subquery s => .subquery s.recast
def recastExprs : List Expr → List Expr
  | [] => []
  | e :: es => e.recast :: recastExprs es
def recastOpt : Option Expr → Option Expr
  | none => none
  | some e => some e.recast
def recastBranches : List Branch → List Branch
  | [] => []
  | ⟨c, r⟩ :: bs => ⟨c.recast, r.recast⟩ :: recastBranches bs
def recastFields : List ResultField → List ResultField
  | [] => []
  | ⟨e, a⟩ :: fs => ⟨e.recast, a⟩ :: recastFields fs
def recastOrders : List OrderItem → List OrderItem
  | [] => []
  | ⟨e, ascending⟩ :: os => ⟨e.recast, ascending⟩ :: recastOrders os
def Table.recast : Table → Table
  | .named name a => .named name a
  | .derived s a => .derived s.recast a
def recastOptTable : Option Table → Option Table
  | none => none
  | some t => some t.recast
def recastJoins : List Join → List Join
  | [] => []
  | ⟨kind, t, condition, path⟩ :: js => ⟨kind, t.recast, recastOpt condition, path⟩ :: recastJoins js
def recastUnions : List UnionPart → List UnionPart
  | [] => []
  | ⟨all, s⟩ :: us => ⟨all, s.recast⟩ :: recastUnions us
def Select.recast : Select → Select
  | ⟨distinct, fields, source, joins, criteria, grouping, having, ordering, limit, offset, unions, facts⟩ =>
    ⟨distinct, recastFields fields, recastOptTable source, recastJoins joins, recastOpt criteria,
      recastExprs grouping, recastOpt having, recastOrders ordering, recastOpt limit, recastOpt offset,
      recastUnions unions, facts.recast σ⟩
end

def recastAssignments : List Assignment → List Assignment
  | [] => []
  | ⟨t, v⟩ :: as => ⟨t.recast σ, v.recast σ⟩ :: recastAssignments as

def InsertSource.recast : InsertSource → InsertSource
  | .values rows => .values (recastExprs σ rows)
  | .select s => .select (s.recast σ)

def Insert.recast (i : Insert) : Insert :=
  ⟨i.table.recast σ, recastExprs σ i.columns, i.source.recast σ, recastFields σ i.returning, i.facts.recast σ⟩

def Update.recast (u : Update) : Update :=
  ⟨u.table.recast σ, recastAssignments σ u.assignments, recastOpt σ u.criteria, recastOrders σ u.ordering,
    recastOpt σ u.limit, recastOpt σ u.offset, u.facts.recast σ⟩

def Delete.recast (d : Delete) : Delete :=
  ⟨d.table.recast σ, recastOpt σ d.criteria, recastOrders σ d.ordering, recastOpt σ d.limit,
    recastOpt σ d.offset, d.facts.recast σ⟩

/-- The query with other markers and literals. -/
def Query.recast : Query → Query
  | .select s => .select (s.recast σ)
  | .insert i => .insert (i.recast σ)
  | .update u => .update (u.recast σ)
  | .delete d => .delete (d.recast σ)

/-! ## What is recast -/

/-- What a recast replaces. -/
inductive Given where
  | mark (m : Mark)
  | literals (b : Option Bindings)

/-- The markers and literals of a tree. -/
def givens : Collector Given where
  marker m := [.mark (.anonymous m)]
  named m := [.mark (.named m)]
  facts f := [.literals f.literals]

@[simp] theorem givens_paging (l o : List Given) : givens.paging l o = l ++ o := rfl

@[simp] theorem givens_returned (fs : List Given) : givens.returned fs = fs := rfl

theorem givens_steady {A : Entity → Bool} : givens.Steady A where
  source _ h := by
    obtain ⟨rfl, -⟩ := Facts.addSource_eq_ok h
    rfl
  labels _ _ := rfl
  results _ _ := rfl
  paging _ _ := rfl
  returned _ := rfl

/-- What is given in a query that was read from a text: each `?` has its number, each name is a name, and
there are no literals. -/
def Given.Fresh : Given → Prop
  | .mark (.anonymous m) => ∃ i, m = { position := some i }
  | .mark (.named m) => m = { name := m.name }
  | .literals b => b = none

/-- What is given in a text that is spliced into another query: it has no `?`. -/
def Given.Spliced : Given → Prop
  | .mark (.anonymous _) => False
  | g => g.Fresh

theorem Given.fresh_of_spliced {g : Given} (h : g.Spliced) : g.Fresh := by
  match g with
  | .mark (.anonymous m) => exact h.elim
  | .mark (.named m) => exact h
  | .literals b => exact h

def Given.mark? : Given → Option Mark
  | .mark m => some m
  | .literals _ => none

def Given.literals? : Given → Option (Option Bindings)
  | .mark _ => none
  | .literals b => some b

theorem marks_givens : givens.Related (fun gs ms => gs.filterMap Given.mark? = ms) markers where
  nil := rfl
  append h g := by rw [List.filterMap_append, h, g]
  marker _ := rfl
  named _ := rfl
  facts _ := rfl
  paging h g := (List.filterMap_append ..).trans (congrArg₂ _ h g)
  returned h := h

theorem literals_givens :
    givens.Related (fun gs fs => gs.filterMap Given.literals? = fs.map Facts.literals) scopes where
  nil := rfl
  append h g := by rw [List.filterMap_append, h, g, List.map_append]
  marker _ := rfl
  named _ := rfl
  facts _ := rfl
  paging h g := by
    rw [scopes_paging, List.map_append, ← h, ← g]
    exact List.filterMap_append ..
  returned h := h

/-- What holds of the markers of a tree and of the literals in its facts holds of all that is given. -/
theorem Given.forall_mem {P : Given → Prop} {gs : List Given} {ms : List Mark} {fs : List Facts}
    (hms : gs.filterMap Given.mark? = ms) (hfs : gs.filterMap Given.literals? = fs.map Facts.literals)
    (hmark : ∀ m ∈ ms, P (.mark m)) (hliterals : ∀ f ∈ fs, P (.literals f.literals)) : ∀ g ∈ gs, P g := by
  intro g hg
  cases g with
  | mark m => exact hmark m (hms ▸ List.mem_filterMap.mpr ⟨_, hg, rfl⟩)
  | literals b =>
    have hb : b ∈ gs.filterMap Given.literals? := List.mem_filterMap.mpr ⟨_, hg, rfl⟩
    rw [hfs] at hb
    obtain ⟨f, hf, rfl⟩ := List.mem_map.mp hb
    exact hliterals f hf

theorem Token.fresh_marksFrom : ∀ (ts : List Token) (n : Nat), ∀ m ∈ marksFrom n ts, (Given.mark m).Fresh
  | [], _ => nofun
  | t :: ts, n => by
    rw [marksFrom]
    split
    · split
      · exact List.forall_mem_cons.mpr ⟨rfl, fresh_marksFrom ts n⟩
      · exact List.forall_mem_cons.mpr ⟨⟨n, rfl⟩, fresh_marksFrom ts (n + 1)⟩
    · exact fresh_marksFrom ts n

theorem Token.spliced_marksFrom {ts : List Token}
    (h : ∀ t ∈ ts, t.kind = .parameter → ∃ name, t.text.toList = ':' :: name) (n : Nat) :
    ∀ m ∈ marksFrom n ts, (Given.mark m).Spliced := by
  induction ts with
  | nil => nofun
  | cons t ts ih =>
    obtain ⟨ht, hts⟩ := List.forall_mem_cons.mp h
    rw [marksFrom]
    split
    · next hkind =>
      obtain ⟨name, hname⟩ := ht hkind
      rw [hname]
      exact List.forall_mem_cons.mpr ⟨rfl, ih hts⟩
    · exact ih hts

/-- **A query that was read is fresh.** -/
theorem Query.fresh_givens {text : String} {q : Query} (h : Query.ofText text = .ok q) :
    ∀ g ∈ q.collect givens, g.Fresh := by
  obtain ⟨ts, -, -, hts, -⟩ := Parse.run_eq_ok h
  obtain ⟨hmarks, hshaped⟩ := Query.ofText_shaped h hts fun t _ => Vocabulary.admits_all t
  refine Given.forall_mem (Query.collect_related marks_givens q) (Query.collect_related literals_givens q)
    ?_ fun f hf => ?_
  · rw [hmarks]
    exact Token.fresh_marksFrom ts 0
  · rw [hshaped.covers.facts f hf]
    rfl

theorem Query.facts_ofText {text : String} {q : Query} (h : Query.ofText text = .ok q) : q.facts = {} := by
  obtain ⟨ts, -, -, hts, -⟩ := Parse.run_eq_ok h
  exact (Query.ofText_shaped h hts fun t _ => Vocabulary.admits_all t).2.facts_eq

/-- A text that is spliced into another query has names after its colons and no `?`. -/
theorem Parse.named_of_detached {α : Type} {p : Rules → Parse α} {text : String} {ts : List Token} {a : α}
    (h : Parse.detached p text = .ok a) (hts : Token.scan text = .ok ts) :
    ∀ t ∈ ts, t.kind = .parameter → ∃ name, t.text.toList = ':' :: name := by
  intro t ht hkind
  obtain ⟨ts', c, d, hts', hafter, -, -, hrun⟩ := Parse.run_eq_ok h
  obtain rfl : ts = ts' := Except.ok.inj (hts.symm.trans hts')
  obtain ⟨_, _, hreject, -⟩ := Outcome.read_bind_eq_ok.mp hrun
  unfold Parse.rejectPositional at hreject
  split at hreject
  · cases hreject
  · next hnone =>
    have hmem : t ∈ c.tokens := by
      rw [Cursor.tokens, hafter]
      exact List.mem_append_right _ (List.mem_filter.mpr ⟨ht, by simp [hkind]⟩)
    have hno : t.text ≠ "?" := by simpa [hkind] using List.find?_eq_none.mp hnone t hmem
    obtain ⟨name, hname, -⟩ := (Token.parameter_of_mem_scan hts ht hkind).resolve_left hno
    exact ⟨name, hname⟩

/-- What is spliced into another query has names for markers and no literals. -/
theorem Parse.spliced_of_detached {α : Type} {p : Rules → Parse α} {shape : α → Prop} {part : α → Expr}
    {text : String} {a : α} (hp : ∀ n, Parse.Builds .all (p (Rules.upTo n)) (fun a => (part a).collect markers) shape)
    (hshape : ∀ a, shape a → (part a).Shaped .all) (h : Parse.detached p text = .ok a) :
    ∀ g ∈ (part a).collect givens, g.Spliced := by
  obtain ⟨ts, -, -, hts, -⟩ := Parse.run_eq_ok h
  obtain ⟨hmarks, hshaped⟩ := Parse.Builds.detached hp h hts fun t _ => Vocabulary.admits_all t
  refine Given.forall_mem (Expr.collect_related marks_givens _) (Expr.collect_related literals_givens _)
    ?_ fun f hf => ?_
  · rw [hmarks]
    exact Token.spliced_marksFrom (Parse.named_of_detached h hts) 0
  · rw [(Expr.Shaped.covers _ (hshape a hshaped)).facts f hf]
    rfl

theorem Expr.spliced_givens {text : String} {e : Expr} (h : Expr.ofDetached text = .ok e) :
    ∀ g ∈ e.collect givens, g.Spliced :=
  Parse.spliced_of_detached (fun n => Grammar.builds_expr (Rules.sound_upTo n)) (fun _ he => he) h

/-- What is given stays as it is. -/
def Recast.Keeps : Given → Prop
  | .mark m => σ.mark m = m
  | .literals b => σ.literals b = b

/-- A recast that keeps whatever is given in a list of contributions. -/
def Recast.KeepsAll (gs : List Given) : Prop := ∀ g ∈ gs, σ.Keeps g

variable {σ}

theorem Recast.keepsAll_append {gs hs : List Given} :
    σ.KeepsAll (gs ++ hs) ↔ σ.KeepsAll gs ∧ σ.KeepsAll hs := List.forall_mem_append

theorem Facts.recast_eq_self {f : Facts} (h : σ.KeepsAll (givens.facts f)) : f.recast σ = f := by
  have hl : σ.literals f.literals = f.literals := h _ (List.mem_singleton_self _)
  rw [Facts.recast, hl]

mutual
theorem Expr.recast_eq_self : ∀ e : Expr, σ.KeepsAll (e.collect givens) → e.recast σ = e
  | .ident _, _ | .literal _, _ => rfl
  | .marker m, h => by
    have hm : σ.mark (.anonymous m) = .anonymous m := h _ (List.mem_singleton_self _)
    rw [Expr.recast, hm, Mark.expr]
  | .named m, h => by
    have hm : σ.mark (.named m) = .named m := h _ (List.mem_singleton_self _)
    rw [Expr.recast, hm, Mark.expr]
  | .call _ _ args, h => by rw [Expr.recast, recastExprs_eq_self args h]
  | .list items, h => by rw [Expr.recast, recastExprs_eq_self items h]
  | .arith _ l r, h | .compare _ l r, h | .logic _ l r, h => by
    obtain ⟨hl, hr⟩ := Recast.keepsAll_append.mp h
    rw [Expr.recast, Expr.recast_eq_self l hl, Expr.recast_eq_self r hr]
  | .unary _ e, h => by
    rw [Expr.collect] at h
    rw [Expr.recast, Expr.recast_eq_self e h]
  | .case o bs e, h => by
    simp only [Expr.collect, Recast.keepsAll_append] at h
    rw [Expr.recast, recastOpt_eq_self o h.1.1, recastBranches_eq_self bs h.1.2, recastOpt_eq_self e h.2]
  | .subquery s, h => by rw [Expr.recast, Select.recast_eq_self s h]
theorem recastExprs_eq_self : ∀ es, σ.KeepsAll (collectExprs givens es) → recastExprs σ es = es
  | [], _ => rfl
  | e :: es, h => by
    obtain ⟨he, hes⟩ := Recast.keepsAll_append.mp h
    rw [recastExprs, Expr.recast_eq_self e he, recastExprs_eq_self es hes]
theorem recastOpt_eq_self : ∀ o, σ.KeepsAll (collectOpt givens o) → recastOpt σ o = o
  | none, _ => rfl
  | some e, h => by rw [recastOpt, Expr.recast_eq_self e h]
theorem recastBranches_eq_self : ∀ bs, σ.KeepsAll (collectBranches givens bs) → recastBranches σ bs = bs
  | [], _ => rfl
  | ⟨c, r⟩ :: bs, h => by
    simp only [collectBranches, Recast.keepsAll_append] at h
    rw [recastBranches, Expr.recast_eq_self c h.1.1, Expr.recast_eq_self r h.1.2,
      recastBranches_eq_self bs h.2]
theorem recastFields_eq_self : ∀ fs, σ.KeepsAll (collectFields givens fs) → recastFields σ fs = fs
  | [], _ => rfl
  | ⟨e, a⟩ :: fs, h => by
    obtain ⟨he, hfs⟩ := Recast.keepsAll_append.mp h
    rw [recastFields, Expr.recast_eq_self e he, recastFields_eq_self fs hfs]
theorem recastOrders_eq_self : ∀ os, σ.KeepsAll (collectOrders givens os) → recastOrders σ os = os
  | [], _ => rfl
  | ⟨e, a⟩ :: os, h => by
    obtain ⟨he, hos⟩ := Recast.keepsAll_append.mp h
    rw [recastOrders, Expr.recast_eq_self e he, recastOrders_eq_self os hos]
theorem Table.recast_eq_self : ∀ t : Table, σ.KeepsAll (t.collect givens) → t.recast σ = t
  | .named _ _, _ => rfl
  | .derived s _, h => by rw [Table.recast, Select.recast_eq_self s h]
theorem recastOptTable_eq_self : ∀ t, σ.KeepsAll (collectOptTable givens t) → recastOptTable σ t = t
  | none, _ => rfl
  | some t, h => by rw [recastOptTable, Table.recast_eq_self t h]
theorem recastJoins_eq_self : ∀ js, σ.KeepsAll (collectJoins givens js) → recastJoins σ js = js
  | [], _ => rfl
  | ⟨_, t, c, _⟩ :: js, h => by
    simp only [collectJoins, Recast.keepsAll_append] at h
    rw [recastJoins, Table.recast_eq_self t h.1.1, recastOpt_eq_self c h.1.2, recastJoins_eq_self js h.2]
theorem recastUnions_eq_self : ∀ us, σ.KeepsAll (collectUnions givens us) → recastUnions σ us = us
  | [], _ => rfl
  | ⟨_, s⟩ :: us, h => by
    obtain ⟨hs, hus⟩ := Recast.keepsAll_append.mp h
    rw [recastUnions, Select.recast_eq_self s hs, recastUnions_eq_self us hus]
theorem Select.recast_eq_self : ∀ s : Select, σ.KeepsAll (s.collect givens) → s.recast σ = s
  | ⟨_, fs, t, js, c, gs, hv, os, l, o, us, f⟩, h => by
    simp only [Select.collect, givens_paging, Recast.keepsAll_append] at h
    obtain ⟨⟨⟨⟨⟨⟨⟨⟨⟨hf, hfs⟩, ht⟩, hjs⟩, hc⟩, hgs⟩, hhv⟩, hos⟩, hl, ho⟩, hus⟩ := h
    rw [Select.recast, recastFields_eq_self fs hfs, recastOptTable_eq_self t ht, recastJoins_eq_self js hjs,
      recastOpt_eq_self c hc, recastExprs_eq_self gs hgs, recastOpt_eq_self hv hhv,
      recastOrders_eq_self os hos, recastOpt_eq_self l hl, recastOpt_eq_self o ho,
      recastUnions_eq_self us hus, Facts.recast_eq_self hf]
end

theorem recastAssignments_eq_self : ∀ as, σ.KeepsAll (collectAssignments givens as) →
    recastAssignments σ as = as
  | [], _ => rfl
  | ⟨t, v⟩ :: as, h => by
    simp only [collectAssignments, Recast.keepsAll_append] at h
    rw [recastAssignments, Expr.recast_eq_self t h.1.1, Expr.recast_eq_self v h.1.2,
      recastAssignments_eq_self as h.2]

theorem InsertSource.recast_eq_self : ∀ s : InsertSource, σ.KeepsAll (s.collect givens) → s.recast σ = s
  | .values rows, h => by rw [InsertSource.recast, recastExprs_eq_self rows h]
  | .select s, h => by rw [InsertSource.recast, Select.recast_eq_self s h]

/-- **A recast that keeps all that is given keeps the query.** -/
theorem Query.recast_eq_self {q : Query} (h : σ.KeepsAll (q.collect givens)) : q.recast σ = q := by
  cases q with
  | select s => rw [Query.recast, Select.recast_eq_self s h]
  | insert i =>
    simp only [Query.collect, Insert.collect, givens_returned, Recast.keepsAll_append] at h
    rw [Query.recast, Insert.recast, Table.recast_eq_self _ h.1.1.1.2, recastExprs_eq_self _ h.1.1.2,
      InsertSource.recast_eq_self _ h.1.2, recastFields_eq_self _ h.2, Facts.recast_eq_self h.1.1.1.1]
  | update u =>
    simp only [Query.collect, Update.collect, givens_paging, Recast.keepsAll_append] at h
    rw [Query.recast, Update.recast, Table.recast_eq_self _ h.1.1.1.1.2,
      recastAssignments_eq_self _ h.1.1.1.2, recastOpt_eq_self _ h.1.1.2, recastOrders_eq_self _ h.1.2,
      recastOpt_eq_self _ h.2.1, recastOpt_eq_self _ h.2.2, Facts.recast_eq_self h.1.1.1.1.1]
  | delete d =>
    simp only [Query.collect, Delete.collect, givens_paging, Recast.keepsAll_append] at h
    rw [Query.recast, Delete.recast, Table.recast_eq_self _ h.1.1.1.2, recastOpt_eq_self _ h.1.1.2,
      recastOrders_eq_self _ h.1.2, recastOpt_eq_self _ h.2.1, recastOpt_eq_self _ h.2.2,
      Facts.recast_eq_self h.1.1.1.1]

theorem Query.recast_id (q : Query) : q.recast {} = q :=
  Query.recast_eq_self fun g _ => by cases g <;> rfl

/-! ## What stays -/

theorem Select.facts_recast (s : Select) : (s.recast σ).facts = s.facts.recast σ := by
  cases s
  rfl

theorem Select.fields_recast (s : Select) : (s.recast σ).fields = recastFields σ s.fields := by
  cases s
  rfl

theorem Query.facts_recast (q : Query) : (q.recast σ).facts = q.facts.recast σ := by
  cases q with
  | select s => exact s.facts_recast
  | insert | update | delete => rfl

theorem Table.label_recast (t : Table) : (t.recast σ).label = t.label := by
  cases t <;> rfl

theorem Table.name?_recast (t : Table) : (t.recast σ).name? = t.name? := by
  cases t <;> rfl

theorem recastFields_append (fs gs : List ResultField) :
    recastFields σ (fs ++ gs) = recastFields σ fs ++ recastFields σ gs := by
  induction fs with
  | nil => rfl
  | cons f fs ih =>
    obtain ⟨e, a⟩ := f
    rw [List.cons_append, recastFields, recastFields, ih, List.cons_append]

theorem recastJoins_append (js ks : List Join) :
    recastJoins σ (js ++ ks) = recastJoins σ js ++ recastJoins σ ks := by
  induction js with
  | nil => rfl
  | cons j js ih =>
    obtain ⟨kind, t, c, path⟩ := j
    rw [List.cons_append, recastJoins, recastJoins, ih, List.cons_append]

theorem labels_recastFields (fs : List ResultField) :
    (recastFields σ fs).filterMap (·.label) = fs.filterMap (·.label) := by
  induction fs with
  | nil => rfl
  | cons f fs ih =>
    obtain ⟨e, a⟩ := f
    simp only [recastFields, List.filterMap_cons, ih]

namespace Expr

theorem asIdentifier?_recast (e : Expr) : (e.recast σ).asIdentifier? = e.asIdentifier? := by
  cases e with
  | marker m =>
    rw [Expr.recast]
    cases σ.mark (.anonymous m) <;> rfl
  | named m =>
    rw [Expr.recast]
    cases σ.mark (.named m) <;> rfl
  | _ => rfl

theorem underlying?_recast : ∀ e : Expr, (e.recast σ).underlying? = e.underlying?
  | .marker m => by
    rw [Expr.recast]
    cases σ.mark (.anonymous m) <;> rfl
  | .named m => by
    rw [Expr.recast]
    cases σ.mark (.named m) <;> rfl
  | .unary _ e => underlying?_recast e
  | .ident _ | .literal _ | .call .. | .list _ | .arith .. | .compare .. | .logic .. | .case ..
  | .subquery _ => rfl

end Expr

theorem ResultField.isWildcard_recast (e : Expr) (a : Option String) :
    (⟨e.recast σ, a⟩ : ResultField).isWildcard = (⟨e, a⟩ : ResultField).isWildcard := by
  rw [ResultField.isWildcard, ResultField.isWildcard, Expr.asIdentifier?_recast]

/-! ### Names -/

/-- Scopes with other literals. -/
abbrev recastScopes (σ : Recast) (scopes : List Facts) : List Facts := scopes.map (Facts.recast σ)

theorem scopedSource?_recast (scopes : List Facts) (qualifier : String) :
    scopedSource? (recastScopes σ scopes) qualifier = scopedSource? scopes qualifier := by
  rw [scopedSource?, scopedSource?, List.findSome?_map]
  rfl

theorem Lookup.sources_recast (scopes : List Facts) :
    Lookup.sources (recastScopes σ scopes) = Lookup.sources scopes := by
  rw [Lookup.sources, Lookup.sources, List.flatMap_map]
  rfl

theorem Lookup.unqualified_recast (value name : String) (part : Option String) (scopes : List Facts) :
    Lookup.unqualified value name part (recastScopes σ scopes) = Lookup.unqualified value name part scopes := by
  have hraw : (recastScopes σ scopes).any (fun f => f.sources.hasRaw)
      = scopes.any fun f => f.sources.hasRaw := by
    rw [recastScopes, List.any_map]
    rfl
  unfold Lookup.unqualified
  rw [Lookup.sources_recast, hraw]

/-- **Names are looked up in the sources alone.** -/
theorem Lookup.find_recast (value : String) (scopes : List Facts) :
    Lookup.find value (recastScopes σ scopes) = Lookup.find value scopes := by
  unfold Lookup.find
  simp only [scopedSource?_recast, Lookup.unqualified_recast]

theorem Facts.addSource_recast (f : Facts) (s : Source) :
    (f.recast σ).addSource s = (f.addSource s).map (Facts.recast σ) := by
  have hsources : (f.recast σ).sources = f.sources := rfl
  unfold Facts.addSource
  rw [hsources]
  cases f.sources.register s <;> rfl

/-! ### Types -/

/-- A recast that the passes before the numbering do not see: markers keep their types, and what a filter
of a relation holds stays. -/
structure Recast.Hidden (σ : Recast) : Prop where
  typed : ∀ m scopes, (σ.mark m).expr.typed? scopes = m.expr.typed? scopes
  named : ∀ name, σ.mark (.named { name }) = .named { name }
  unsupplied : σ.literals none = none

theorem Identifier.typed?_recast (i : Identifier) (scopes : List Facts) :
    i.typed? (recastScopes σ scopes) = i.typed? scopes := by
  unfold Identifier.typed?
  rw [Lookup.find_recast]

section

variable (h : σ.Hidden)

include h

set_option linter.unusedSectionVars false

mutual
/-- **Types stay** where markers keep theirs. -/
theorem Expr.typed?_recast (scopes : List Facts) :
    ∀ e : Expr, (e.recast σ).typed? (recastScopes σ scopes) = e.typed? scopes
  | .ident i => by rw [Expr.recast, Expr.typed?, Expr.typed?, Identifier.typed?_recast]
  | .literal l => by cases l <;> rfl
  | .marker m => by
    rw [Expr.recast, h.typed]
    rfl
  | .named m => by
    rw [Expr.recast, h.typed]
    rfl
  | .arith _ l r => by
    rw [Expr.recast, Expr.typed?, Expr.typed?, Expr.typed?_recast scopes l, Expr.typed?_recast scopes r]
  | .compare .. | .logic .. | .unary .not _ | .list _ => rfl
  | .unary .negate e => by rw [Expr.recast, Expr.typed?, Expr.typed?, Expr.typed?_recast scopes e]
  | .case _ [] _ => rfl
  | .case _ (⟨c, r⟩ :: bs) otherwise => by
    have hsome : (recastOpt σ otherwise).isNone = otherwise.isNone := by cases otherwise <;> rfl
    rw [Expr.recast, recastBranches, Expr.typed?, Expr.typed?, Expr.typed?_recast scopes r, hsome]
  | .call name _ args => by rw [Expr.recast, Expr.typed?, Expr.typed?, typedArgs_recast scopes args]
  | .subquery s => by
    rw [Expr.recast, Expr.typed?, Expr.typed?, Select.facts_recast]
    rfl
theorem typedArgs_recast (scopes : List Facts) :
    ∀ es : List Expr, typedArgs (recastScopes σ scopes) (recastExprs σ es) = typedArgs scopes es
  | [] => rfl
  | e :: es => by
    rw [recastExprs, typedArgs, typedArgs, Expr.typed?_recast scopes e, typedArgs_recast scopes es]
end

end

end EntitySql
