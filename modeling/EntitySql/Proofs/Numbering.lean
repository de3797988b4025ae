import Mathlib
import EntitySql.Proofs.Edits

/-!
# The numbering of markers

The last pass goes through a query in the order of its text. `Numbered` says what it does to the list
of markers: each that has no ordinal yet gets the next one and a slot of its own (`Mark.Filed`), the
others stay as they are.

* `Parameters.numbered_query`: the pass numbers the markers of a query in this way.
* `Parameters.edited`: it changes nothing else (`Edit`).
* `Numbered.fresh`: where no marker had an ordinal, the ordinals go up by one from the number of slots
  that there were.
-/

namespace EntitySql

open Outcome

/-- The anonymous marker that a marker becomes, typed by the field it is used with. -/
def Mark.typed (hint : Option Resolution) : Mark → Marker
  | anonymous m => m.typedBy hint
  | named m => .replacing (m.typedBy hint)

variable {A : Option Bindings → Prop}

/-- A slot for a marker, filled from literals that satisfy `A`. -/
def Mark.Filed (A : Option Bindings → Prop) (m : Mark) (slot : Slot) : Prop :=
  ∃ literals hint filled, A literals ∧ (m.typed hint).fill literals = .ok filled ∧ filled.slot = .ok slot

/-- The markers `ms` become `ms'` while the slots `s` become `s'`. -/
inductive Numbered (A : Option Bindings → Prop) :
    List Mark → List Mark → List Slot → List Slot → Prop where
  | nil (s : List Slot) : Numbered A [] [] s s
  /-- A marker with an ordinal takes no slot. -/
  | old {m m' : Mark} {ms ms' : List Mark} {s s' : List Slot} : m.ordinal?.isSome →
      m'.ordinal? = m.ordinal? → Numbered A ms ms' s s' → Numbered A (m :: ms) (m' :: ms') s s'
  /-- A marker without one takes the next ordinal and a slot. -/
  | new {m m' : Mark} {ms ms' : List Mark} {s s' : List Slot} {slot : Slot} : m.ordinal? = none →
      m'.ordinal? = some s.length → m.Filed A slot → Numbered A ms ms' (s ++ [slot]) s' →
      Numbered A (m :: ms) (m' :: ms') s s'

theorem Numbered.append {ms ms' ns ns' : List Mark} {s t u : List Slot} (h : Numbered A ms ms' s t)
    (g : Numbered A ns ns' t u) : Numbered A (ms ++ ns) (ms' ++ ns') s u := by
  induction h with
  | nil s => exact g
  | old hm hm' _ ih => exact .old hm hm' (ih g)
  | new hm hm' hslot _ ih => exact .new hm hm' hslot (ih g)

/-- **Fresh markers are numbered one after another**, and each has its slot. -/
theorem Numbered.fresh {ms ms' : List Mark} {s s' : List Slot} (h : Numbered A ms ms' s s')
    (hms : ∀ m ∈ ms, m.ordinal? = none) :
    ∃ new, s' = s ++ new ∧ List.Forall₂ (Mark.Filed A) ms new
      ∧ ms'.filterMap Mark.ordinal? = List.range' s.length new.length := by
  induction h with
  | nil s => exact ⟨[], (List.append_nil s).symm, .nil, rfl⟩
  | old hm _ _ _ =>
    rw [hms _ List.mem_cons_self] at hm
    cases hm
  | @new m m' _ _ s _ slot _ hm' hslot _ ih =>
    obtain ⟨new, rfl, hnew, hordinals⟩ := ih (List.forall_mem_cons.mp hms).2
    refine ⟨slot :: new, by simp, .cons hslot hnew, ?_⟩
    rw [List.filterMap_cons_some hm', hordinals, List.length_append, List.length_singleton,
      List.length_cons, List.range'_succ]

/-- The facts of a tree, whose literals satisfy `A`. -/
def Supplied (A : Option Bindings → Prop) (fs : List Facts) : Prop := ∀ f ∈ fs, A f.literals

theorem supplied_append {fs gs : List Facts} :
    Supplied A (fs ++ gs) ↔ Supplied A fs ∧ Supplied A gs := List.forall_mem_append

theorem Supplied.left {fs gs : List Facts} (h : Supplied A (fs ++ gs)) : Supplied A fs := (supplied_append.mp h).1

theorem Supplied.right {fs gs : List Facts} (h : Supplied A (fs ++ gs)) : Supplied A gs := (supplied_append.mp h).2

/-! ## Errors -/

/-- Whether an alias is refused. -/
def QueryError.isClash : QueryError → Bool
  | duplicateAlias _ => true
  | _ => false

/-- No alias is refused. -/
abbrev Clashless {α : Type} (x : Except QueryError α) : Prop := FailsWith (fun e => e.isClash = false) x

theorem Marker.clashless_known (m : Marker) (literals : Bindings) : Clashless (m.known literals) := by
  unfold known
  split
  · split
    · exact .ok _
    · exact .error rfl
  · exact .ok _
  · exact .ok _

theorem Marker.clashless_fill (m : Marker) (literals : Option Bindings) : Clashless (m.fill literals) := by
  unfold fill
  split
  · exact .bind (m.clashless_known _) fun _ _ => .pure _
  · exact .pure _

theorem Marker.clashless_slot (m : Marker) : Clashless m.slot := by
  unfold slot
  split
  · exact .ok _
  · exact .ok _
  · exact .error rfl

namespace Parameters

theorem number_eq_ok {literals : Option Bindings} {m m' : Marker} {s s' : List Slot}
    (h : number literals m s = .ok (m', s')) :
    (m.ordinal.isSome ∧ m' = m ∧ s' = s) ∨ (m.ordinal = none ∧ ∃ filled slot,
      m.fill literals = .ok filled ∧ filled.slot = .ok slot ∧ s' = s ++ [slot]
        ∧ m' = { filled with ordinal := some s.length }) := by
  unfold number at h
  split at h
  · next hm =>
    cases h
    exact .inl ⟨hm, rfl, rfl⟩
  · next hm =>
    simp only [state_bind_eq_ok, state_lift_eq_ok, state_pure_eq_ok] at h
    obtain ⟨filled, _, ⟨hfill, rfl⟩, slot, _, ⟨hslot, rfl⟩, s₁, _, hget, _, _, hset, rfl, rfl⟩ := h
    cases hget
    cases hset
    exact .inr ⟨by simpa using hm, filled, slot, hfill, hslot, rfl, rfl⟩

/-- One marker. -/
theorem numbered_number {literals : Option Bindings} {hint : Option Resolution} {m : Mark} {m' : Marker}
    {s s' : List Slot} (hA : A literals) (h : number literals (m.typed hint) s = .ok (m', s')) :
    Numbered A [m] [.anonymous m'] s s' := by
  have hordinal : (m.typed hint).ordinal = m.ordinal? := by
    cases m <;> cases hint <;> rfl
  rcases number_eq_ok h with ⟨hm, rfl, rfl⟩ | ⟨hm, filled, slot, hfill, hslot, rfl, rfl⟩
  · rw [hordinal] at hm
    exact .old hm hordinal (.nil _)
  · rw [hordinal] at hm
    exact .new hm rfl ⟨literals, hint, filled, hA, hfill, hslot⟩ (.nil _)

/-- No alias is refused, whatever the slots so far. -/
theorem ends_number {literals : Option Bindings} {m : Marker} {s : List Slot} :
    Ends (·.isClash = false) (fun _ => True) (number literals m s) := by
  refine ⟨.any, ?_⟩
  unfold number
  split
  · exact .pure _
  · exact FailsWith.bind (.bind (m.clashless_fill literals) fun _ _ => .pure _) fun m' _ =>
      FailsWith.bind (.bind m'.1.clashless_slot fun _ _ => .pure _) fun _ _ => .pure _

/-- Markers are numbered; named ones become anonymous. -/
def edit : Edit where
  mark _ m' := ∃ k, m'.ordinal? = some k
  facts _ f f' := f'.sources = f.sources

theorem ordinal_number {literals : Option Bindings} {m m' : Marker} {s s' : List Slot}
    (h : number literals m s = .ok (m', s')) : ∃ k, (Mark.anonymous m').ordinal? = some k := by
  rcases number_eq_ok h with ⟨hm, rfl, -⟩ | ⟨-, _, _, -, -, -, rfl⟩
  · exact Option.isSome_iff_exists.mp hm
  · exact ⟨_, rfl⟩

mutual
theorem numbered_expr {literals hint s p} : ∀ e : Expr, A literals → Supplied A (e.collect scopes) →
    Ends (·.isClash = false) (fun x => e.Edited edit p x.1 ∧ Numbered A (e.collect markers) (x.1.collect markers) s x.2)
      (expr literals hint e s)
  | .ident _, _, _ => .pure ⟨.ident rfl, .nil _⟩
  | .literal l, _, _ => .pure ⟨.literal l, .nil _⟩
  | .marker m, hA, _ => .step ends_number fun hm _ =>
    .pure ⟨.marker (ordinal_number hm), numbered_number (m := .anonymous m) hA hm⟩
  | .named m, hA, _ => .step ends_number fun hm _ =>
    .pure ⟨.replaced (ordinal_number hm), numbered_number (m := .named m) hA hm⟩
  | .call name distinct args, hA, hs =>
    .step (numbered_exprs args hA hs) fun _ h => .pure ⟨.call name distinct h.1, h.2⟩
  | .list items, hA, hs => .step (numbered_exprs items hA hs) fun _ h => .pure ⟨.list h.1, h.2⟩
  | .arith op l r, hA, hs =>
    .step (numbered_expr l hA hs.left) fun _ hl => .step (numbered_expr r hA hs.right) fun _ hr =>
    .pure ⟨.arith op hl.1 hr.1, hl.2.append hr.2⟩
  | .compare op l r, hA, hs =>
    .step (numbered_expr l hA hs.left) fun _ hl => .step (numbered_expr r hA hs.right) fun _ hr =>
    .pure ⟨.compare op hl.1 hr.1, hl.2.append hr.2⟩
  | .logic op l r, hA, hs =>
    .step (numbered_expr l hA hs.left) fun _ hl => .step (numbered_expr r hA hs.right) fun _ hr =>
    .pure ⟨.logic op hl.1 hr.1, hl.2.append hr.2⟩
  | .unary op e, hA, hs => .step (numbered_expr e hA hs) fun _ h => .pure ⟨.unary op h.1, h.2⟩
  | .case o bs e, hA, hs => .step (numbered_optExpr o hA hs.left.left) fun _ ho =>
    .step (numbered_branches bs hA hs.left.right) fun _ hbs =>
    .step (numbered_optExpr e hA hs.right) fun _ he =>
    .pure ⟨.case ho.1 hbs.1 he.1, (ho.2.append hbs.2).append he.2⟩
  | .subquery x, hA, hs =>
    .step (numbered_select x hA hs) fun _ h => .pure ⟨.subquery h.1, h.2⟩
theorem numbered_exprs {literals hint s p} : ∀ es : List Expr, A literals →
    Supplied A (collectExprs scopes es) →
    Ends (·.isClash = false) (fun x => ExprsEdited edit p es x.1 ∧ Numbered A (collectExprs markers es) (collectExprs markers x.1) s x.2)
      (exprs literals hint es s)
  | [], _, _ => .pure ⟨.nil, .nil _⟩
  | e :: es, hA, hs =>
    .step (numbered_expr e hA hs.left) fun _ he => .step (numbered_exprs es hA hs.right) fun _ hes =>
    .pure ⟨.cons he.1 hes.1, he.2.append hes.2⟩
theorem numbered_optExpr {literals s p} : ∀ o : Option Expr, A literals →
    Supplied A (collectOpt scopes o) →
    Ends (·.isClash = false) (fun x => OptEdited edit p o x.1 ∧ Numbered A (collectOpt markers o) (collectOpt markers x.1) s x.2)
      (optExpr literals o s)
  | none, _, _ => .pure ⟨.none, .nil _⟩
  | some e, hA, hs => .step (numbered_expr e hA hs) fun _ h => .pure ⟨.some h.1, h.2⟩
theorem numbered_branches {literals s p} : ∀ bs : List Branch, A literals →
    Supplied A (collectBranches scopes bs) →
    Ends (·.isClash = false) (fun x => BranchesEdited edit p bs x.1
      ∧ Numbered A (collectBranches markers bs) (collectBranches markers x.1) s x.2) (branches literals bs s)
  | [], _, _ => .pure ⟨.nil, .nil _⟩
  | ⟨c, r⟩ :: bs, hA, hs => .step (numbered_expr c hA hs.left.left) fun _ hc =>
    .step (numbered_expr r hA hs.left.right) fun _ hr => .step (numbered_branches bs hA hs.right) fun _ hbs =>
    .pure ⟨.cons hc.1 hr.1 hbs.1, (hc.2.append hr.2).append hbs.2⟩
theorem numbered_fields {literals s p} : ∀ fs : List ResultField, A literals →
    Supplied A (collectFields scopes fs) →
    Ends (·.isClash = false) (fun x => FieldsEdited edit p fs x.1
      ∧ Numbered A (collectFields markers fs) (collectFields markers x.1) s x.2) (fields literals fs s)
  | [], _, _ => .pure ⟨.nil, .nil _⟩
  | ⟨e, a⟩ :: fs, hA, hs =>
    .step (numbered_expr e hA hs.left) fun _ he => .step (numbered_fields fs hA hs.right) fun _ hfs =>
    .pure ⟨.keep a he.1 hfs.1, he.2.append hfs.2⟩
theorem numbered_orders {literals s p} : ∀ os : List OrderItem, A literals →
    Supplied A (collectOrders scopes os) →
    Ends (·.isClash = false) (fun x => OrdersEdited edit p os x.1
      ∧ Numbered A (collectOrders markers os) (collectOrders markers x.1) s x.2) (orders literals os s)
  | [], _, _ => .pure ⟨.nil, .nil _⟩
  | ⟨e, a⟩ :: os, hA, hs =>
    .step (numbered_expr e hA hs.left) fun _ he => .step (numbered_orders os hA hs.right) fun _ hos =>
    .pure ⟨.cons a he.1 hos.1, he.2.append hos.2⟩
theorem numbered_table {literals s joined} : ∀ t : Table, A literals → Supplied A (t.collect scopes) →
    Ends (·.isClash = false) (fun x => t.Edited edit joined x.1 ∧ Numbered A (t.collect markers) (x.1.collect markers) s x.2)
      (table literals t s)
  | .named _ _, _, _ => .pure ⟨.named rfl, .nil _⟩
  | .derived x label, hA, hs =>
    .step (numbered_select x hA hs) fun _ h => .pure ⟨.derived label trivial h.1, h.2⟩
theorem numbered_optTable {literals s} : ∀ t : Option Table, A literals → Supplied A (collectOptTable scopes t) →
    Ends (·.isClash = false) (fun x => OptTableEdited edit t x.1
      ∧ Numbered A (collectOptTable markers t) (collectOptTable markers x.1) s x.2) (optTable literals t s)
  | none, _, _ => .pure ⟨.none, .nil _⟩
  | some t, hA, hs => .step (numbered_table t hA hs) fun _ h => .pure ⟨.some h.1, h.2⟩
theorem numbered_joins {literals s p} : ∀ js : List Join, A literals →
    Supplied A (collectJoins scopes js) →
    Ends (·.isClash = false) (fun x => JoinsEdited edit p js x.1 ∧ Numbered A (collectJoins markers js) (collectJoins markers x.1) s x.2)
      (joins literals js s)
  | [], _, _ => .pure ⟨.nil, .nil _⟩
  | ⟨_, t, c, _⟩ :: js, hA, hs => .step (numbered_table t hA hs.left.left) fun _ ht =>
    .step (numbered_optExpr c hA hs.left.right) fun _ hc => .step (numbered_joins js hA hs.right) fun _ hjs =>
    .pure ⟨.keep trivial ht.1 hc.1 hjs.1, (ht.2.append hc.2).append hjs.2⟩
theorem numbered_unions {literals s} : ∀ us : List UnionPart, A literals → Supplied A (collectUnions scopes us) →
    Ends (·.isClash = false) (fun x => UnionsEdited edit us x.1 ∧ Numbered A (collectUnions markers us) (collectUnions markers x.1) s x.2)
      (unions literals us s)
  | [], _, _ => .pure ⟨.nil, .nil _⟩
  | ⟨all, x⟩ :: us, hA, hs =>
    .step (numbered_select x hA hs.left) fun _ hx => .step (numbered_unions us hA hs.right) fun _ hus =>
    .pure ⟨.cons all trivial hx.1 hus.1, hx.2.append hus.2⟩
theorem numbered_select {literals s around} : ∀ x : Select, A literals →
    Supplied A (x.collect scopes) →
    Ends (·.isClash = false) (fun y => x.Edited edit around y.1 ∧ Numbered A (x.collect markers) (y.1.collect markers) s y.2)
      (select literals x s)
  | ⟨_, fs, t, js, c, gs, hv, os, l, o, us, f⟩, hA, hs => by
    simp only [Select.collect, scopes_paging, supplied_append] at hs
    obtain ⟨⟨⟨⟨⟨⟨⟨⟨⟨sf, sfs⟩, st⟩, sjs⟩, sc⟩, sgs⟩, shv⟩, sos⟩, sl, so⟩, sus⟩ := hs
    have hA' : A (f.literals.or literals) := by
      have hf : A f.literals := sf f (List.mem_singleton.mpr rfl)
      cases hl : f.literals with
      | none => exact hA
      | some b => rwa [hl] at hf
    refine .step (numbered_fields fs hA' sfs) fun _ hfs => .step (numbered_optTable t hA' st) fun _ ht =>
      .step (numbered_joins js hA' sjs) fun _ hjs => .step (numbered_optExpr c hA' sc) fun _ hc =>
      .step (numbered_exprs gs hA' sgs) fun _ hgs => .step (numbered_optExpr hv hA' shv) fun _ hhv =>
      .step (numbered_orders os hA' sos) fun _ hos => .step (numbered_optExpr l hA' sl) fun _ hl =>
      .step (numbered_optExpr o hA' so) fun _ ho => .step (numbered_unions us hA' sus) fun _ hus =>
      .pure ⟨⟨hfs.1, ht.1, hjs.1, hc.1, hgs.1, hhv.1, hos.1, hl.1, ho.1, hus.1, rfl⟩, ?_⟩
    simp only [Select.collect, markers_facts, markers_paging, List.nil_append]
    exact ((((((((hfs.2.append ht.2).append hjs.2).append hc.2).append hgs.2).append hhv.2).append hos.2).append
      (hl.2.append ho.2)).append hus.2)
end

section

variable {literals : Option Bindings} {p : Spot} (hA : A literals)

include hA

theorem numbered_rowItems : ∀ {cs es : List Expr} {s}, Supplied A (collectExprs scopes es) →
    Ends (·.isClash = false) (fun x => ExprsEdited edit p es x.1 ∧ Numbered A (collectExprs markers es) (collectExprs markers x.1) s x.2)
      (rowItems literals cs es s)
  | _ :: _, e :: _, _, hs =>
    .step (numbered_expr e hA hs.left) fun _ he => .step (numbered_rowItems hs.right) fun _ hes =>
    .pure ⟨.cons he.1 hes.1, he.2.append hes.2⟩
  | [], es, _, hs => by
    simp only [rowItems]
    exact numbered_exprs es hA hs
  | _ :: _, [], _, _ => .pure ⟨.nil, .nil _⟩

theorem numbered_row {cs : List Expr} {r : Expr} {s : List Slot} (hs : Supplied A (r.collect scopes)) :
    Ends (·.isClash = false) (fun x => r.Edited edit p x.1 ∧ Numbered A (r.collect markers) (x.1.collect markers) s x.2)
      (row literals cs r s) := by
  cases r with
  | list items => exact .step (numbered_rowItems hA hs) fun _ h => .pure ⟨.list h.1, h.2⟩
  | _ =>
    simp only [row]
    exact numbered_expr _ hA hs

theorem numbered_rows {cs : List Expr} : ∀ {rs : List Expr} {s}, Supplied A (collectExprs scopes rs) →
    Ends (·.isClash = false) (fun x => ExprsEdited edit p rs x.1 ∧ Numbered A (collectExprs markers rs) (collectExprs markers x.1) s x.2)
      (rows literals cs rs s)
  | [], _, _ => .pure ⟨.nil, .nil _⟩
  | _ :: _, _, hs => .step (numbered_row hA hs.left) fun _ hr => .step (numbered_rows hs.right) fun _ hrs =>
    .pure ⟨.cons hr.1 hrs.1, hr.2.append hrs.2⟩

theorem numbered_assignments : ∀ {as : List Assignment} {s}, Supplied A (collectAssignments scopes as) →
    Ends (·.isClash = false) (fun x => AssignmentsEdited edit p as x.1
      ∧ Numbered A (collectAssignments markers as) (collectAssignments markers x.1) s x.2) (assignments literals as s)
  | [], _, _ => .pure ⟨.nil, .nil _⟩
  | ⟨t, v⟩ :: _, _, hs => .step (numbered_expr t hA hs.left.left) fun _ ht =>
    .step (numbered_expr v hA hs.left.right) fun _ hv => .step (numbered_assignments hs.right) fun _ has =>
    .pure ⟨.cons ht.1 hv.1 has.1, (ht.2.append hv.2).append has.2⟩

theorem numbered_insertSource {cs : List Expr} {s : List Slot} : ∀ {x : InsertSource},
    Supplied A (x.collect scopes) →
    Ends (·.isClash = false) (fun y => x.Edited edit p y.1 ∧ Numbered A (x.collect markers) (y.1.collect markers) s y.2)
      (insertSource literals cs x s)
  | .values _, hs => .step (numbered_rows hA hs) fun _ h => .pure ⟨.values h.1, h.2⟩
  | .select x, hs => .step (numbered_select x hA hs) fun _ h => .pure ⟨.select trivial h.1, h.2⟩

end

theorem facts_select {literals : Option Bindings} {x x' : Select} {s s' : List Slot}
    (h : select literals x s = .ok (x', s')) : x'.facts = x.facts := by
  obtain ⟨_, fs, t, js, c, gs, hv, os, l, o, us, f⟩ := x
  simp only [select, state_bind_eq_ok, state_pure_eq_ok] at h
  obtain ⟨_, _, -, _, _, -, _, _, -, _, _, -, _, _, -, _, _, -, _, _, -, _, _, -, _, _, -, _, _, -,
    rfl, -⟩ := h
  rfl

theorem numbered_statement {q : Query} {s : List Slot} (hA : A none) (hs : Supplied A (q.collect scopes)) :
    Ends (·.isClash = false) (fun x => (q.Edited edit x.1 ∧ x.1.facts = q.facts)
      ∧ Numbered A (q.collect markers) (x.1.collect markers) s x.2) (statement q s) := by
  cases q with
  | select x =>
    exact .bind (x := Parameters.select none x s) (numbered_select x hA hs) fun hx h =>
      .pure ⟨⟨.select h.1, facts_select hx⟩, h.2⟩
  | insert i =>
    simp only [Query.collect, Insert.collect, scopes_returned, supplied_append] at hs
    obtain ⟨⟨⟨⟨sf, st⟩, scs⟩, sx⟩, sfs⟩ := hs
    have hA' : A i.facts.literals := sf _ (List.mem_singleton.mpr rfl)
    refine .mapState (.step (numbered_table _ hA' st) fun _ ht => .step (numbered_exprs _ hA' scs) fun _ hcs =>
      .step (numbered_insertSource hA' sx) fun _ hx => .step (numbered_fields _ hA' sfs) fun _ hfs =>
      .pure ⟨⟨.insert ht.1 hcs.1 hx.1 hfs.1 rfl, rfl⟩, ?_⟩)
    simp only [Query.collect, Insert.collect, markers_facts, markers_returned, List.nil_append]
    exact ((ht.2.append hcs.2).append hx.2).append hfs.2
  | update u =>
    simp only [Query.collect, Update.collect, scopes_paging, supplied_append] at hs
    obtain ⟨⟨⟨⟨⟨sf, st⟩, sas⟩, sc⟩, sos⟩, sl, so⟩ := hs
    have hA' : A u.facts.literals := sf _ (List.mem_singleton.mpr rfl)
    refine .mapState (.step (numbered_table _ hA' st) fun _ ht => .step (numbered_assignments hA' sas) fun _ has =>
      .step (numbered_optExpr _ hA' sc) fun _ hc => .step (numbered_orders _ hA' sos) fun _ hos =>
      .step (numbered_optExpr _ hA' sl) fun _ hl => .step (numbered_optExpr _ hA' so) fun _ ho =>
      .pure ⟨⟨.update ht.1 has.1 hc.1 hos.1 hl.1 ho.1 rfl, rfl⟩, ?_⟩)
    simp only [Query.collect, Update.collect, markers_facts, markers_paging, List.nil_append]
    exact (((ht.2.append has.2).append hc.2).append hos.2).append (hl.2.append ho.2)
  | delete d =>
    simp only [Query.collect, Delete.collect, scopes_paging, supplied_append] at hs
    obtain ⟨⟨⟨⟨sf, st⟩, sc⟩, sos⟩, sl, so⟩ := hs
    have hA' : A d.facts.literals := sf _ (List.mem_singleton.mpr rfl)
    refine .mapState (.step (numbered_table _ hA' st) fun _ ht => .step (numbered_optExpr _ hA' sc) fun _ hc =>
      .step (numbered_orders _ hA' sos) fun _ hos => .step (numbered_optExpr _ hA' sl) fun _ hl =>
      .step (numbered_optExpr _ hA' so) fun _ ho => .pure ⟨⟨.delete ht.1 hc.1 hos.1 hl.1 ho.1 rfl, rfl⟩, ?_⟩)
    simp only [Query.collect, Delete.collect, markers_facts, markers_paging, List.nil_append]
    exact ((ht.2.append hc.2).append hos.2).append (hl.2.append ho.2)

theorem markers_withFacts (f : Facts) (q : Query) : (q.withFacts f).collect markers = q.collect markers := by
  cases q with
  | select s => cases s; rfl
  | _ => rfl

theorem facts_withFacts (f : Facts) (q : Query) : (q.withFacts f).facts = f := by cases q <;> rfl

/-- **The last pass numbers the markers of a query** in the order of its text. -/
theorem numbered_query {q q' : Query} (hA : A none) (hs : Supplied A (q.collect scopes))
    (h : Parameters.query q = .ok q') :
    Numbered A (q.collect markers) (q'.collect markers) q.facts.slots q'.facts.slots := by
  simp only [Parameters.query, bind_eq_ok, pure_eq_ok] at h
  obtain ⟨⟨q₁, slots⟩, hq₁, rfl⟩ := h
  rw [markers_withFacts, facts_withFacts]
  exact ((numbered_statement hA hs).gives hq₁).2

/-- **The sixth pass numbers markers** and changes nothing else. -/
theorem edited {q q' : Query} (h : Parameters.query q = .ok q') : q.Edited edit q' := by
  simp only [Parameters.query, bind_eq_ok, pure_eq_ok] at h
  obtain ⟨⟨q₁, slots⟩, hq₁, rfl⟩ := h
  obtain ⟨⟨hedited, hfacts⟩, -⟩ := (numbered_statement (A := fun _ => True) trivial fun _ _ => trivial).gives hq₁
  refine hedited.withFacts fun _ => ?_
  show q₁.facts.sources = q.facts.sources
  rw [hfacts]

end Parameters

end EntitySql
