import Mathlib
import EntitySql.Proofs.Blindness
import EntitySql.Proofs.Numbering

/-!
# Two numberings of one query

The last pass, run on two recasts of one query, goes through the same nodes in the same order. If each marker
takes a slot `s` in the first run and what `κ` makes of `s` in the second, then the slots of the second run
are those of the first under `κ`, and the second run fails where `κ` does (`Parameters.Mirrors`). What the two
leave of the query is the same but for what a marker remembers besides its ordinal (`Recast.numerals`).

* `Parameters.Mirrors.bind`: one step after another.
* `Parameters.mirrors_number`: one marker.
* **`Parameters.mirrors_statement`**: the whole pass.
-/

namespace EntitySql

open Outcome

/-- Of each marker its ordinal, and no literals. -/
def Recast.numerals : Recast where
  mark
    | .anonymous m => .anonymous { ordinal := m.ordinal }
    | m => m
  literals _ := none

namespace Parameters

variable {α β γ δ : Type} {κ : Slot → Except QueryError Slot}

/-- From as many slots, the second run gives what `κ` makes of the slots that the first adds, and the same
result up to `ρ`. It fails where the first does or `κ` does. -/
def Mirrors (κ : Slot → Except QueryError Slot) (ρ : α → β) (x y : Numbering α) : Prop :=
  ∀ s s', s'.length = s.length → match x s with
    | .error _ => ∃ e, y s' = .error e
    | .ok (a, t) => ∃ new, t = s ++ new ∧ match new.mapM κ with
      | .error e => y s' = .error e
      | .ok new' => ∃ b, y s' = .ok (b, s' ++ new') ∧ ρ b = ρ a

namespace Mirrors

variable {ρ : α → β} {τ : γ → δ}

theorem pure {a b : α} (h : ρ b = ρ a) : Mirrors κ ρ (Pure.pure a) (Pure.pure b) := by
  refine fun s s' _ => ⟨[], (List.append_nil s).symm, b, ?_, h⟩
  show Except.ok (b, s') = .ok (b, s' ++ [])
  rw [List.append_nil]

theorem bind {x y : Numbering α} {f g : α → Numbering γ} (hx : Mirrors κ ρ x y)
    (hf : ∀ a b, ρ b = ρ a → Mirrors κ τ (f a) (g b)) : Mirrors κ τ (x >>= f) (y >>= g) := by
  intro s s' hlength
  have hxs := hx s s' hlength
  have hxf : (x >>= f) s = (x s >>= fun p => f p.1 p.2) := rfl
  have hyg : (y >>= g) s' = (y s' >>= fun p => g p.1 p.2) := rfl
  rw [hxf, hyg]
  cases hrun : x s with
  | error e =>
    rw [hrun] at hxs
    obtain ⟨e', he'⟩ := hxs
    exact ⟨e', by rw [he']; rfl⟩
  | ok p =>
    obtain ⟨a, t⟩ := p
    rw [hrun] at hxs
    obtain ⟨new, rfl, hxs⟩ := hxs
    cases hnew : new.mapM κ with
    | error e =>
      rw [hnew] at hxs
      -- the first run goes on alone, so `f a` is compared with `g a`
      have hfa := hf a a rfl (s ++ new) (s ++ new) rfl
      rw [show y s' = .error e from hxs]
      show match f a (s ++ new) with
        | .error _ => ∃ e', (Except.error e : Except QueryError (γ × List Slot)) = .error e'
        | .ok (c, t) => _
      cases hfrun : f a (s ++ new) with
      | error e' => exact ⟨e, rfl⟩
      | ok p =>
        rw [hfrun] at hfa
        obtain ⟨more, hmore, -⟩ := hfa
        refine ⟨new ++ more, by rw [hmore, List.append_assoc], ?_⟩
        rw [List.mapM_append, hnew]
        rfl
    | ok new' =>
      rw [hnew] at hxs
      obtain ⟨b, hb, hρ⟩ := hxs
      rw [hb]
      have hsize : (s' ++ new').length = (s ++ new).length := by
        rw [List.length_append, List.length_append, hlength, (mapM_eq_ok.mp hnew).length_eq]
      have hfa := hf a b hρ (s ++ new) (s' ++ new') hsize
      show match f a (s ++ new) with
        | .error _ => ∃ e', g b (s' ++ new') = .error e'
        | .ok (c, t) => _
      cases hfrun : f a (s ++ new) with
      | error e' =>
        rw [hfrun] at hfa
        exact hfa
      | ok p =>
        rw [hfrun] at hfa
        obtain ⟨more, hmore, hfa⟩ := hfa
        refine ⟨new ++ more, by rw [hmore, List.append_assoc], ?_⟩
        rw [List.mapM_append, hnew]
        cases hmap : more.mapM κ with
        | error e' =>
          rw [hmap] at hfa
          exact hfa
        | ok more' =>
          rw [hmap] at hfa
          obtain ⟨c, hc, hτ⟩ := hfa
          exact ⟨c, by rw [← List.append_assoc]; exact hc, hτ⟩

theorem map {x y : Numbering α} {f : α → γ} (hx : Mirrors κ ρ x y)
    (hf : ∀ a b, ρ b = ρ a → τ (f b) = τ (f a)) : Mirrors κ τ (f <$> x) (f <$> y) := by
  rw [map_eq_pure_bind, map_eq_pure_bind]
  exact bind hx fun a b h => pure (hf a b h)

end Mirrors

/-! ## Single markers -/

/-- The slot that a marker takes where these literals are known. -/
def slotOf (literals : Option Bindings) (m : Marker) : Except QueryError Slot := do (← m.fill literals).slot

theorem number_of_unnumbered {literals : Option Bindings} {m : Marker} (hm : m.ordinal = none) (s : List Slot) :
    number literals m s = (do
      let filled ← m.fill literals
      let slot ← filled.slot
      .ok ({ filled with ordinal := some s.length }, s ++ [slot])) := by
  unfold number
  rw [hm]
  cases m.fill literals with
  | error e => rfl
  | ok filled =>
    change (do
      let slot ← (liftM filled.slot : Numbering Slot)
      let slots ← get
      set (slots ++ [slot])
      return { filled with ordinal := some slots.length } : Numbering Marker) s = (filled.slot >>= _)
    cases filled.slot <;> rfl

theorem number_of_error {literals : Option Bindings} {m : Marker} {e : QueryError} (hm : m.ordinal = none)
    (h : slotOf literals m = .error e) (s : List Slot) : number literals m s = .error e := by
  rw [number_of_unnumbered hm]
  unfold slotOf at h
  cases hfill : m.fill literals with
  | error e' =>
    rw [hfill] at h
    cases h
    rfl
  | ok filled =>
    rw [hfill] at h
    have hslot : filled.slot = .error e := h
    show (filled.slot >>= _) = _
    rw [hslot]
    rfl

theorem number_of_ok {literals : Option Bindings} {m : Marker} {slot : Slot} (hm : m.ordinal = none)
    (h : slotOf literals m = .ok slot) (s : List Slot) :
    ∃ m', number literals m s = .ok (m', s ++ [slot]) ∧ m'.ordinal = some s.length := by
  obtain ⟨filled, hfill, hslot⟩ := bind_eq_ok.mp h
  refine ⟨{ filled with ordinal := some s.length }, ?_, rfl⟩
  rw [number_of_unnumbered hm, hfill]
  show (filled.slot >>= _) = _
  rw [hslot]
  rfl

/-- Two markers mirror each other if `κ` gives the slot of the second. -/
theorem mirrors_number {literals literals' : Option Bindings} {m m' : Marker} (hm : m'.ordinal = m.ordinal)
    (h : slotOf literals' m' = slotOf literals m >>= κ) :
    Mirrors κ Marker.ordinal (number literals m) (number literals' m') := by
  cases hordinal : m.ordinal with
  | some n =>
    have hnumber : number literals m = Pure.pure m := by rw [number, hordinal]; rfl
    have hnumber' : number literals' m' = Pure.pure m' := by rw [number, hm, hordinal]; rfl
    rw [hnumber, hnumber']
    exact .pure hm
  | none =>
    rw [hordinal] at hm
    intro s s' hlength
    cases hslot : slotOf literals m with
    | error e =>
      rw [hslot] at h
      rw [number_of_error hordinal hslot]
      exact ⟨e, number_of_error hm h s'⟩
    | ok slot =>
      rw [hslot] at h
      obtain ⟨a, ha, hlast⟩ := number_of_ok hordinal hslot s
      rw [ha]
      refine ⟨[slot], rfl, ?_⟩
      cases hκ : κ slot with
      | error e =>
        rw [List.mapM_cons, hκ]
        exact number_of_error hm (h.trans hκ) s'
      | ok slot' =>
        obtain ⟨b, hb, hlast'⟩ := number_of_ok hm (h.trans hκ) s'
        rw [List.mapM_cons, hκ]
        exact ⟨b, hb, by rw [hlast, hlast', hlength]⟩

/-! ## One query, recast twice -/

/-- What is given mirrors itself under two recasts: a marker is numbered alike with the literals of either
side, and the literals of a select are those of its side. -/
def Mirrored (κ : Slot → Except QueryError Slot) (σ τ : Recast) (literals literals' : Option Bindings) :
    Given → Prop
  | .mark m => ∀ hint, Mirrors κ Marker.ordinal (number literals ((σ.mark m).typed hint))
      (number literals' ((τ.mark m).typed hint))
  | .literals b => (σ.literals b).or literals = literals ∧ (τ.literals b).or literals' = literals'

section

variable {σ τ : Recast} {literals literals' : Option Bindings}

theorem hint_recast (e : Expr) : (e.recast σ).hint = e.hint := by
  rw [Expr.hint, Expr.hint, Expr.underlying?_recast]

theorem expr_mark (literals : Option Bindings) (hint : Option Resolution) (m : Mark) :
    expr literals hint m.expr = (do return .marker (← number literals (m.typed hint))) := by
  cases m <;> rfl

/-- One marker. -/
theorem mirrors_mark {m : Mark} (h : Mirrored κ σ τ literals literals' (.mark m)) (hint : Option Resolution) :
    Mirrors κ (Expr.recast .numerals) (expr literals hint (σ.mark m).expr)
      (expr literals' hint (τ.mark m).expr) := by
  rw [expr_mark, expr_mark]
  refine .bind (h hint) fun a b hab => .pure ?_
  show Expr.marker { ordinal := b.ordinal } = .marker { ordinal := a.ordinal }
  rw [hab]

/-- All that is given in a list of contributions mirrors itself. -/
abbrev AllMirrored (κ : Slot → Except QueryError Slot) (σ τ : Recast) (literals literals' : Option Bindings)
    (gs : List Given) : Prop := ∀ g ∈ gs, Mirrored κ σ τ literals literals' g

mutual
theorem mirrors_expr {hint} : ∀ e : Expr,
    AllMirrored κ σ τ literals literals' (e.collect givens) →
    Mirrors κ (Expr.recast .numerals) (expr literals hint (e.recast σ)) (expr literals' hint (e.recast τ))
  | .ident _, _ | .literal _, _ => .pure rfl
  | .marker m, h => mirrors_mark (m := .anonymous m) (h _ (List.mem_singleton_self _)) hint
  | .named m, h => mirrors_mark (m := .named m) (h _ (List.mem_singleton_self _)) hint
  | .call _ _ args, h =>
    .bind (mirrors_exprs args h) fun _ _ hargs => .pure (by rw [Expr.recast, Expr.recast, hargs])
  | .list items, h =>
    .bind (mirrors_exprs items h) fun _ _ hitems => .pure (by rw [Expr.recast, Expr.recast, hitems])
  | .arith _ l r, h | .compare _ l r, h | .logic _ l r, h => by
    obtain ⟨hl, hr⟩ := List.forall_mem_append.mp h
    simp only [Expr.recast, expr, hint_recast]
    exact .bind (mirrors_expr l hl) fun _ _ hl' => .bind (mirrors_expr r hr) fun _ _ hr' =>
      .pure (by rw [Expr.recast, Expr.recast, hl', hr'])
  | .unary _ e, h => by
    rw [Expr.collect] at h
    exact .bind (mirrors_expr e h) fun _ _ he => .pure (by rw [Expr.recast, Expr.recast, he])
  | .case o bs e, h => by
    simp only [Expr.collect, List.forall_mem_append] at h
    exact .bind (mirrors_optExpr o h.1.1) fun _ _ ho => .bind (mirrors_branches bs h.1.2) fun _ _ hbs =>
      .bind (mirrors_optExpr e h.2) fun _ _ he => .pure (by rw [Expr.recast, Expr.recast, ho, hbs, he])
  | .subquery s, h =>
    .bind (mirrors_select s h) fun _ _ hs => .pure (by rw [Expr.recast, Expr.recast, hs])
theorem mirrors_exprs {hint} : ∀ es : List Expr,
    AllMirrored κ σ τ literals literals' (collectExprs givens es) →
    Mirrors κ (recastExprs .numerals) (exprs literals hint (recastExprs σ es))
      (exprs literals' hint (recastExprs τ es))
  | [], _ => .pure rfl
  | e :: es, h => by
    obtain ⟨he, hes⟩ := List.forall_mem_append.mp h
    exact .bind (mirrors_expr e he) fun _ _ he' => .bind (mirrors_exprs es hes) fun _ _ hes' =>
      .pure (by rw [recastExprs, recastExprs, he', hes'])
theorem mirrors_optExpr : ∀ o : Option Expr, AllMirrored κ σ τ literals literals' (collectOpt givens o) →
    Mirrors κ (recastOpt .numerals) (optExpr literals (recastOpt σ o)) (optExpr literals' (recastOpt τ o))
  | none, _ => .pure rfl
  | some e, h => .bind (mirrors_expr e h) fun _ _ he => .pure (by rw [recastOpt, recastOpt, he])
theorem mirrors_branches : ∀ bs : List Branch,
    AllMirrored κ σ τ literals literals' (collectBranches givens bs) →
    Mirrors κ (recastBranches .numerals) (branches literals (recastBranches σ bs))
      (branches literals' (recastBranches τ bs))
  | [], _ => .pure rfl
  | ⟨c, r⟩ :: bs, h => by
    simp only [collectBranches, List.forall_mem_append] at h
    exact .bind (mirrors_expr c h.1.1) fun _ _ hc => .bind (mirrors_expr r h.1.2) fun _ _ hr =>
      .bind (mirrors_branches bs h.2) fun _ _ hbs => .pure (by rw [recastBranches, recastBranches, hc, hr, hbs])
theorem mirrors_fields : ∀ fs : List ResultField,
    AllMirrored κ σ τ literals literals' (collectFields givens fs) →
    Mirrors κ (recastFields .numerals) (fields literals (recastFields σ fs))
      (fields literals' (recastFields τ fs))
  | [], _ => .pure rfl
  | ⟨e, _⟩ :: fs, h => by
    obtain ⟨he, hfs⟩ := List.forall_mem_append.mp h
    exact .bind (mirrors_expr e he) fun _ _ he' => .bind (mirrors_fields fs hfs) fun _ _ hfs' =>
      .pure (by rw [recastFields, recastFields, he', hfs'])
theorem mirrors_orders : ∀ os : List OrderItem,
    AllMirrored κ σ τ literals literals' (collectOrders givens os) →
    Mirrors κ (recastOrders .numerals) (orders literals (recastOrders σ os))
      (orders literals' (recastOrders τ os))
  | [], _ => .pure rfl
  | ⟨e, _⟩ :: os, h => by
    obtain ⟨he, hos⟩ := List.forall_mem_append.mp h
    exact .bind (mirrors_expr e he) fun _ _ he' => .bind (mirrors_orders os hos) fun _ _ hos' =>
      .pure (by rw [recastOrders, recastOrders, he', hos'])
theorem mirrors_table : ∀ t : Table, AllMirrored κ σ τ literals literals' (t.collect givens) →
    Mirrors κ (Table.recast .numerals) (table literals (t.recast σ)) (table literals' (t.recast τ))
  | .named _ _, _ => .pure rfl
  | .derived s _, h => .bind (mirrors_select s h) fun _ _ hs => .pure (by rw [Table.recast, Table.recast, hs])
theorem mirrors_optTable : ∀ t : Option Table,
    AllMirrored κ σ τ literals literals' (collectOptTable givens t) →
    Mirrors κ (recastOptTable .numerals) (optTable literals (recastOptTable σ t))
      (optTable literals' (recastOptTable τ t))
  | none, _ => .pure rfl
  | some t, h => .bind (mirrors_table t h) fun _ _ ht => .pure (by rw [recastOptTable, recastOptTable, ht])
theorem mirrors_joins : ∀ js : List Join,
    AllMirrored κ σ τ literals literals' (collectJoins givens js) →
    Mirrors κ (recastJoins .numerals) (joins literals (recastJoins σ js)) (joins literals' (recastJoins τ js))
  | [], _ => .pure rfl
  | ⟨_, t, c, _⟩ :: js, h => by
    simp only [collectJoins, List.forall_mem_append] at h
    exact .bind (mirrors_table t h.1.1) fun _ _ ht => .bind (mirrors_optExpr c h.1.2) fun _ _ hc =>
      .bind (mirrors_joins js h.2) fun _ _ hjs => .pure (by rw [recastJoins, recastJoins, ht, hc, hjs])
theorem mirrors_unions : ∀ us : List UnionPart,
    AllMirrored κ σ τ literals literals' (collectUnions givens us) →
    Mirrors κ (recastUnions .numerals) (unions literals (recastUnions σ us))
      (unions literals' (recastUnions τ us))
  | [], _ => .pure rfl
  | ⟨_, s⟩ :: us, h => by
    obtain ⟨hs, hus⟩ := List.forall_mem_append.mp h
    exact .bind (mirrors_select s hs) fun _ _ hs' => .bind (mirrors_unions us hus) fun _ _ hus' =>
      .pure (by rw [recastUnions, recastUnions, hs', hus'])
theorem mirrors_select : ∀ s : Select, AllMirrored κ σ τ literals literals' (s.collect givens) →
    Mirrors κ (Select.recast .numerals) (select literals (s.recast σ)) (select literals' (s.recast τ))
  | ⟨_, fs, t, js, c, gs, hv, os, l, o, us, f⟩, h => by
    simp only [Select.collect, givens_paging, List.forall_mem_append] at h
    obtain ⟨⟨⟨⟨⟨⟨⟨⟨⟨hf, hfs⟩, ht⟩, hjs⟩, hc⟩, hgs⟩, hhv⟩, hos⟩, hl, ho⟩, hus⟩ := h
    obtain ⟨hown, hown'⟩ : Mirrored κ σ τ literals literals' (.literals f.literals) :=
      hf _ (List.mem_singleton_self _)
    have hown : (f.recast σ).literals.or literals = literals := hown
    have hown' : (f.recast τ).literals.or literals' = literals' := hown'
    rw [Select.recast, Select.recast, select, select, hown, hown']
    refine .bind (mirrors_fields fs hfs) fun _ _ hfs => .bind (mirrors_optTable t ht) fun _ _ ht =>
      .bind (mirrors_joins js hjs) fun _ _ hjs => .bind (mirrors_optExpr c hc) fun _ _ hc =>
      .bind (mirrors_exprs gs hgs) fun _ _ hgs => .bind (mirrors_optExpr hv hhv) fun _ _ hhv =>
      .bind (mirrors_orders os hos) fun _ _ hos => .bind (mirrors_optExpr l hl) fun _ _ hl =>
      .bind (mirrors_optExpr o ho) fun _ _ ho => .bind (mirrors_unions us hus) fun _ _ hus => .pure ?_
    rw [Select.recast, Select.recast, hfs, ht, hjs, hc, hgs, hhv, hos, hl, ho, hus]
    rfl
end

theorem mirrors_rowItems : ∀ (cs es : List Expr),
    AllMirrored κ σ τ literals literals' (collectExprs givens es) →
    Mirrors κ (recastExprs .numerals) (rowItems literals (recastExprs σ cs) (recastExprs σ es))
      (rowItems literals' (recastExprs τ cs) (recastExprs τ es))
  | c :: cs, e :: es, h => by
    obtain ⟨he, hes⟩ := List.forall_mem_append.mp h
    simp only [recastExprs, rowItems, hint_recast]
    exact .bind (mirrors_expr e he) fun _ _ he' => .bind (mirrors_rowItems cs es hes) fun _ _ hes' =>
      .pure (by rw [recastExprs, recastExprs, he', hes'])
  | [], [], _ | _ :: _, [], _ => .pure rfl
  | [], e :: es, h => mirrors_exprs (e :: es) h

theorem row_mark (literals : Option Bindings) (cs : List Expr) (m : Mark) :
    row literals cs m.expr = expr literals none m.expr := by
  cases m <;> rfl

theorem mirrors_row (cs : List Expr) (e : Expr) (h : AllMirrored κ σ τ literals literals' (e.collect givens)) :
    Mirrors κ (Expr.recast .numerals) (row literals (recastExprs σ cs) (e.recast σ))
      (row literals' (recastExprs τ cs) (e.recast τ)) := by
  cases e with
  | list items =>
    exact .bind (mirrors_rowItems cs items h) fun _ _ hitems => .pure (by rw [Expr.recast, Expr.recast, hitems])
  | marker m =>
    rw [Expr.recast, Expr.recast, row_mark, row_mark]
    exact mirrors_expr (.marker m) h
  | named m =>
    rw [Expr.recast, Expr.recast, row_mark, row_mark]
    exact mirrors_expr (.named m) h
  | _ => exact mirrors_expr _ h

theorem mirrors_rows (cs : List Expr) : ∀ es : List Expr,
    AllMirrored κ σ τ literals literals' (collectExprs givens es) →
    Mirrors κ (recastExprs .numerals) (rows literals (recastExprs σ cs) (recastExprs σ es))
      (rows literals' (recastExprs τ cs) (recastExprs τ es))
  | [], _ => .pure rfl
  | e :: es, h => by
    obtain ⟨he, hes⟩ := List.forall_mem_append.mp h
    exact .bind (mirrors_row cs e he) fun _ _ he' => .bind (mirrors_rows cs es hes) fun _ _ hes' =>
      .pure (by rw [recastExprs, recastExprs, he', hes'])

theorem mirrors_assignments : ∀ as : List Assignment,
    AllMirrored κ σ τ literals literals' (collectAssignments givens as) →
    Mirrors κ (recastAssignments .numerals) (assignments literals (recastAssignments σ as))
      (assignments literals' (recastAssignments τ as))
  | [], _ => .pure rfl
  | ⟨t, v⟩ :: as, h => by
    simp only [collectAssignments, List.forall_mem_append] at h
    simp only [recastAssignments, assignments, hint_recast]
    exact .bind (mirrors_expr t h.1.1) fun _ _ ht => .bind (mirrors_expr v h.1.2) fun _ _ hv =>
      .bind (mirrors_assignments as h.2) fun _ _ has =>
      .pure (by rw [recastAssignments, recastAssignments, ht, hv, has])

theorem mirrors_insertSource (cs : List Expr) : ∀ s : InsertSource,
    AllMirrored κ σ τ literals literals' (s.collect givens) →
    Mirrors κ (InsertSource.recast .numerals) (insertSource literals (recastExprs σ cs) (s.recast σ))
      (insertSource literals' (recastExprs τ cs) (s.recast τ))
  | .values rs, h =>
    .bind (mirrors_rows cs rs h) fun _ _ hrs => .pure (by rw [InsertSource.recast, InsertSource.recast, hrs])
  | .select s, h =>
    .bind (mirrors_select s h) fun _ _ hs => .pure (by rw [InsertSource.recast, InsertSource.recast, hs])

end

/-- A select's own literals hide those around it. -/
theorem select_own {s : Select} {outer outer' : Option Bindings}
    (h : s.facts.literals.or outer = s.facts.literals.or outer') : select outer s = select outer' s := by
  cases s
  rw [select, select, show _ = _ from h]

/-- **Two numberings of one query mirror each other** where all that is given does. -/
theorem mirrors_statement {σ τ : Recast} {q : Query}
    (h : AllMirrored κ σ τ (σ.literals q.facts.literals) (τ.literals q.facts.literals) (q.collect givens)) :
    Mirrors κ (Query.recast .numerals) (statement (q.recast σ)) (statement (q.recast τ)) := by
  cases q with
  | select s =>
    have htop : ∀ {ν : Recast},
        select none (s.recast ν) = select (ν.literals s.facts.literals) (s.recast ν) := by
      intro ν
      refine select_own ?_
      rw [Select.facts_recast]
      show (ν.literals s.facts.literals).or none
        = (ν.literals s.facts.literals).or (ν.literals s.facts.literals)
      cases ν.literals s.facts.literals <;> rfl
    refine .map (ρ := Select.recast .numerals) ?_ fun _ _ hs => by rw [Query.recast, Query.recast, hs]
    rw [htop, htop]
    exact mirrors_select s h
  | insert i =>
    simp only [Query.collect, Insert.collect, givens_returned, List.forall_mem_append] at h
    refine .map (ρ := Insert.recast .numerals) ?_ fun _ _ hi => by rw [Query.recast, Query.recast, hi]
    refine .bind (mirrors_table i.table h.1.1.1.2) fun _ _ ht => .bind (mirrors_exprs i.columns h.1.1.2)
      fun _ _ hcs => .bind (mirrors_insertSource i.columns i.source h.1.2) fun _ _ hs =>
      .bind (mirrors_fields i.returning h.2) fun _ _ hfs => .pure ?_
    rw [Insert.recast, Insert.recast, ht, hcs, hs, hfs]
    rfl
  | update u =>
    simp only [Query.collect, Update.collect, givens_paging, List.forall_mem_append] at h
    refine .map (ρ := Update.recast .numerals) ?_ fun _ _ hu => by rw [Query.recast, Query.recast, hu]
    refine .bind (mirrors_table u.table h.1.1.1.1.2) fun _ _ ht =>
      .bind (mirrors_assignments u.assignments h.1.1.1.2) fun _ _ has =>
      .bind (mirrors_optExpr u.criteria h.1.1.2) fun _ _ hc =>
      .bind (mirrors_orders u.ordering h.1.2) fun _ _ hos =>
      .bind (mirrors_optExpr u.limit h.2.1) fun _ _ hl => .bind (mirrors_optExpr u.offset h.2.2) fun _ _ ho =>
      .pure ?_
    rw [Update.recast, Update.recast, ht, has, hc, hos, hl, ho]
    rfl
  | delete d =>
    simp only [Query.collect, Delete.collect, givens_paging, List.forall_mem_append] at h
    refine .map (ρ := Delete.recast .numerals) ?_ fun _ _ hd => by rw [Query.recast, Query.recast, hd]
    refine .bind (mirrors_table d.table h.1.1.1.2) fun _ _ ht => .bind (mirrors_optExpr d.criteria h.1.1.2)
      fun _ _ hc => .bind (mirrors_orders d.ordering h.1.2) fun _ _ hos =>
      .bind (mirrors_optExpr d.limit h.2.1) fun _ _ hl => .bind (mirrors_optExpr d.offset h.2.2) fun _ _ ho =>
      .pure ?_
    rw [Delete.recast, Delete.recast, ht, hc, hos, hl, ho]
    rfl

end Parameters

end EntitySql
