import Mathlib
import EntitySql.Proofs.Gathering
import EntitySql.Proofs.Origins
import EntitySql.Proofs.Parts

/-!
# Resolution keeps queries well formed

A query stays well formed through all passes, with checks that may change from one pass to the next
(`Query.Stages`). What the third pass splices in are filters of relations, which have to pass the checks of
the query they come into.

* `Query.Stages.resolve_formed`: the resolved query passes the checks of the last pass.
-/

namespace EntitySql

open Outcome

/-! ## Filters -/

namespace Joins

section

variable {c : Checks} {label : String}
  (hident : ∀ i, c.ident i → i.qualifier?.isNone && !i.isWildcard →
    c.ident { i with value := label ++ "." ++ i.value })

include hident

set_option linter.unusedSectionVars false

theorem precedence_qualify (e : Expr) : (qualify label e).precedence = e.precedence := by
  cases e with
  | ident i =>
    rw [qualify]
    split <;> rfl
  | _ => rfl

theorem isGroup_qualify (e : Expr) : (qualify label e).isGroup = e.isGroup := by
  cases e with
  | ident i =>
    rw [qualify]
    split <;> rfl
  | _ => rfl

theorem eq_literal_of_qualify {e : Expr} {l : Literal} (h : qualify label e = .literal l) :
    e = .literal l := by
  cases e with
  | ident i =>
    rw [qualify] at h
    split at h <;> cases h
  | literal l => exact h
  | _ => cases h

theorem length_qualifyAll (es : List Expr) : (qualifyAll label es).length = es.length := by
  induction es with
  | nil => rfl
  | cons e es ih => exact congrArg (· + 1) ih

mutual
theorem formed_qualify : ∀ e : Expr, e.Formed c → (qualify label e).Formed c
  | .ident i, h => by
    rw [qualify]
    split
    · next hbare => exact hident i h hbare
    · exact h
  | .literal _, h | .marker _, h | .named _, h | .subquery _, h => h
  | .call _ _ args, h => ⟨h.1, formed_qualifyAll args h.2⟩
  | .list items, h => ⟨(length_qualifyAll hident items).symm ▸ h.1, formed_qualifyAll items h.2⟩
  | .arith _ l r, h => ⟨formed_qualify l h.1, formed_qualify r h.2⟩
  | .logic _ l r, h => ⟨formed_qualify l h.1, formed_qualify r h.2⟩
  | .compare _ l r, ⟨hop, hl, hno, hyes⟩ =>
    ⟨hop, formed_qualify l hl, fun hm => formed_qualify r (hno hm),
      fun hm => ⟨member_qualify r (hyes hm).1, (precedence_qualify hident r).symm ▸ (hyes hm).2⟩⟩
  | .unary .not e, h => (formed_qualify e h :)
  | .unary .negate e, h => ⟨formed_qualify e h.1, fun l hl => h.2 l (eq_literal_of_qualify hident hl)⟩
  | .case o bs e, ⟨ho, hne, hbs, he⟩ => by
    refine ⟨formed_qualifyOpt o ho, ?_, formed_qualifyBranches bs hbs, formed_qualifyOpt e he⟩
    match bs, hne with
    | ⟨_, _⟩ :: _, _ => exact List.cons_ne_nil _ _
theorem member_qualify : ∀ e : Expr, e.FormedMember c → (qualify label e).FormedMember c
  | .list items, ⟨hne, hone, h⟩ => by
    refine ⟨fun hnil => hne ?_, ?_, formed_qualifyAll items h⟩
    · exact List.length_eq_zero_iff.mp ((length_qualifyAll hident items).symm.trans
        (List.length_eq_zero_iff.mpr hnil))
    · intro e he
      match items, he with
      | [e₁], he =>
        cases he
        rw [isGroup_qualify hident]
        exact hone e₁ rfl
  | .subquery _, h => h
  | .arith _ l r, h => ⟨member_qualify l h.1, (precedence_qualify hident l).symm ▸ h.2.1, formed_qualify r h.2.2⟩
theorem formed_qualifyAll : ∀ es, ExprsFormed c es → ExprsFormed c (qualifyAll label es)
  | [], _ => trivial
  | e :: es, h => ⟨formed_qualify e h.1, formed_qualifyAll es h.2⟩
theorem formed_qualifyOpt : ∀ o, OptFormed c o → OptFormed c (qualifyOpt label o)
  | none, _ => trivial
  | some e, h => formed_qualify e h
theorem formed_qualifyBranches : ∀ bs, BranchesFormed c bs → BranchesFormed c (qualifyBranches label bs)
  | [], _ => trivial
  | ⟨cond, r⟩ :: bs, h => ⟨formed_qualify cond h.1, formed_qualify r h.2.1, formed_qualifyBranches bs h.2.2⟩
end

end

variable {A : Entity → Bool} {schema : Schema} {c c' : Checks}

/-- A filter passes the checks that it meets as it is read, if its bare names may be qualified. -/
theorem Restricts.formed {V : Vocabulary} {Q : Part → Prop} (hV : V.Meets Q c) {rel : Relation}
    {label : String} {r : Expr} (h : Restricts A rel label r)
    (hident : ∀ i, c.ident i → i.qualifier?.isNone && !i.isWildcard →
      c.ident { i with value := label ++ "." ++ i.value })
    (hread : ∀ text x, rel.filter = some text → Expr.ofDetached text = .ok x →
      x.Shaped V ∧ ∀ part ∈ x.parts, Q part) : r.Formed c := by
  obtain ⟨-, text, x, htext, hx, rfl⟩ := h
  obtain ⟨hshaped, hparts⟩ := hread text x htext hx
  exact formed_qualify hident x (hshaped.formed hV x hparts)

/-- What was made of a filter is well formed, if the alias that qualifies its names passes the checks. -/
def Completed (c : Checks) (label : String) (x : Expr) : Prop := c.label label → x.Formed c

/-- Filters that pass the checks before the joins in them are completed pass those after it, to any
depth. -/
theorem yields_filter (hcarries : (edit schema A (Completed c')).Carries c c')
    (hfilters : ∀ ⦃rel label r⦄, Restricts A rel label r → c'.label label → r.Formed c) :
    ∀ budget, FilterYields A (Completed c') (filter schema budget)
  | 0, _, _, _, _, _, _, _, h => by cases h
  | budget + 1, _, _, _, r, _, hscopes, hr, h => fun hlabel =>
    hcarries.expr r (fun _ hs => absurd hs List.not_mem_nil)
      ((makes (yields_filter hcarries hfilters budget) fun _ => trivial).edited_expr r ⟨[], false⟩ hscopes
        (strangers_of_restricts hr) h) (hfilters hr hlabel)

/-- The joins that complete a join are well formed if the equations of keys are and the link table is. -/
theorem Completes.formed {j : Join} {new : List Join} (h : Completes schema A (Completed c) j new)
    (ht : j.table.Formed c true) (hjoin : c.join true j.path) (hlink : c.join true none)
    (hnames : ∀ path rel link keys, Connects schema A j path rel link keys →
      (∀ k, Equates [j.table.label.getD path.relation, path.source, path.source ++ "_" ++ path.relation] k →
        k.Formed c)
      ∧ ∀ table a b, rel.link = .junction table a b →
        c.table true table ∧ c.label (path.source ++ "_" ++ path.relation))
    (hlabel : ∀ path, j.path = some path → c.label (j.table.label.getD path.relation) := by intros; trivial) :
    JoinsFormed c new := by
  obtain ⟨hconnects, hr⟩ := h
  obtain ⟨hequates, htables⟩ := hnames _ _ _ _ hconnects
  obtain ⟨hkeys, hlinks⟩ := hconnects.equates
  refine joinsFormed_iff.mpr fun l hl => ?_
  rcases List.mem_append.mp hl with hl | hl
  · obtain ⟨table, a, b, k, hrel, hk, rfl⟩ := hlinks l (Option.mem_toList.mp hl)
    obtain ⟨htable, hlabel⟩ := htables table a b hrel
    refine ⟨⟨htable, ?_⟩, hequates k hk, hlink⟩
    rintro _ ⟨⟩
    exact hlabel
  · cases List.mem_singleton.mp hl
    refine ⟨ht, ?_, hjoin⟩
    unfold Completion.condition
    split
    · next hsome => exact ⟨hequates _ hkeys, hr _ hsome (hlabel _ hconnects.pending.1)⟩
    · exact hequates _ hkeys

end Joins

/-- The fields that a wildcard is expanded to are columns of the sources it means. -/
theorem Results.formed_expansion {c : Checks} {ss : Sources} {f : ResultField} {xs : List ResultField}
    (hleaf : ∀ s ∈ ss.toList, ∀ path p qualify, s.Declares path p → (leaf s qualify path p).expr.Formed c)
    (h : expansion ss f = .ok (some xs)) : FieldsFormed c xs := by
  obtain ⟨i, means, qualify, -, -, hmeant, -, rfl⟩ := expansion_eq_some h
  refine fieldsFormed_iff.mpr fun x hx => ?_
  obtain ⟨s, hs, hx⟩ := List.mem_flatMap.mp hx
  obtain ⟨path, p, hdecl, rfl⟩ := mem_ofSource hx
  exact ⟨hleaf s (mem_of_meant hmeant s hs) path p qualify hdecl, nofun⟩

/-! ## All passes -/

theorem Query.Edited.facts {d : Edit} {q q' : Query} (h : q.Edited d q') :
    ∃ ts, d.facts ts q.facts q'.facts := by
  cases h with
  | select h =>
    obtain ⟨-, -, -, -, -, -, -, -, -, -, hf⟩ := h
    exact ⟨_, hf⟩
  | insert _ _ _ _ hf | update _ _ _ _ _ _ hf | delete _ _ _ _ _ hf => exact ⟨_, hf⟩

/-- The checks of a query on its way through the passes: as it is read, with mapped tables, with completed
joins, with resolved names, with expanded wildcards, and in the end. -/
structure Query.Stages (n : Naming) (A : Entity → Bool) (read mapped joined named expanded final : Checks) :
    Prop where
  sources : n.edit.Carries read mapped
  derived : Derived.edit.Carries mapped mapped
  joins : (Joins.edit n.schema A (Joins.Completed joined)).Carries mapped joined
  filters : ∀ ⦃rel label r⦄, Joins.Restricts A rel label r → joined.label label → r.Formed mapped
  columns : Columns.edit.Carries joined named
  results : Results.edit.Carries named expanded
  parameters : Parameters.edit.Carries expanded final

section

variable {n : Naming} {A : Entity → Bool} {q r : Query}

/-- The resolved query of a text. -/
def Query.resolved? (n : Naming) (text : String) : Option Query := do
  let q ← (Query.ofText text).toOption
  (q.resolve n).toOption

theorem Query.resolved?_eq_some {text : String} (h : resolved? n text = some r) :
    ∃ q, Query.ofText text = .ok q ∧ q.resolve n = .ok r := by
  unfold resolved? at h
  cases hq : Query.ofText text with
  | error e => rw [hq] at h; cases h
  | ok q =>
    rw [hq] at h
    change (q.resolve n).toOption = some r at h
    refine ⟨q, rfl, ?_⟩
    cases hr : q.resolve n with
    | error e => rw [hr] at h; cases h
    | ok r' =>
      rw [hr] at h
      exact congrArg _ (Option.some.inj h)

/-- The passes that complete joins lead from the first query to the second. -/
def Query.Joined (n : Naming) (q j : Query) : Prop :=
  [Pass.sources, .derived, .joins].foldlM (fun q p => p.run n q) q = .ok j

theorem Query.resolve_joined (h : q.resolve n = .ok r) :
    ∃ j, q.Joined n j ∧ ∃ k, Columns.sweep.query j = .ok k ∧ ∃ l, Results.query k = .ok l
      ∧ Parameters.query l = .ok r := by
  have hall : Pass.all = [Pass.sources, .derived, .joins] ++ [.columns, .results, .parameters] := rfl
  rw [resolve, hall, List.foldlM_append, bind_eq_ok] at h
  obtain ⟨j, hj, h⟩ := h
  simp only [List.foldlM_cons, List.foldlM_nil, Pass.run, bind_eq_ok, pure_eq_ok,
    Joins.lift_query_eq_ok] at h
  obtain ⟨k, hk, l, hl, r', hr, rfl⟩ := h
  exact ⟨j, hj, k, hk, l, hl, hr⟩

theorem Query.joined_eq_ok {j : Query} (h : q.Joined n j) :
    ∃ k, n.sweep.query q = .ok k ∧ ∃ l, Derived.sweep.query k = .ok l ∧ Joins.query n.schema l = .ok j := by
  simp only [Joined, List.foldlM_cons, List.foldlM_nil, Pass.run, bind_eq_ok, pure_eq_ok,
    Joins.lift_query_eq_ok] at h
  obtain ⟨k, hk, l, hl, j', hj, rfl⟩ := h
  exact ⟨k, hk, l, hl, hj⟩

variable (hA : ∀ e ∈ n.schema.entities, A e = true) (hq : q.collect (strangers A) = [])

include hA hq

theorem Query.Joined.familiar {k l : Query} (hk : n.sweep.query q = .ok k)
    (hl : Derived.sweep.query k = .ok l) : l.collect (strangers A) = [] :=
  strangers_of_sources hA hq hk hl

theorem Query.Joined.labels {j : Query} (h : q.Joined n j) : j.facts.labels = q.facts.labels := by
  obtain ⟨k, hk, l, hl, hj⟩ := joined_eq_ok h
  obtain ⟨_, hfk⟩ := (Naming.edited hk).facts
  obtain ⟨_, hfl⟩ := (Derived.edited hl).facts
  obtain ⟨_, hfj⟩ := (Joins.edited (K := fun _ _ => True) (fun _ _ _ _ _ _ _ _ => trivial) (fun _ => trivial)
    (Joined.familiar hA hq hk hl) hj).facts
  rw [hfj.labels, hfl.gains.labels, hfk.labels]

variable {read mapped joined named expanded final : Checks}
  (hs : Query.Stages n A read mapped joined named expanded final)

include hs

theorem Query.Stages.joined_formed {j : Query} (hf : q.Formed read) (h : q.Joined n j) : j.Formed joined := by
  obtain ⟨k, hk, l, hl, hj⟩ := joined_eq_ok h
  have hyields := Joins.yields_filter hs.joins hs.filters (Joins.nestingBound n.schema)
  exact hs.joins.query (Joins.edited hyields (fun _ => trivial) (Joined.familiar hA hq hk hl) hj)
    (hs.derived.query (Derived.edited hl) (hs.sources.query (Naming.edited hk) hf))

/-- **A resolved query is well formed** if it was when it was read. -/
theorem Query.Stages.resolve_formed (hlabels : q.facts.labels = []) (hf : q.Formed read)
    (h : q.resolve n = .ok r) : r.Formed final := by
  obtain ⟨j, hj, k, hk, l, hl, hr⟩ := resolve_joined h
  have hjl : j.facts.labels = [] := (Joined.labels hA hq hj).trans hlabels
  exact hs.parameters.query (Parameters.edited hr) (hs.results.query (Results.edited hl)
    (hs.columns.query (Columns.edited hjl hk) (hs.joined_formed hA hq hf hj)))

end

end EntitySql
