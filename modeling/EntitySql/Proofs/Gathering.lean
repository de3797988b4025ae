import Mathlib
import EntitySql.Proofs.Expansions

/-!
# What a collector gathers after the passes

The passes before the numbering of parameters change names, add joins and fields, and note facts. A
collector that does not look at what they note (`Collector.Steady`) gathers what it did before, with
contributions of filters inserted (`Grown`). An edit that has this effect is stated once
(`Collector.edit`), and every pass is shown to make it.

* `Query.Edited.grown`: what is gathered after such an edit.
* `Query.Prepares.grown`: the same of all passes before the numbering of parameters.
-/

namespace EntitySql

open Outcome

variable {α : Type} {A : Entity → Bool} {K : α → Prop} {k : Collector α}

/-- Markers stay, facts are the same to the collector, and joins and fields that are put in contribute
nothing but what satisfies `K`. -/
def Collector.edit (k : Collector α) (K : α → Prop) : Edit where
  ident _ _ _ := True
  table _ _ _ := True
  complete j new := Grown K (j.table.collect k ++ collectOpt k j.condition) (collectJoins k new)
  expand _ f xs := f.expr.collect k = [] ∧ collectFields k xs = []
  facts _ f f' := k.facts f' = k.facts f

/-! ## Trees -/

section

variable (hk : k.Steady A)

include hk

set_option linter.unusedSectionVars false

mutual
theorem Expr.Edited.grown {p} : ∀ (e : Expr) {e'}, e.Edited (k.edit K) p e' → Grown K (e.collect k) (e'.collect k)
  | .ident _, _, .ident _ | .literal _, _, .literal _ => .nil
  | .marker _, _, .marker hm | .named _, _, .named hm => by
    cases hm
    exact .refl _
  | .named _, _, .replaced hm => by cases hm
  | .call _ _ args, _, .call _ _ hargs => ExprsEdited.grown args hargs
  | .list items, _, .list hitems => ExprsEdited.grown items hitems
  | .arith _ l r, _, .arith _ hl hr | .compare _ l r, _, .compare _ hl hr
  | .logic _ l r, _, .logic _ hl hr => (Expr.Edited.grown l hl).append (Expr.Edited.grown r hr)
  | .unary _ e, _, .unary _ he => (Expr.Edited.grown e he :)
  | .case o bs e, _, .case ho hbs he =>
    ((OptEdited.grown o ho).append (BranchesEdited.grown bs hbs)).append (OptEdited.grown e he)
  | .subquery s, _, .subquery hs => Select.Edited.grown s hs
theorem ExprsEdited.grown {p} : ∀ (es : List Expr) {es'}, ExprsEdited (k.edit K) p es es' →
    Grown K (collectExprs k es) (collectExprs k es')
  | [], _, .nil => .nil
  | e :: es, _, .cons he hes => (Expr.Edited.grown e he).append (ExprsEdited.grown es hes)
theorem OptEdited.grown {p} : ∀ (o : Option Expr) {o'}, OptEdited (k.edit K) p o o' →
    Grown K (collectOpt k o) (collectOpt k o')
  | none, _, .none => .nil
  | some e, _, .some he => Expr.Edited.grown e he
theorem BranchesEdited.grown {p} : ∀ (bs : List Branch) {bs'}, BranchesEdited (k.edit K) p bs bs' →
    Grown K (collectBranches k bs) (collectBranches k bs')
  | [], _, .nil => .nil
  | ⟨c, r⟩ :: bs, _, .cons hc hr hbs =>
    ((Expr.Edited.grown c hc).append (Expr.Edited.grown r hr)).append (BranchesEdited.grown bs hbs)
theorem FieldsEdited.grown {p} : ∀ (fs : List ResultField) {fs'}, FieldsEdited (k.edit K) p fs fs' →
    Grown K (collectFields k fs) (collectFields k fs')
  | [], _, .nil => .nil
  | ⟨e, _⟩ :: fs, _, .keep _ he hfs => (Expr.Edited.grown e he).append (FieldsEdited.grown fs hfs)
  | ⟨e, _⟩ :: fs, _, .expand hx hfs => by
    obtain ⟨hnone, hxs⟩ := hx
    rw [collectFields_append, hxs, collectFields, (hnone : e.collect k = [])]
    exact (FieldsEdited.grown fs hfs :)
theorem OrdersEdited.grown {p} : ∀ (os : List OrderItem) {os'}, OrdersEdited (k.edit K) p os os' →
    Grown K (collectOrders k os) (collectOrders k os')
  | [], _, .nil => .nil
  | ⟨e, _⟩ :: os, _, .cons _ he hos => (Expr.Edited.grown e he).append (OrdersEdited.grown os hos)
theorem Table.Edited.grown {joined} : ∀ (t : Table) {t'}, t.Edited (k.edit K) joined t' →
    Grown K (t.collect k) (t'.collect k)
  | .named _ _, _, .named _ => .nil
  | .derived s _, _, .derived _ _ hs => Select.Edited.grown s hs
theorem OptTableEdited.grown : ∀ (t : Option Table) {t'}, OptTableEdited (k.edit K) t t' →
    Grown K (collectOptTable k t) (collectOptTable k t')
  | none, _, .none => .nil
  | some t, _, .some ht => Table.Edited.grown t ht
theorem JoinsEdited.grown {p} : ∀ (js : List Join) {js'}, JoinsEdited (k.edit K) p js js' →
    Grown K (collectJoins k js) (collectJoins k js')
  | [], _, .nil => .nil
  | ⟨_, t, c, _⟩ :: js, _, .keep _ ht hc hjs =>
    ((Table.Edited.grown t ht).append (OptEdited.grown c hc)).append (JoinsEdited.grown js hjs)
  | ⟨kind, t, c, path⟩ :: js, _, .complete ht hnew hjs => by
    rw [collectJoins_append]
    exact (((Table.Edited.grown t ht).append (.refl _)).trans hnew).append (JoinsEdited.grown js hjs)
theorem UnionsEdited.grown : ∀ (us : List UnionPart) {us'}, UnionsEdited (k.edit K) us us' →
    Grown K (collectUnions k us) (collectUnions k us')
  | [], _, .nil => .nil
  | ⟨_, s⟩ :: us, _, .cons _ _ hs hus => (Select.Edited.grown s hs).append (UnionsEdited.grown us hus)
theorem Select.Edited.grown {visible} : ∀ (s : Select) {s'}, s.Edited (k.edit K) visible s' →
    Grown K (s.collect k) (s'.collect k)
  | ⟨_, fs, t, js, c, gs, hv, os, l, o, us, f⟩, _, .mk hfs ht hjs hc hgs hhv hos hl ho hus hf => by
    simp only [Select.collect, hk.paging]
    exact (((((((((Grown.of_eq hf).append (FieldsEdited.grown fs hfs)).append (OptTableEdited.grown t ht)).append
      (JoinsEdited.grown js hjs)).append (OptEdited.grown c hc)).append (ExprsEdited.grown gs hgs)).append
      (OptEdited.grown hv hhv)).append (OrdersEdited.grown os hos)).append
      ((OptEdited.grown l hl).append (OptEdited.grown o ho))).append (UnionsEdited.grown us hus)
end

theorem AssignmentsEdited.grown : ∀ {as as' : List Assignment} {p}, AssignmentsEdited (k.edit K) p as as' →
    Grown K (collectAssignments k as) (collectAssignments k as')
  | [], _, _, .nil => .nil
  | ⟨t, v⟩ :: _, _, _, .cons ht hv has =>
    ((Expr.Edited.grown hk t ht).append (Expr.Edited.grown hk v hv)).append has.grown

theorem InsertSource.Edited.grown {p : Spot} : ∀ {s s' : InsertSource}, s.Edited (k.edit K) p s' →
    Grown K (s.collect k) (s'.collect k)
  | .values rows, _, .values hrows => ExprsEdited.grown hk rows hrows
  | .select s, _, .select _ hs => Select.Edited.grown hk s hs

/-- **Such an edit only inserts what satisfies `K`**, and nothing into the facts of the query itself. -/
theorem Query.Edited.grown {q q' : Query} (h : q.Edited (k.edit K) q') :
    Grown K (q.collect k) (q'.collect k) ∧ k.facts q'.facts = k.facts q.facts := by
  cases h with
  | select hs =>
    refine ⟨Select.Edited.grown hk _ hs, ?_⟩
    obtain ⟨_, _, _, _, _, _, _, _, _, _, hf⟩ := hs
    exact hf
  | insert ht hcs hs hfs hf =>
    refine ⟨?_, hf⟩
    simp only [Query.collect, Insert.collect, hk.returned]
    exact ((((Grown.of_eq hf).append (Table.Edited.grown hk _ ht)).append (ExprsEdited.grown hk _ hcs)).append
      (InsertSource.Edited.grown hk hs)).append (FieldsEdited.grown hk _ hfs)
  | update ht has hc hos hl ho hf =>
    refine ⟨?_, hf⟩
    simp only [Query.collect, Update.collect, hk.paging]
    exact (((((Grown.of_eq hf).append (Table.Edited.grown hk _ ht)).append (AssignmentsEdited.grown hk has)).append
      (OptEdited.grown hk _ hc)).append (OrdersEdited.grown hk _ hos)).append
      ((OptEdited.grown hk _ hl).append (OptEdited.grown hk _ ho))
  | delete ht hc hos hl ho hf =>
    refine ⟨?_, hf⟩
    simp only [Query.collect, Delete.collect, hk.paging]
    exact ((((Grown.of_eq hf).append (Table.Edited.grown hk _ ht)).append (OptEdited.grown hk _ hc)).append
      (OrdersEdited.grown hk _ hos)).append ((OptEdited.grown hk _ hl).append (OptEdited.grown hk _ ho))

/-! ## Passes -/

theorem Naming.gathers {n : Naming} (hA : ∀ e ∈ n.schema.entities, A e = true) :
    n.sweep.Makes (k.edit K) fun _ _ => True where
  refl _ := rfl
  trans hf hg := hg.trans hf
  mark _ := rfl
  keep _ := trivial
  opening _ _ := ⟨rfl, trivial⟩
  ident _ _ := trivial
  named _ h := by
    simp only [sweep, bind_eq_ok, pure_eq_ok] at h
    obtain ⟨⟨t', s⟩, hres, f', hadd, h⟩ := h
    cases h
    obtain ⟨name', label', rfl, -, hmaps⟩ := resolve_renames hres
    refine ⟨⟨name', label', rfl, trivial⟩, trivial, hk.source (fun e he => ?_) hadd⟩
    cases hmaps with
    | entity _ hmem =>
      cases he
      exact hA e hmem
    | raw _ _ _ => cases he
  derived _ h := by
    cases h
    exact ⟨rfl, trivial, rfl⟩
  alone _ := trivial

theorem Derived.gathers : Derived.sweep.Makes (k.edit K) fun _ _ => True where
  refl _ := rfl
  trans hf hg := hg.trans hf
  mark _ := rfl
  keep _ := trivial
  opening _ _ := ⟨rfl, trivial⟩
  ident _ _ := trivial
  named _ h := by
    cases h
    exact ⟨⟨_, _, rfl, trivial⟩, trivial, rfl⟩
  derived {joined scopes f s inner label t' f'} _ h := by
    cases label with
    | none => cases h
    | some label =>
      simp only [sweep, bind_eq_ok, pure_eq_ok] at h
      obtain ⟨ps, -, f', hadd, h⟩ := h
      cases h
      refine ⟨rfl, trivial, hk.source ?_ hadd⟩
      rintro _ ⟨⟩
  alone _ := trivial

theorem Columns.gathers : Columns.sweep.Makes (k.edit K) fun _ _ => True where
  refl _ := rfl
  trans hf hg := hg.trans hf
  mark _ := rfl
  keep _ := trivial
  opening _ f := ⟨hk.labels f _, trivial⟩
  ident _ _ := trivial
  named _ h := by
    cases h
    exact ⟨⟨_, _, rfl, trivial⟩, trivial, rfl⟩
  derived _ h := by
    cases h
    exact ⟨rfl, trivial, rfl⟩
  alone _ := trivial

theorem Results.gathers : Results.Makes (k.edit K) where
  ident _ _ := trivial
  named _ _ := trivial
  expand := collect_expansion
  noted _ {visible field f f'} h := by
    unfold register at h
    split at h
    · cases h
      rfl
    · simp only [bind_eq_ok] at h
      obtain ⟨⟨name, label⟩, -, h⟩ := h
      unfold Facts.addResult at h
      split at h <;> cases h
      exact hk.results f _

end

namespace Joins

/-- What a filter of an entity among `A` contributes satisfies `K`. -/
def FiltersGive (A : Entity → Bool) (K : α → Prop) (k : Collector α) : Prop :=
  ∀ ⦃e : Entity⦄, A e = true → ∀ ⦃name rel⦄, e.relation? name = some rel → ∀ ⦃text⦄,
    rel.filter = some text → ∀ ⦃x⦄, Expr.ofDetached text = .ok x → ∀ a ∈ x.collect k, K a

/-- Filters have no sources as they are read. -/
theorem strangers_of_restricts {rel : Relation} {label : String} {r : Expr} (h : Restricts A rel label r) :
    r.collect (strangers A) = [] := by
  obtain ⟨-, text, x, -, hx, rfl⟩ := h
  rw [collect_qualify, Expr.collect_related collect_strangers]
  exact (Expr.ofDetached_blank hx).strangers

section

variable {schema : Schema} {filter : List Facts → Expr → Except CompileError Expr} (hk : k.Steady A)

include hk

/-- The link and the keys of a completion contribute nothing. -/
theorem Completes.grown {j : Join} {new : List Join}
    (h : Completes schema A (fun _ x => ∀ a ∈ x.collect k, K a) j new) : (k.edit K).complete j new := by
  obtain @⟨_, _, link, keys, r, ⟨⟨-, hnone⟩, source, target, f, f', -, -, -, hconnect⟩, hr⟩ := h
  obtain ⟨⟨hlink, hkeys⟩, -⟩ := good_connect hk hconnect
  have hcondition : ∀ a ∈ (Completion.condition ⟨link, keys, r⟩).collect k, K a := by
    cases r with
    | none => simp [Completion.condition, hkeys]
    | some x => simpa [Completion.condition, Expr.collect, hkeys] using hr x rfl
  show Grown K (j.table.collect k ++ collectOpt k j.condition) _
  rw [hnone, collectJoins_append, hlink, List.nil_append, collectJoins, collectJoins, List.append_nil]
  exact (Grown.refl (j.table.collect k)).append (.of_forall hcondition)

theorem gathers (hyields : FilterYields A (fun _ x => ∀ a ∈ x.collect k, K a) filter) :
    Makes schema A filter (k.edit K) where
  ident _ _ := trivial
  named _ _ := trivial
  keep _ := trivial
  complete hlabel hscopes hplan h := (completes_completed hyields hlabel hscopes hplan h).grown hk
  refl _ _ := rfl
  facts _ h _ := facts_completeAll hk h
  alone _ := trivial

/-- What is made of a filter contributes what filters do, to any depth. -/
theorem yields_gathered (hgive : FiltersGive A K k) : ∀ budget,
    FilterYields A (fun _ x => ∀ a ∈ x.collect k, K a) (Joins.filter schema budget)
  | 0, _, _, _, _, _, _, _, h => by cases h
  | budget + 1, _, _, _, r, _, hscopes, hr, h => by
    have hedited := (gathers hk (yields_gathered hgive budget)).edited_expr r ⟨[], false⟩ hscopes
      (strangers_of_restricts hr) h
    refine (Expr.Edited.grown hk r hedited).forall_mem (fun _ ha => ha) ?_
    obtain ⟨⟨source, name, hsource, hrel⟩, text, x, htext, hx, rfl⟩ := hr
    rw [collect_qualify]
    exact hgive hsource hrel htext hx

end

end Joins

/-! ## All passes before the numbering -/

theorem Query.strangers_of_sources {n : Naming} {q q' q'' : Query} (hA : ∀ e ∈ n.schema.entities, A e = true)
    (hq : q.collect (strangers A) = []) (h : n.sweep.query q = .ok q') (h' : Derived.sweep.query q' = .ok q'') :
    q''.collect (strangers A) = [] := by
  have hsteady : (strangers A).Steady A := strangers_steady
  obtain ⟨hnaming, -⟩ := ((Naming.gathers (K := fun _ => False) hsteady hA).query trivial h).grown hsteady
  obtain ⟨hderived, -⟩ := ((Derived.gathers (K := fun _ => False) hsteady).query trivial h').grown hsteady
  rw [hderived.eq_of_none fun _ => id, hnaming.eq_of_none fun _ => id, hq]

/-- **Before the numbering, passes only insert what filters contribute**, for every collector that
does not look at what they note. What such a collector sees of the query's own facts stays. -/
theorem Query.Prepares.grown {n : Naming} {q p : Query} (h : Prepares n q p) {k : Collector α}
    {K : α → Prop} (hk : k.Steady A) (hgive : Joins.FiltersGive A K k)
    (hA : ∀ e ∈ n.schema.entities, A e = true) (hq : q.collect (strangers A) = []) :
    Grown K (q.collect k) (p.collect k) ∧ k.facts p.facts = k.facts q.facts := by
  simp only [Prepares, List.foldlM_cons, List.foldlM_nil, Pass.run, bind_eq_ok, pure_eq_ok,
    Joins.lift_query_eq_ok] at h
  obtain ⟨q₁, h₁, q₂, h₂, q₃, h₃, q₄, h₄, q₅, h₅, rfl⟩ := h
  obtain ⟨g₁, f₁⟩ := ((Naming.gathers hk hA).query trivial h₁).grown hk (K := K)
  obtain ⟨g₂, f₂⟩ := ((Derived.gathers hk).query trivial h₂).grown hk (K := K)
  obtain ⟨g₃, f₃⟩ := ((Joins.gathers hk (Joins.yields_gathered hk hgive _)).query
    (strangers_of_sources hA hq h₁ h₂) h₃).grown hk
  obtain ⟨g₄, f₄⟩ := ((Columns.gathers hk).query trivial h₄).grown hk (K := K)
  obtain ⟨g₅, f₅⟩ := ((Results.gathers hk).query h₅).1.grown hk (K := K)
  exact ⟨(((g₁.trans g₂).trans g₃).trans g₄).trans g₅, by rw [f₅, f₄, f₃, f₂, f₁]⟩

end EntitySql
