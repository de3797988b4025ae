import Mathlib
import EntitySql.Proofs.Parsed
import EntitySql.Proofs.Passes

/-!
# What the completion of joins inserts

The third pass puts conditions and link tables into a query. All markers and facts among them come from
the filters of relations.

Filters are those of the entities that the sources of a query denote. Which entities these can be is
followed by the collector `strangers`: it lists the sources whose entity is not among `A`.

* `Joins.follow_eq_ok`: a relation is one of such an entity.
* `Joins.facts_completeAll`: a collector sees nothing of the links that are noted.
-/

namespace EntitySql

open Outcome

variable {α : Type} {A : Entity → Bool}

/-! ## Entities of sources -/

/-- The sources of facts whose entity is not among `A`. -/
def Facts.strangers (A : Entity → Bool) (f : Facts) : List Source :=
  f.sources.toList.filter fun s => s.entity.any fun e => !A e

/-- The sources whose entity is not among `A`. -/
def strangers (A : Entity → Bool) : Collector Source where
  facts := Facts.strangers A

theorem Facts.addSource_eq_ok {f f' : Facts} {s : Source} (h : f.addSource s = .ok f') :
    f' = { f with sources := ⟨f.sources.entries ++ [(f.sources.keyOf s, s)]⟩ }
      ∧ f.sources.hasKey (f.sources.keyOf s) = false := by
  unfold addSource Sources.register at h
  split at h
  · next hs =>
    cases h
    dsimp only at hs
    split at hs <;> cases hs
    next hfree => exact ⟨rfl, Bool.eq_false_iff.mpr hfree⟩
  · cases h

theorem strangers_steady : (strangers A).Steady A where
  source {f s f'} hs h := by
    obtain ⟨rfl, -⟩ := Facts.addSource_eq_ok h
    have hentry : s.entity.any (fun e => !A e) = false := by
      cases he : s.entity with
      | none => rfl
      | some e => simp [hs e he]
    simp [strangers, Facts.strangers, Sources.toList, hentry]
  labels _ _ := rfl
  results _ _ := rfl
  paging _ _ := rfl
  returned _ := rfl

/-- Facts whose sources have no other entities than those of `A`. -/
def Familiar (A : Entity → Bool) (fs : List Facts) : Prop := ∀ f ∈ fs, f.strangers A = []

theorem Familiar.nil : Familiar A [] := List.forall_mem_nil _

theorem Familiar.cons {f : Facts} {fs : List Facts} (hf : f.strangers A = []) (hfs : Familiar A fs) :
    Familiar A (f :: fs) := List.forall_mem_cons.mpr ⟨hf, hfs⟩

theorem Familiar.scopedSource? {fs : List Facts} (h : Familiar A fs) {q : String} {s : Source}
    (hs : scopedSource? fs q = some s) {e : Entity} (he : s.entity = some e) : A e = true := by
  obtain ⟨f, hf, hs⟩ := List.exists_of_findSome?_eq_some hs
  have hmem : s ∈ f.sources.toList := List.mem_of_find?_eq_some hs
  have hnone := List.filter_eq_nil_iff.mp (h f hf) s hmem
  simpa [he] using hnone

/-- Trees without facts have no sources. -/
theorem Blank.strangers {fs : List Facts} (h : Blank fs) : fs.flatMap (Facts.strangers A) = [] := by
  rw [List.flatMap_eq_nil_iff]
  intro f hf
  rw [h f hf]
  rfl

theorem collect_strangers : scopes.Related (fun fs ss => ss = fs.flatMap (Facts.strangers A))
    (strangers A) where
  nil := rfl
  append h g := by rw [h, g, List.flatMap_append]
  marker _ := rfl
  named _ := rfl
  facts f := by simp [scopes, EntitySql.strangers]
  paging h g := by
    subst h g
    exact (List.flatMap_append ..).symm
  returned h := h

/-! ## Conditions -/

namespace Joins

section

variable {k : Collector α}

mutual
theorem collect_qualify {label : String} : ∀ e : Expr, (qualify label e).collect k = e.collect k
  | .ident i => by
    rw [qualify]
    split <;> rfl
  | .literal _ | .marker _ | .named _ | .subquery _ => rfl
  | .call _ _ args => by simp only [qualify, Expr.collect, collect_qualifyAll args]
  | .list items => by simp only [qualify, Expr.collect, collect_qualifyAll items]
  | .arith _ l r | .compare _ l r | .logic _ l r => by
    simp only [qualify, Expr.collect, collect_qualify l, collect_qualify r]
  | .unary _ e => by simp only [qualify, Expr.collect, collect_qualify e]
  | .case o bs e => by
    simp only [qualify, Expr.collect, collect_qualifyOpt o, collect_qualifyBranches bs,
      collect_qualifyOpt e]
theorem collect_qualifyAll {label : String} :
    ∀ es, collectExprs k (qualifyAll label es) = collectExprs k es
  | [] => rfl
  | e :: es => by simp only [qualifyAll, collectExprs, collect_qualify e, collect_qualifyAll es]
theorem collect_qualifyOpt {label : String} : ∀ o, collectOpt k (qualifyOpt label o) = collectOpt k o
  | none => rfl
  | some e => by simp only [qualifyOpt, collectOpt, collect_qualify e]
theorem collect_qualifyBranches {label : String} :
    ∀ bs, collectBranches k (qualifyBranches label bs) = collectBranches k bs
  | [] => rfl
  | ⟨c, r⟩ :: bs => by
    simp only [qualifyBranches, collectBranches, collect_qualify c, collect_qualify r,
      collect_qualifyBranches bs]
end

end

variable {k : Collector α}

theorem good_connect (hk : k.Steady A) {kind : JoinKind} {label : String} {path : RelationPath}
    {source target : Entity} {f f' : Facts} {link : Link} {l : Option Join} {keys : Expr}
    (h : connect kind label path source target f link = .ok ((l, keys), f')) :
    (collectJoins k l.toList = [] ∧ keys.collect k = []) ∧ k.facts f' = k.facts f := by
  cases link with
  | forward foreignKey | inverse foreignKey =>
    simp only [connect, bind_eq_ok, pure_eq_ok] at h
    obtain ⟨_, -, h⟩ := h
    cases h
    exact ⟨⟨rfl, rfl⟩, rfl⟩
  | junction table sourceColumn targetColumn =>
    simp only [connect, bind_eq_ok, pure_eq_ok] at h
    obtain ⟨_, -, _, -, f₁, hf₁, h⟩ := h
    cases h
    exact ⟨⟨rfl, rfl⟩, hk.source (by rintro _ ⟨⟩) hf₁⟩

theorem follow_eq_ok {schema : Schema} {visible : List Facts} {f : Facts} {label : String}
    {path : RelationPath} {source target : Entity} {rel : Relation} (hf : Familiar A (f :: visible))
    (h : follow schema visible f label path = .ok (source, rel, target)) :
    A source = true ∧ source.relation? path.relation = some rel := by
  unfold follow at h
  split at h
  · cases h
  next hscoped =>
  split at h
  · cases h
  next hentity =>
  split at h
  · cases h
  next hrel =>
  split at h <;> cases h
  exact ⟨hf.scopedSource? hscoped hentity, hrel⟩

theorem lift_query_eq_ok {x : Except QueryError α} {a : α} :
    QueryError.lift x = .ok a ↔ x = .ok a := by
  cases x <;> simp [QueryError.lift]

theorem lift_parse_eq_ok {x : Except ParseError α} {a : α} :
    ParseError.lift x = .ok a ↔ x = .ok a := by
  cases x <;> simp [ParseError.lift]

section

variable (hk : k.Steady A) {schema : Schema} {visible : List Facts}

include hk

theorem facts_complete {f f' : Facts} {j : Join} {path : RelationPath} {c : Completion}
    (h : complete schema visible f j path = .ok (c, f')) : k.facts f' = k.facts f := by
  simp only [complete, bind_eq_ok, pure_eq_ok, lift_query_eq_ok, lift_parse_eq_ok] at h
  obtain ⟨⟨source, rel, target⟩, -, ⟨⟨link, keys⟩, f₁⟩, hconnect, o, -, h⟩ := h
  cases h
  exact (good_connect hk hconnect).2

theorem facts_completeAll : ∀ {js : List Join} {f f' : Facts} {cs : List (Option Completion)},
    completeAll schema visible f js = .ok (cs, f') → k.facts f' = k.facts f
  | [], _, _, _, h => by
    simp only [completeAll, pure_eq_ok] at h
    cases h
    rfl
  | ⟨kind, t, none, some path⟩ :: js, _, _, _, h => by
    simp only [completeAll, bind_eq_ok, pure_eq_ok] at h
    obtain ⟨⟨c, f₁⟩, hc, ⟨cs, f₂⟩, hcs, h⟩ := h
    cases h
    exact (facts_completeAll hcs).trans (facts_complete hk hc)
  | ⟨kind, t, some c, path⟩ :: js, _, _, _, h | ⟨kind, t, none, none⟩ :: js, _, _, _, h => by
    simp only [completeAll, bind_eq_ok, pure_eq_ok] at h
    obtain ⟨⟨cs, f₁⟩, hcs, h⟩ := h
    cases h
    exact facts_completeAll hcs

end

/-! ## Whole queries -/

section

variable {schema : Schema} {filter : List Facts → Expr → Except CompileError Expr}

theorem completed_eq_ok {scopes : List Facts} {j : Join} {c : Completion} {js : List Join}
    (h : completed filter scopes j c = .ok js) :
    ∃ r : Option Expr, js = c.link.toList
        ++ [{ j with condition := some ({ c with restriction := r } : Completion).condition }]
      ∧ ∀ x', r = some x' → ∃ x, c.restriction = some x ∧ filter scopes x = .ok x' := by
  unfold completed at h
  split at h
  · next x hx =>
    simp only [bind_eq_ok, map_eq_ok, pure_eq_ok] at h
    obtain ⟨_, ⟨x', hx', rfl⟩, rfl⟩ := h
    refine ⟨_, rfl, ?_⟩
    rintro _ ⟨⟩
    exact ⟨x, hx, hx'⟩
  · cases h
    refine ⟨none, rfl, ?_⟩
    rintro _ ⟨⟩

end

end Joins

/-! ## All passes before the numbering -/

/-- The passes up to the numbering of parameters lead from the first query to the second. -/
def Query.Prepares (n : Naming) (q p : Query) : Prop :=
  [Pass.sources, .derived, .joins, .columns, .results].foldlM (fun q p => p.run n q) q = .ok p

theorem Query.resolve_eq_ok {n : Naming} {q r : Query} (h : q.resolve n = .ok r) :
    ∃ p, Prepares n q p ∧ Parameters.query p = .ok r := by
  have hall : Pass.all = [Pass.sources, .derived, .joins, .columns, .results] ++ [.parameters] := rfl
  rw [resolve, hall, List.foldlM_append, bind_eq_ok] at h
  obtain ⟨p, hp, h⟩ := h
  refine ⟨p, hp, ?_⟩
  simpa [Pass.run, Joins.lift_query_eq_ok] using h

end EntitySql
