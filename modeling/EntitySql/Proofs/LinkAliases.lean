import Mathlib
import EntitySql.Proofs.Failures
import EntitySql.Proofs.JoinConditions

/-!
# The aliases of link tables

A join along a relation through a link table puts that table into the query, under an alias made of the names of the
source and of the relation (`Join.LinksAs`). The alias is registered like those of tables. So it is refused if it is
the alias of a table of the same select, or that of the link of a join before (`Select.LinkClash`). Filters of relations
may hold selects of their own. Their tables are not registered, and their links clash with each other only.

Where the tables of every select have different aliases, nothing else is refused as an alias.

* **`Query.alias_refused`**: the passes refuse an alias only where a link clashes, and where one clashes the joins are
  not completed.
-/

namespace EntitySql

open Outcome

/-! ## Errors of the completion of joins -/

namespace Joins

section

variable {P : CompileError → Prop} {schema : Schema} (hend : P (.query .endlessFilters))
  (hinside : ∀ s, schema.HasInFilter s → ∀ around, FailsWith P (completeAll schema around s.facts s.joins))

include hend hinside

/-- A filter fails in one of the selects of filters, or because there is no end to them. -/
theorem filterFailsWith (budget : Nat) : FilterFailsWith schema.has P (filter schema budget) := by
  induction budget with
  | zero => exact fun _ _ _ _ _ _ => .error hend
  | succ budget ih =>
    intro scopes rel label r hscopes hr
    refine failsWith_expr ih r hscopes (strangers_of_restricts hr) (.refl scopes) fun x hx around _ => ?_
    exact hinside _ (hasInFilter_of_restricts hr hx) around

/-- **The completion of joins fails in one of the selects of the query**, in one of filters, or because there is no end
to filters. -/
theorem failsWith_familiar {q : Query} (hq : q.collect (strangers schema.has) = [])
    (h : ∀ x ∈ q.enclosed, Passable P schema x) : FailsWith P (query schema q) :=
  failsWith_query (filterFailsWith hend hinside _) hq h

end

end Joins

/-! ## Links of joins -/

def Link.isJunction : Link → Bool
  | junction _ _ _ => true
  | _ => false

/-- The join needs a link under an alias: it has no condition, and its path follows a relation through a link table. -/
def Join.LinksAs (schema : Schema) (scopes : List Facts) (j : Join) (a : String) : Prop :=
  ∃ path source rel target, j.path = some path ∧ j.condition = none
    ∧ path.Follows schema scopes source rel target ∧ rel.link.isJunction = true ∧ path.linkLabel = a

/-- The link of a join has an alias that is taken, or that of the link of a join before. -/
def Select.LinkClash (schema : Schema) (around : List Facts) (taken : List (Option String)) (s : Select) (a : String) :
    Prop :=
  ∃ before j after, s.joins = before ++ j :: after ∧ j.LinksAs schema (s.facts :: around) a
    ∧ (some a ∈ taken ∨ ∃ k ∈ before, k.LinksAs schema (s.facts :: around) a)

/-- A path follows one relation. -/
theorem RelationPath.Follows.eq {schema : Schema} {scopes : List Facts} {path : RelationPath}
    {source target source' target' : Entity} {rel rel' : Relation} (h : path.Follows schema scopes source rel target)
    (h' : path.Follows schema scopes source' rel' target') : rel' = rel := by
  obtain ⟨⟨s, hs, he⟩, hrel, -⟩ := h
  obtain ⟨⟨s', hs', he'⟩, hrel', -⟩ := h'
  obtain rfl : s' = s := Option.some.inj (hs'.symm.trans hs)
  obtain rfl : source' = source := Option.some.inj (he'.symm.trans he)
  exact Option.some.inj (hrel'.symm.trans hrel)

theorem Facts.clash_of_addSource {f : Facts} {s : Source} {a b : String} (hs : s.label = some b)
    (h : f.addSource s = .error (.duplicateAlias a)) : b = a ∧ some a ∈ f.sources.keys := by
  unfold addSource Sources.register Sources.keyOf at h
  simp only [hs] at h
  split at h
  · cases h
  next he =>
  cases h
  split at he
  · next hkey =>
    cases he
    simp only [Source.qualifier, hs, Option.getD_some, true_and]
    exact Sources.hasKey_iff.mp hkey
  · cases he

theorem Entity.clashless_key (e : Entity) : Clashless e.key := by
  unfold key
  split
  · split
    · exact .ok _
    · exact .error rfl
  · exact .error rfl

namespace Joins

section

variable {kind : JoinKind} {label : String} {path : RelationPath} {source target : Entity} {f f' : Facts} {l : Link}

/-- The alias of a link becomes a key, and was none. -/
theorem keys_connect {x : Option Join × Expr} (h : connect kind label path source target f l = .ok (x, f')) :
    (∀ a, some a ∈ f'.sources.keys ↔ some a ∈ f.sources.keys ∨ l.isJunction = true ∧ path.linkLabel = a)
      ∧ (l.isJunction = true → some path.linkLabel ∉ f.sources.keys) := by
  cases l with
  | forward foreignKey | inverse foreignKey =>
    simp only [connect, bind_eq_ok, pure_eq_ok] at h
    obtain ⟨_, -, h⟩ := h
    cases h
    simp [Link.isJunction]
  | junction table sourceColumn targetColumn =>
    simp only [connect, bind_eq_ok, pure_eq_ok] at h
    obtain ⟨_, -, _, -, f₁, hadd, h⟩ := h
    cases h
    obtain ⟨-, hfree⟩ := Facts.addSource_eq_ok hadd
    refine ⟨fun a => ?_, fun _ hkey => Bool.eq_false_iff.mp hfree (Sources.hasKey_iff.mpr hkey)⟩
    rw [Facts.keys_addSource rfl hadd, List.mem_append, List.mem_singleton, Option.some_inj, eq_comm]
    simp [Link.isJunction, RelationPath.linkLabel]

/-- Only the alias of a link is refused. -/
theorem clash_of_connect {a : String}
    (h : connect kind label path source target f l = .error (.duplicateAlias a)) :
    l.isJunction = true ∧ path.linkLabel = a ∧ some a ∈ f.sources.keys := by
  cases l with
  | forward foreignKey =>
    simp only [connect, bind_eq_error, pure_eq_error, and_false, exists_false, or_false] at h
    cases target.clashless_key _ h
  | inverse foreignKey =>
    simp only [connect, bind_eq_error, pure_eq_error, and_false, exists_false, or_false] at h
    cases source.clashless_key _ h
  | junction table sourceColumn targetColumn =>
    simp only [connect, bind_eq_error, pure_eq_error, and_false, exists_false, or_false] at h
    rcases h with h | ⟨_, -, h | ⟨_, -, h⟩⟩
    · cases source.clashless_key _ h
    · cases target.clashless_key _ h
    · exact ⟨rfl, Facts.clash_of_addSource rfl h⟩

end

variable {schema : Schema} {visible start : List Facts} {f f' : Facts}

theorem clashless_follow (f : Facts) (label : String) (path : RelationPath) :
    Clashless (follow schema visible f label path) := by
  unfold follow
  repeat' split
  · exact .error rfl
  · exact .error rfl
  · exact .error rfl
  · exact .error rfl
  · exact .ok _

/-- One join is completed, or left alone: the alias of its link becomes a key, and was none. -/
structure Registers (schema : Schema) (start : List Facts) (j : Join) (f f' : Facts) : Prop where
  keys : ∀ a, some a ∈ f'.sources.keys ↔ some a ∈ f.sources.keys ∨ j.LinksAs schema start a
  free : ∀ a, j.LinksAs schema start a → some a ∉ f.sources.keys

theorem registers_complete (hstart : ScopesGain (·.entity = none) start (f :: visible)) {j : Join} {path : RelationPath}
    {c : Completion} (hpath : j.path = some path) (hnone : j.condition = none)
    (h : complete schema visible f j path = .ok (c, f')) :
    Registers schema start j f f' ∧ ScopesGain (·.entity = none) start (f' :: visible) := by
  simp only [complete, bind_eq_ok, pure_eq_ok, lift_query_eq_ok, lift_parse_eq_ok] at h
  obtain ⟨⟨source, rel, target⟩, hfollow, ⟨⟨link, keys⟩, f₁⟩, hconnect, r, -, h⟩ := h
  cases h
  have hfollows := (RelationPath.Follows.of_follow hfollow).of_gains hstart
  -- the path follows one relation, so the join has a link exactly if that has one
  have hlinks : ∀ a, j.LinksAs schema start a ↔ rel.link.isJunction = true ∧ path.linkLabel = a := by
    intro a
    constructor
    · rintro ⟨path', source', rel', target', hpath', -, hfollows', hjunction, rfl⟩
      obtain rfl : path' = path := Option.some.inj (hpath'.symm.trans hpath)
      obtain rfl := hfollows.eq hfollows'
      exact ⟨hjunction, rfl⟩
    · rintro ⟨hjunction, rfl⟩
      exact ⟨path, source, rel, target, hpath, hnone, hfollows, hjunction, rfl⟩
  obtain ⟨hkeys, hfree⟩ := keys_connect hconnect
  obtain ⟨-, rfl, hkeyed⟩ := implies_of_connect hconnect
  refine ⟨⟨fun a => (hkeys a).trans (or_congr_right (hlinks a).symm), fun a ha => ?_⟩,
    hstart.trans (.cons (Facts.withLinks_gains hkeyed) (ScopesGain.refl visible))⟩
  obtain ⟨hjunction, rfl⟩ := (hlinks a).mp ha
  exact hfree hjunction

theorem lift_parse_ne_query {α : Type} {x : Except ParseError α} {e : QueryError} :
    ParseError.lift x ≠ .error (.query e) := by
  cases x <;> simp [ParseError.lift]

theorem clash_of_complete (hstart : ScopesGain (·.entity = none) start (f :: visible)) {j : Join} {path : RelationPath}
    {a : String} (hpath : j.path = some path) (hnone : j.condition = none)
    (h : complete schema visible f j path = .error (.query (.duplicateAlias a))) :
    j.LinksAs schema start a ∧ some a ∈ f.sources.keys := by
  simp only [complete, bind_eq_error, pure_eq_error, and_false, exists_false, or_false, lift_query_eq_ok] at h
  rcases h with h | ⟨⟨source, rel, target⟩, hfollow, h | ⟨⟨⟨link, keys⟩, f₁⟩, -, h⟩⟩
  · cases clashless_follow _ _ _ _ (QueryError.lift_eq_error.mp h)
  · obtain ⟨hjunction, hlabel, hkey⟩ := clash_of_connect (QueryError.lift_eq_error.mp h)
    have hfollows := (RelationPath.Follows.of_follow hfollow).of_gains hstart
    exact ⟨⟨path, source, rel, target, hpath, hnone, hfollows, hjunction, hlabel⟩, hkey⟩
  · exact absurd h lift_parse_ne_query

/-- A join that is not along a path has no link. -/
theorem registers_of_kept {j : Join} (h : j.isPending = false) (f : Facts) : Registers schema start j f f := by
  have hnone : ∀ a, ¬j.LinksAs schema start a := by
    rintro a ⟨path, source, rel, target, hpath, hcondition, -⟩
    simp [Join.isPending, hpath, hcondition] at h
  exact ⟨fun a => (or_iff_left (hnone a)).symm, fun a ha => absurd ha (hnone a)⟩

theorem isPending_eq_false {j : Join} (h : ∀ path, j.path = some path → j.condition = none → False) :
    j.isPending = false := by
  unfold Join.isPending
  cases hpath : j.path with
  | none => rfl
  | some path =>
    cases hcondition : j.condition with
    | none => exact (h path hpath hcondition).elim
    | some e => rfl

/-- The joins are completed one after the other. -/
theorem registers_completeAll (hstart : ScopesGain (·.entity = none) start (f :: visible)) {j : Join} {js : List Join}
    {cs : List (Option Completion)} (h : completeAll schema visible f (j :: js) = .ok (cs, f')) :
    ∃ f₁ cs', Registers schema start j f f₁ ∧ ScopesGain (·.entity = none) start (f₁ :: visible)
      ∧ completeAll schema visible f₁ js = .ok (cs', f') := by
  unfold completeAll at h
  split at h
  · next path hpath hnone =>
    simp only [bind_eq_ok, pure_eq_ok] at h
    obtain ⟨⟨c, f₁⟩, hc, ⟨cs', f₂⟩, hcs, h⟩ := h
    cases h
    obtain ⟨hregisters, hgains⟩ := registers_complete hstart hpath hnone hc
    exact ⟨f₁, cs', hregisters, hgains, hcs⟩
  · next hkept =>
    simp only [bind_eq_ok, pure_eq_ok] at h
    obtain ⟨⟨cs', f₁⟩, hcs, h⟩ := h
    cases h
    exact ⟨f, cs', registers_of_kept (isPending_eq_false hkept) f, hstart, hcs⟩

theorem clash_of_completeAll_cons (hstart : ScopesGain (·.entity = none) start (f :: visible)) {j : Join}
    {js : List Join} {a : String}
    (h : completeAll schema visible f (j :: js) = .error (.query (.duplicateAlias a))) :
    (j.LinksAs schema start a ∧ some a ∈ f.sources.keys)
      ∨ ∃ f₁, Registers schema start j f f₁ ∧ ScopesGain (·.entity = none) start (f₁ :: visible)
        ∧ completeAll schema visible f₁ js = .error (.query (.duplicateAlias a)) := by
  unfold completeAll at h
  split at h
  · next path hpath hnone =>
    simp only [bind_eq_error, pure_eq_error, and_false, exists_false, or_false] at h
    rcases h with h | ⟨⟨c, f₁⟩, hc, h⟩
    · exact .inl (clash_of_complete hstart hpath hnone h)
    · obtain ⟨hregisters, hgains⟩ := registers_complete hstart hpath hnone hc
      exact .inr ⟨f₁, hregisters, hgains, h⟩
  · next hkept =>
    simp only [bind_eq_error, pure_eq_error, and_false, exists_false, or_false] at h
    exact .inr ⟨f, registers_of_kept (isPending_eq_false hkept) f, hstart, h⟩

theorem completeAll_of_select {filter : List Facts → Expr → Except CompileError Expr} {isolated : Bool} {s s' : Select}
    (h : select schema filter visible isolated s = .ok s') :
    ∃ cs f', completeAll schema visible s.facts s.joins = .ok (cs, f') := by
  obtain ⟨_, fs, t, js, c, gs, hv, os, l, o, us, f⟩ := s
  simp only [select, bind_eq_ok] at h
  obtain ⟨⟨cs, f'⟩, hcs, -⟩ := h
  exact ⟨cs, f', hcs⟩

/-- **An alias that is refused is that of a link that clashes.** `taken` are the keys at first. -/
theorem linkClash_of_completeAll {js : List Join} {taken : List (Option String)} {a : String}
    (hstart : ScopesGain (·.entity = none) start (f :: visible))
    (h : completeAll schema visible f js = .error (.query (.duplicateAlias a)))
    (hkeys : some a ∈ f.sources.keys → some a ∈ taken) :
    ∃ before j after, js = before ++ j :: after ∧ j.LinksAs schema start a
      ∧ (some a ∈ taken ∨ ∃ k ∈ before, k.LinksAs schema start a) := by
  induction js generalizing f taken with
  | nil => cases h
  | cons j js ih =>
    rcases clash_of_completeAll_cons hstart h with ⟨hlinks, hkey⟩ | ⟨f₁, hregisters, hstart₁, h⟩
    · exact ⟨[], j, js, rfl, hlinks, .inl (hkeys hkey)⟩
    by_cases hlinks : j.LinksAs schema start a
    · obtain ⟨before, j', after, rfl, hlinks', -⟩ := ih hstart₁ h id
      exact ⟨j :: before, j', after, rfl, hlinks', .inr ⟨j, List.mem_cons_self, hlinks⟩⟩
    · have hkeys₁ : some a ∈ f₁.sources.keys → some a ∈ taken := fun hkey =>
        hkeys (((hregisters.keys a).mp hkey).resolve_right hlinks)
      obtain ⟨before, j', after, rfl, hlinks', hclash⟩ := ih hstart₁ h hkeys₁
      refine ⟨j :: before, j', after, rfl, hlinks', hclash.imp_right ?_⟩
      rintro ⟨k, hk, hlinks⟩
      exact ⟨k, List.mem_cons_of_mem _ hk, hlinks⟩

/-- **No link clashes where the joins are completed.** -/
theorem no_clash_of_completeAll {js : List Join} {cs : List (Option Completion)} {a : String}
    (hstart : ScopesGain (·.entity = none) start (f :: visible))
    (h : completeAll schema visible f js = .ok (cs, f')) {before after : List Join} {j : Join}
    (hjs : js = before ++ j :: after) (hlinks : j.LinksAs schema start a) :
    some a ∉ f.sources.keys ∧ ∀ k ∈ before, ¬k.LinksAs schema start a := by
  induction before generalizing f js cs with
  | nil =>
    subst hjs
    obtain ⟨f₁, cs', hregisters, -⟩ := registers_completeAll hstart h
    exact ⟨hregisters.free a hlinks, List.forall_mem_nil _⟩
  | cons k before ih =>
    subst hjs
    obtain ⟨f₁, cs', hregisters, hstart₁, h₁⟩ := registers_completeAll hstart h
    obtain ⟨hfree, hrest⟩ := ih hstart₁ h₁ rfl
    rw [hregisters.keys, not_or] at hfree
    exact ⟨hfree.1, List.forall_mem_cons.mpr ⟨hfree.2, hrest⟩⟩

end Joins

/-! ## Aliases that are written -/

/-- The aliases of the tables of a select, in order. -/
def Select.aliases (s : Select) : List (Option String) := s.tables.map (·.label)

/-- All tables of the select have aliases, and these are different. -/
structure Select.Aliased (s : Select) : Prop where
  labelled : none ∉ s.aliases
  nodup : s.aliases.Nodup

instance (s : Select) : Decidable s.Aliased :=
  decidable_of_iff (none ∉ s.aliases ∧ s.aliases.Nodup) ⟨fun ⟨h, h'⟩ => ⟨h, h'⟩, fun ⟨h, h'⟩ => ⟨h, h'⟩⟩

theorem Select.aliases_eq_tags (s : Select) : s.aliases = s.tags.map (·.2) := by
  simp [aliases, tags, Table.tag]

/-- The aliases of named tables and those of derived ones are the aliases of all. -/
theorem Select.perm_aliases (s : Select) : (aliasesOf not s.tags ++ aliasesOf id s.tags).Perm s.aliases := by
  rw [aliases_eq_tags, aliasesOf, aliasesOf, ← List.map_append]
  refine List.Perm.map _ (List.perm_append_comm.trans ?_)
  exact List.filter_append_perm (fun x => x.1) s.tags

/-- There is room for the named tables, and then for the derived ones. -/
theorem Select.Aliased.room {s : Select} (h : s.Aliased) :
    Room not [] s.tags ∧ Room id (aliasesOf not s.tags) s.tags := by
  obtain ⟨hlabelled, hnodup⟩ := h
  rw [← s.perm_aliases.mem_iff, List.mem_append, not_or] at hlabelled
  obtain ⟨hnamed, hderived, hdisjoint⟩ := List.nodup_append'.mp (s.perm_aliases.nodup_iff.mpr hnodup)
  exact ⟨⟨hlabelled.1, hnamed, List.disjoint_nil_left _⟩, hlabelled.2, hderived, hdisjoint⟩

/-! ## Whole queries -/

/-- A link of the query clashes with a table of its select, or with a link. -/
def Query.LinkClash (schema : Schema) (l : Query) (a : String) : Prop :=
  ∃ x ∈ l.enclosed, x.select.LinkClash schema x.around x.select.aliases a

/-- Two links in a filter of a relation clash. -/
def Schema.FilterClash (schema : Schema) (a : String) : Prop :=
  ∃ s, schema.HasInFilter s ∧ ∃ around, s.LinkClash schema around [] a

theorem Sweep.Visits.entered {w : Sweep} {which : Bool → Bool} (hw : w.Enters which) {x y : Enclosed}
    (h : w.Visits x y) (hlabelled : none ∉ aliasesOf which x.select.tags) :
    y.select.tags = x.select.tags
      ∧ y.select.facts.sources.keys = x.select.facts.sources.keys ++ aliasesOf which x.select.tags := by
  obtain ⟨seen, -, hrun⟩ := h.run
  exact hw.select hlabelled hrun

section

variable {n : Naming} {s : Select} (hq : (Query.select s).Shaped .all) (hs : ∀ x ∈ s.selects, x.Aliased)

include hq hs

theorem Naming.clashless_query : Clashless (n.sweep.query (.select s)) := by
  refine .map _ (n.enters.clashless_select s fun x hx => ?_)
  unfold Sweep.Roomy
  rw [(hq.covers.selects x hx).facts_eq]
  exact (hs x hx).room.1

/-- The first pass makes the aliases of the named tables keys. -/
theorem Naming.registered {k : Query} (hk : n.sweep.query (.select s) = .ok k) :
    List.Forall₂ (fun x y : Enclosed => x.select.Aliased ∧ y.select.tags = x.select.tags
      ∧ y.select.facts.sources.keys = aliasesOf not x.select.tags) (Query.select s).enclosed k.enclosed := by
  have hmem : ∀ x ∈ (Query.select s).enclosed, x.select ∈ s.selects := fun x hx => by
    rw [← @Select.map_enclosed [] false s]
    exact List.mem_map_of_mem hx
  refine ((List.forall₂_and_left _ _).mpr ⟨hmem, n.grows.visits hk⟩).imp ?_
  rintro x y ⟨hx, hvisit⟩
  obtain ⟨htags, hkeys⟩ := hvisit.entered n.enters (hs _ hx).room.1.labelled
  rw [(hq.covers.selects _ hx).facts_eq] at hkeys
  exact ⟨hs _ hx, htags, hkeys⟩

theorem Derived.clashless_query {k : Select} (hk : n.sweep.query (.select s) = .ok (.select k)) :
    Clashless (Derived.sweep.query (.select k)) := by
  refine .map _ (Derived.enters.clashless_select k fun x hx => ?_)
  rw [← @Select.map_enclosed [] false k] at hx
  obtain ⟨y, hy, rfl⟩ := List.mem_map.mp hx
  obtain ⟨x, -, haliased, htags, hkeys⟩ := exists_left_of_forall₂ (Naming.registered hq hs hk) y hy
  unfold Sweep.Roomy
  rw [htags, hkeys]
  exact haliased.room.2

/-- After two passes the keys are the aliases as they are written. -/
theorem Query.Placed.registered {l : Query} (hl : (Query.select s).Placed n l) :
    List.Forall₂ (fun x y : Enclosed => y.select.aliases = x.select.aliases
      ∧ y.select.facts.sources.keys.Perm x.select.aliases) (Query.select s).enclosed l.enclosed := by
  obtain ⟨k, hk, hl⟩ := placed_eq_ok.mp hl
  refine forall₂_comp ?_ (Naming.registered hq hs hk) (Derived.grows.visits hl)
  rintro x y z ⟨haliased, htags, hkeys⟩ hvisit
  obtain ⟨htags', hkeys'⟩ := hvisit.entered Derived.enters (htags ▸ haliased.room.2.labelled)
  refine ⟨?_, ?_⟩
  · rw [Select.aliases_eq_tags, Select.aliases_eq_tags, htags', htags]
  · rw [hkeys', hkeys, htags]
    exact x.select.perm_aliases

theorem Query.Placed.aliases_eq {l : Query} (hl : (Query.select s).Placed n l) :
    l.selects.map (·.aliases) = s.selects.map (·.aliases) := by
  have heq : List.Forall₂ Eq ((Query.select s).enclosed.map (·.select.aliases)) (l.enclosed.map (·.select.aliases)) := by
    rw [List.forall₂_map_left_iff, List.forall₂_map_right_iff]
    exact (hl.registered hq hs).imp fun x y h => h.1.symm
  rw [List.forall₂_eq_eq_eq] at heq
  rw [← Query.map_enclosed, ← @Select.map_enclosed [] false s, List.map_map, List.map_map]
  exact heq.symm

/-- The third pass refuses an alias only if a link clashes. -/
theorem Query.Placed.linkClash {l : Select} (hl : (Query.select s).Placed n (.select l)) {a : String}
    (h : Joins.query n.schema (.select l) = .error (.query (.duplicateAlias a))) :
    (Query.select l).LinkClash n.schema a ∨ n.schema.FilterClash a := by
  let P (e : CompileError) : Prop := e = .query (.duplicateAlias a) →
    (Query.select l).LinkClash n.schema a ∨ n.schema.FilterClash a
  suffices hfails : FailsWith P (Joins.query n.schema (.select l)) from hfails _ h rfl
  refine Joins.failsWith_familiar (fun he => by cases he) ?_ (hl.familiar hq) ?_
  · rintro f hf around e he rfl
    have hnone : some a ∈ f.facts.sources.keys → some a ∈ [] := by
      obtain ⟨text, -, x, hx, hmem⟩ := hf
      rw [((Expr.Shaped.covers x (Expr.shaped_of_ofDetached hx)).selects f hmem).facts_eq]
      exact id
    exact .inr ⟨f, hf, around, Joins.linkClash_of_completeAll (.refl _) he hnone⟩
  · rintro x hx around haround e he rfl
    obtain ⟨y, -, haliases, hperm⟩ := exists_left_of_forall₂ (hl.registered hq hs) x hx
    refine .inl ⟨x, hx, Joins.linkClash_of_completeAll (.cons (.refl _) haround) he fun hkey => ?_⟩
    rw [haliases]
    exact hperm.mem_iff.mp hkey

/-- No link clashes where the joins are completed. -/
theorem Query.Placed.not_linkClash {l j : Query} (hl : (Query.select s).Placed n l)
    (hj : Joins.query n.schema l = .ok j) (a : String) : ¬l.LinkClash n.schema a := by
  rintro ⟨x, hx, before, k, after, hjoins, hlinks, hclash⟩
  obtain ⟨y, -, haround, hrun⟩ := (Joins.visits (hl.familiar hq) hj).exists_of_mem_left x hx
  obtain ⟨z, -, haliases, hperm⟩ := exists_left_of_forall₂ (hl.registered hq hs) x hx
  obtain ⟨cs, f', hcs⟩ := Joins.completeAll_of_select hrun
  obtain ⟨hfree, hothers⟩ := Joins.no_clash_of_completeAll (.cons (.refl _) haround) hcs hjoins hlinks
  rcases hclash with htaken | ⟨k', hk', hlinks'⟩
  · rw [haliases] at htaken
    exact hfree (hperm.mem_iff.mpr htaken)
  · exact hothers k' hk' hlinks'

end

theorem Pass.exists_select {n : Naming} {p : Pass} {s : Select} {q : Query} (h : p.run n (.select s) = .ok q) :
    ∃ s', q = .select s' := by
  cases p with
  | sources | derived | columns | results =>
    obtain ⟨s', -, rfl⟩ := map_eq_ok.mp (Joins.lift_query_eq_ok.mp h)
    exact ⟨s', rfl⟩
  | joins =>
    obtain ⟨s', -, rfl⟩ := map_eq_ok.mp h
    exact ⟨s', rfl⟩
  | parameters =>
    obtain ⟨⟨q', slots⟩, hq, h⟩ := bind_eq_ok.mp (Joins.lift_query_eq_ok.mp h)
    obtain ⟨s', -, rfl⟩ := state_map_eq_ok.mp hq
    cases h
    exact ⟨_, rfl⟩

/-- **Different aliases clash with links only.** Where all tables of a select have different aliases, an alias is refused
only by the third pass, and only that of a link which clashes with a table of its select or with another link. No link
of a query clashes whose joins are completed. -/
theorem Query.alias_refused {n : Naming} {text : String} {s : Select} (hq : Query.ofText text = .ok (.select s))
    (hs : ∀ x ∈ s.selects, x.Aliased) :
    (∀ a, (Query.select s).resolve n = .error (.query (.duplicateAlias a)) →
      ∃ l, (Query.select s).Placed n l ∧ Pass.joins.run n l = .error (.query (.duplicateAlias a))
        ∧ (l.LinkClash n.schema a ∨ n.schema.FilterClash a))
      ∧ ∀ l, (Query.select s).Placed n l → l.selects.map (·.aliases) = s.selects.map (·.aliases)
        ∧ ∀ j, Pass.joins.run n l = .ok j → ∀ a, ¬l.LinkClash n.schema a := by
  have hshaped := Query.shaped_of_ofText hq
  refine ⟨fun a h => ?_, fun l hl => ⟨hl.aliases_eq hshaped hs, fun j hj a => hl.not_linkClash hshaped hs hj a⟩⟩
  simp only [resolve, Pass.all, List.foldlM_cons, List.foldlM_nil, bind_eq_error, pure_eq_error, and_false, exists_false,
    or_false] at h
  rcases h with h | ⟨k, hk, h | ⟨l, hl, h | ⟨j, hj, h | ⟨c, hc, h | ⟨r, hr, h⟩⟩⟩⟩⟩
  · exact absurd h (Clashless.lift_ne (Naming.clashless_query hshaped hs) a)
  · obtain ⟨k, rfl⟩ := Pass.exists_select hk
    exact absurd h (Clashless.lift_ne (Derived.clashless_query hshaped hs (Joins.lift_query_eq_ok.mp hk)) a)
  · have hplaced : (Query.select s).Placed n l :=
      placed_eq_ok.mpr ⟨k, Joins.lift_query_eq_ok.mp hk, Joins.lift_query_eq_ok.mp hl⟩
    obtain ⟨k, rfl⟩ := Pass.exists_select hk
    obtain ⟨l, rfl⟩ := Pass.exists_select hl
    exact ⟨.select l, hplaced, h, hplaced.linkClash hshaped hs h⟩
  -- the other passes register nothing
  all_goals
    obtain ⟨k, rfl⟩ := Pass.exists_select hk
    obtain ⟨l, rfl⟩ := Pass.exists_select hl
    obtain ⟨j, rfl⟩ := Pass.exists_select hj
  · exact absurd h (Clashless.lift_ne (Columns.clashless_query j) a)
  · obtain ⟨c, rfl⟩ := Pass.exists_select hc
    exact absurd h (Clashless.lift_ne (Results.clashless_query c) a)
  · exact absurd h (Clashless.lift_ne (Parameters.clashless_query _) a)

/-- The tags of a book twice. -/
def twiceTaggedText : String := "SELECT x.id FROM Book b JOIN b.tags x JOIN b.tags y"

/-- The tags of a book under the alias of the link. -/
def linkNamedText : String :=
  "SELECT t.id FROM Book b JOIN b.tags t WHERE b.id IN (SELECT c.id FROM Book c JOIN c.tags c_tags)"

/-- The text is that of a select of different aliases, of which one is refused all the same. -/
def refusesAlias (schema : Schema) (text a : String) : Bool :=
  match Query.ofText text with
  | .ok (.select s) =>
    match (Query.select s).resolve ⟨schema, false⟩ with
    | .error e => decide (∀ x ∈ s.selects, x.Aliased) && decide (e = .query (.duplicateAlias a))
    | .ok _ => false
  | _ => false

theorem exists_of_refusesAlias {schema : Schema} {text a : String} (h : refusesAlias schema text a = true) :
    ∃ s, Query.ofText text = .ok (.select s) ∧ (∀ x ∈ s.selects, x.Aliased)
      ∧ (Query.select s).resolve ⟨schema, false⟩ = .error (.query (.duplicateAlias a)) := by
  unfold refusesAlias at h
  split at h
  · next s hs =>
    split at h
    · next e he =>
      rw [Bool.and_eq_true, decide_eq_true_iff, decide_eq_true_iff] at h
      exact ⟨s, hs, h.1, h.2 ▸ he⟩
    · cases h
  · cases h

/-- Two links have the same alias. -/
theorem Query.alias_refused_twice : ∃ s, Query.ofText twiceTaggedText = .ok (.select s) ∧ (∀ x ∈ s.selects, x.Aliased)
    ∧ (Query.select s).resolve ⟨catalogue, false⟩ = .error (.query (.duplicateAlias "b_tags")) :=
  exists_of_refusesAlias (by decide +kernel)

theorem Query.alias_refused_link : ∃ s, Query.ofText linkNamedText = .ok (.select s) ∧ (∀ x ∈ s.selects, x.Aliased)
    ∧ ∃ l, (Query.select s).Placed ⟨catalogue, false⟩ l
      ∧ Pass.joins.run ⟨catalogue, false⟩ l = .error (.query (.duplicateAlias "c_tags"))
      ∧ (l.LinkClash catalogue "c_tags" ∨ catalogue.FilterClash "c_tags") := by
  obtain ⟨s, hq, hs, h⟩ : ∃ s, Query.ofText linkNamedText = .ok (.select s) ∧ (∀ x ∈ s.selects, x.Aliased)
      ∧ (Query.select s).resolve ⟨catalogue, false⟩ = .error (.query (.duplicateAlias "c_tags")) :=
    exists_of_refusesAlias (by decide +kernel)
  exact ⟨s, hq, hs, (alias_refused hq hs).1 "c_tags" h⟩

end EntitySql
