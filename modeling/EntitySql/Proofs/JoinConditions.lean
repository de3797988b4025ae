import Mathlib
import EntitySql.Proofs.Enclosures
import EntitySql.Proofs.ResultMaps

/-!
# The conditions of joins

What the completion of joins makes of the joins of a select (`Select.Completed`). They stay in order, with
their kinds, tables and aliases, and those with a condition keep it. A join along a relation gets the
condition that the relation implies (`Link.Implies`), with the filter of the relation, and a relation through a
link table puts one join with that table right before it. The links, and nothing else, become sources of the
select, each under an alias of its own.

The source of a path is looked up in the facts with the links so far. These are raw, and no relation starts
at a raw table, so it is the source that the path has without any links.

* **`Query.joins_completed`**: the joins of all selects after the first three passes.
-/

namespace EntitySql

open Outcome

/-! ## What a relation implies -/

namespace RelationPath

/-- The path follows a relation of the entity that the first source in sight under its name denotes. -/
structure Follows (schema : Schema) (scopes : List Facts) (path : RelationPath) (source : Entity)
    (rel : Relation) (target : Entity) : Prop where
  start : ∃ s, scopedSource? scopes path.source = some s ∧ s.entity = some source
  relation : source.relation? path.relation = some rel
  target : schema.entity? rel.target = some target

/-- The alias of the link table. -/
def linkLabel (path : RelationPath) : String := path.source ++ "_" ++ path.relation

end RelationPath

/-- The equation of keys for a join under an alias, and the join with the link table before it. -/
inductive Link.Implies (kind : JoinKind) (label : String) (path : RelationPath) (source target : Entity) :
    Link → Option Join → Expr → Prop
  | forward {foreignKey targetId} : target.identifier = [targetId] →
    Implies kind label path source target (.forward foreignKey) none
      (Joins.equate label targetId path.source foreignKey)
  | inverse {foreignKey sourceId} : source.identifier = [sourceId] →
    Implies kind label path source target (.inverse foreignKey) none
      (Joins.equate label foreignKey path.source sourceId)
  | junction {table sourceColumn targetColumn sourceId targetId} : source.identifier = [sourceId] →
    target.identifier = [targetId] →
    Implies kind label path source target (.junction table sourceColumn targetColumn)
      (some ⟨kind, .named table (some path.linkLabel),
        some (Joins.equate path.linkLabel sourceColumn path.source sourceId), none⟩)
      (Joins.equate label targetId path.linkLabel targetColumn)

/-- The expressions differ in their subqueries only. -/
structure Expr.Resembles (e e' : Expr) : Prop where
  frame : e'.frame = e.frame
  idents : e'.idents = e.idents

/-- The same table, or derived tables of the same alias. -/
inductive Table.Resembles : Table → Table → Prop
  | named (name label) : Table.Resembles (.named name label) (.named name label)
  | derived (s s' label) : Table.Resembles (.derived s label) (.derived s' label)

/-- The equation of keys with the filter of a relation, whose bare names are qualified with the alias of the
join. -/
inductive Joins.Restricted (label : String) (keys : Expr) : Option String → Expr → Prop
  | unfiltered : Restricted label keys none keys
  | filtered {text x r} : Expr.ofDetached text = .ok x → (qualify label x).Resembles r →
    Restricted label keys (some text) (.logic .and keys r)

/-- What becomes of a join in sight of some queries: the link before it, and the join itself. -/
inductive Join.Filled (schema : Schema) (scopes : List Facts) : Join → Option Join × Join → Prop
  | kept {j t c} : j.isPending = false → j.table.Resembles t → Option.Rel Expr.Resembles j.condition c →
    Join.Filled schema scopes j (none, { j with table := t, condition := c })
  | completed {j t path source rel target link keys condition} : j.path = some path → j.condition = none →
    j.table.Resembles t → path.Follows schema scopes source rel target →
    rel.link.Implies j.kind (j.table.label.getD path.relation) path source target link keys →
    Joins.Restricted (j.table.label.getD path.relation) keys rel.filter condition →
    Join.Filled schema scopes j (link, { j with table := t, condition := some condition })

/-- The key and the source that a join with a link table gives. -/
def Join.linkEntry? (j : Join) : Option (Option String × Source) :=
  match j.table with
  | .named table (some label) => some (some label, .raw (some label) table)
  | _ => none

/-- The facts with links as sources. -/
def Facts.withLinks (f : Facts) (links : List Join) : Facts :=
  { f with sources := ⟨f.sources.entries ++ links.filterMap Join.linkEntry?⟩ }

/-- The second select is the first with its joins completed, in sight of the queries around it. -/
structure Select.Completed (schema : Schema) (around : List Facts) (s s' : Select) : Prop where
  /-- The joins stay in order, with links between them, and the links are new sources. -/
  joins : ∃ steps : List (Option Join × Join),
    List.Forall₂ (Join.Filled schema (s.facts :: around)) s.joins steps
      ∧ s'.joins = steps.flatMap (fun step => step.1.toList ++ [step.2])
      ∧ s'.facts = s.facts.withLinks (steps.filterMap (·.1))
  /-- Every join has a condition. -/
  conditions : ∀ j ∈ s'.joins, j.condition ≠ none
  /-- An alias is registered once. -/
  keyed : s'.facts.sources.Keyed

/-! ## Links are no starts of paths -/

/-- An entity that is found among more links is found without them. -/
theorem ScopesGain.scopedSource? {fs gs : List Facts} (h : ScopesGain (·.entity = none) fs gs) {q : String}
    {s : Source} {e : Entity} (hs : scopedSource? gs q = some s) (he : s.entity = some e) :
    scopedSource? fs q = some s := by
  induction h with
  | nil => exact hs
  | @cons f g fs gs hfg _ ih =>
    obtain ⟨⟨new, hnew, hlinks⟩, -⟩ := hfg
    unfold EntitySql.scopedSource? at hs ih ⊢
    rw [List.findSome?_cons] at hs ⊢
    unfold Sources.byQualifier? Sources.toList at hs ⊢
    rw [hnew, List.map_append, List.find?_append] at hs
    cases hf : (f.sources.entries.map (·.2)).find? fun s => s.answersTo q with
    | some s' =>
      rw [hf] at hs
      exact hs
    | none =>
      rw [hf, Option.none_or] at hs
      cases hn : (new.map (·.2)).find? fun s => s.answersTo q with
      | none =>
        rw [hn] at hs
        exact ih hs
      | some s' =>
        rw [hn] at hs
        cases hs
        obtain ⟨x, hx, rfl⟩ := List.mem_map.mp (List.mem_of_find?_eq_some hn)
        rw [hlinks x hx] at he
        cases he

namespace RelationPath.Follows

variable {schema : Schema} {path : RelationPath} {source target : Entity} {rel : Relation}

/-- A path that follows a relation among more links follows it without them. -/
theorem of_gains {fs gs : List Facts} (h : ScopesGain (·.entity = none) fs gs)
    (hpath : path.Follows schema gs source rel target) : path.Follows schema fs source rel target := by
  obtain ⟨⟨s, hs, he⟩, hrel, htarget⟩ := hpath
  exact ⟨⟨s, h.scopedSource? hs he, he⟩, hrel, htarget⟩

theorem of_follow {visible : List Facts} {f : Facts} {label : String}
    (h : Joins.follow schema visible f label path = .ok (source, rel, target)) :
    path.Follows schema (f :: visible) source rel target := by
  unfold Joins.follow at h
  split at h
  · cases h
  next s hs =>
  split at h
  · cases h
  next entity he =>
  split at h
  · cases h
  next relation hrel =>
  split at h
  · cases h
  next t ht =>
  cases h
  exact ⟨⟨s, hs, he⟩, hrel, ht⟩

end RelationPath.Follows

/-! ## One join -/

theorem Entity.identifier_of_key {e : Entity} {id : String} {p : Property} (h : e.key = .ok (id, p)) :
    e.identifier = [id] := by
  unfold key at h
  split at h
  · next single hid =>
    split at h
    · cases h
      exact hid
    · cases h
  · cases h

namespace Facts

theorem withLinks_nil (f : Facts) : f.withLinks [] = f := by
  simp [withLinks]

theorem withLinks_append (f : Facts) (js ks : List Join) :
    f.withLinks (js ++ ks) = (f.withLinks js).withLinks ks := by
  simp [withLinks]

/-- Links are raw. -/
theorem withLinks_gains {f : Facts} {links : List Join} (h : f.sources.Keyed → (f.withLinks links).sources.Keyed) :
    f.Gains (·.entity = none) (f.withLinks links) := by
  refine ⟨⟨links.filterMap Join.linkEntry?, rfl, fun x hx => ?_⟩, rfl, h, rfl⟩
  obtain ⟨j, -, hj⟩ := List.mem_filterMap.mp hx
  unfold Join.linkEntry? at hj
  split at hj <;> cases hj
  rfl

end Facts

namespace Joins

theorem implies_of_connect {kind : JoinKind} {label : String} {path : RelationPath} {source target : Entity}
    {f f' : Facts} {l : Link} {link : Option Join} {keys : Expr}
    (h : connect kind label path source target f l = .ok ((link, keys), f')) :
    l.Implies kind label path source target link keys ∧ f' = f.withLinks link.toList
      ∧ (f.sources.Keyed → f'.sources.Keyed) := by
  cases l with
  | forward foreignKey =>
    simp only [connect, bind_eq_ok, pure_eq_ok] at h
    obtain ⟨⟨targetId, p⟩, hid, h⟩ := h
    cases h
    exact ⟨.forward (Entity.identifier_of_key hid), f.withLinks_nil.symm, id⟩
  | inverse foreignKey =>
    simp only [connect, bind_eq_ok, pure_eq_ok] at h
    obtain ⟨⟨sourceId, p⟩, hid, h⟩ := h
    cases h
    exact ⟨.inverse (Entity.identifier_of_key hid), f.withLinks_nil.symm, id⟩
  | junction table sourceColumn targetColumn =>
    simp only [connect, bind_eq_ok, pure_eq_ok] at h
    obtain ⟨⟨sourceId, p⟩, hid, ⟨targetId, p'⟩, hid', f₁, hf₁, h⟩ := h
    cases h
    obtain ⟨rfl, hfree⟩ := Facts.addSource_eq_ok hf₁
    exact ⟨.junction (Entity.identifier_of_key hid) (Entity.identifier_of_key hid'), rfl,
      fun hkeyed => hkeyed.register hfree⟩

variable {schema : Schema} {filter : List Facts → Expr → Except CompileError Expr}

theorem restriction_resembles {label : String} {text : Option String} {keys : Expr} {r r' : Option Expr} {link : Option Join}
    (hr : restriction label text = .ok r) (hr' : Option.Rel Expr.Resembles r r') :
    Restricted label keys text (Completion.condition ⟨link, keys, r'⟩) := by
  cases text with
  | none =>
    cases hr
    cases hr'
    exact .unfiltered
  | some text =>
    simp only [restriction, bind_eq_ok, pure_eq_ok] at hr
    obtain ⟨x, hx, rfl⟩ := hr
    cases hr' with
    | some hx' => exact .filtered hx hx'

/-- The completion of joins changes nothing in an expression but its subqueries. -/
theorem resembles_expr {scopes : List Facts} {e e' : Expr} (h : expr schema filter scopes e = .ok e') : e.Resembles e' := by
  let d := edit schema (fun _ => true) (fun _ _ => True) fun _ _ => True
  have hfamiliar : Familiar (fun _ => true) scopes := fun f _ => by simp [Facts.strangers]
  have hnone : e.collect (strangers fun _ => true) = [] := by
    rw [Expr.collect_related collect_strangers, List.flatMap_eq_nil_iff]
    intro f _
    simp [Facts.strangers]
  have hedited : e.Edited d ⟨[], false⟩ e' :=
    (makes (fun _ _ _ _ _ _ _ _ => trivial) fun _ => trivial).edited_expr e _ hfamiliar hnone h
  obtain ⟨hframe, hidents⟩ := hedited.keeps fun hm => hm
  refine ⟨hframe, ?_⟩
  have heq : List.Forall₂ Eq e.idents e'.idents := hidents.imp fun _ _ hi => Eq.symm hi
  rw [List.forall₂_eq_eq_eq] at heq
  exact heq.symm

theorem resembles_optExpr {scopes : List Facts} {o o' : Option Expr} (h : optExpr schema filter scopes o = .ok o') :
    Option.Rel Expr.Resembles o o' := by
  cases o with
  | none => cases h; exact .none
  | some e =>
    simp only [optExpr, bind_eq_ok, pure_eq_ok] at h
    obtain ⟨e', he, rfl⟩ := h
    exact .some (resembles_expr he)

theorem resembles_table {scopes : List Facts} {t t' : Table} (h : table schema filter scopes t = .ok t') :
    t.Resembles t' := by
  cases t with
  | named name label => cases h; exact .named name label
  | derived s label =>
    simp only [table, bind_eq_ok, pure_eq_ok] at h
    obtain ⟨s', -, rfl⟩ := h
    exact .derived s s' label

/-- The reader of filters changes nothing in them but their subqueries. -/
def FilterKeeps (filter : List Facts → Expr → Except CompileError Expr) : Prop :=
  ∀ ⦃scopes e e'⦄, filter scopes e = .ok e' → e.Resembles e'

theorem filterKeeps (budget : Nat) : FilterKeeps (Joins.filter schema budget) := by
  intro scopes e e' h
  cases budget with
  | zero => cases h
  | succ budget => exact resembles_expr h

section

variable (hfilter : FilterKeeps filter) {scopes visible : List Facts}

include hfilter

theorem completed_resembles {j : Join} {c : Completion} {js : List Join} (h : completed filter scopes j c = .ok js) :
    ∃ r, Option.Rel Expr.Resembles c.restriction r
      ∧ js = c.link.toList ++ [{ j with condition := some (Completion.condition ⟨c.link, c.keys, r⟩) }] := by
  unfold completed at h
  split at h
  · next x hx =>
    simp only [bind_eq_ok, map_eq_ok, pure_eq_ok] at h
    obtain ⟨_, ⟨x', hx', rfl⟩, rfl⟩ := h
    exact ⟨some x', hx ▸ .some (hfilter hx'), rfl⟩
  · next hx =>
    cases h
    rw [hx]
    exact ⟨none, .none, rfl⟩

/-- A join along a path is filled in. -/
theorem filled_complete {start : List Facts} {f f' : Facts} {kind : JoinKind} {t t' : Table} {path : RelationPath}
    {c : Completion} {js : List Join} (hstart : ScopesGain (·.entity = none) start (f :: visible))
    (hc : complete schema visible f ⟨kind, t, none, some path⟩ path = .ok (c, f')) (ht : t.Resembles t')
    (hjs : completed filter scopes ⟨kind, t', none, some path⟩ c = .ok js) :
    ∃ j, Join.Filled schema start ⟨kind, t, none, some path⟩ (c.link, j) ∧ js = c.link.toList ++ [j]
      ∧ f' = f.withLinks c.link.toList ∧ (f.sources.Keyed → f'.sources.Keyed) := by
  simp only [complete, bind_eq_ok, pure_eq_ok, lift_query_eq_ok, lift_parse_eq_ok] at hc
  obtain ⟨⟨source, rel, target⟩, hfollow, ⟨⟨link, keys⟩, f₁⟩, hconnect, r, hr, hc⟩ := hc
  cases hc
  obtain ⟨himplies, hf, hkeyed⟩ := implies_of_connect hconnect
  obtain ⟨r', hr', rfl⟩ := completed_resembles hfilter hjs
  have hfollows := (RelationPath.Follows.of_follow hfollow).of_gains hstart
  exact ⟨_, .completed rfl rfl ht hfollows himplies (restriction_resembles hr hr'), rfl, hf, hkeyed⟩

/-- The joins of a select are filled in one after the other. `start` are the scopes without any links. -/
theorem filled_joins {start : List Facts} {js js' : List Join} {f f' : Facts} {cs : List (Option Completion)}
    (hstart : ScopesGain (·.entity = none) start (f :: visible))
    (hcs : completeAll schema visible f js = .ok (cs, f')) (hjs : joins schema filter scopes js cs = .ok js') :
    ∃ steps : List (Option Join × Join), List.Forall₂ (Join.Filled schema start) js steps
      ∧ js' = steps.flatMap (fun step => step.1.toList ++ [step.2])
      ∧ f' = f.withLinks (steps.filterMap (·.1)) ∧ (f.sources.Keyed → f'.sources.Keyed) := by
  induction js generalizing f cs js' with
  | nil =>
    simp only [completeAll, pure_eq_ok] at hcs
    cases hcs
    cases hjs
    exact ⟨[], .nil, rfl, (Facts.withLinks_nil _).symm, id⟩
  | cons j js ih =>
    obtain ⟨kind, t, condition, path⟩ := j
    by_cases hpending : Join.isPending ⟨kind, t, condition, path⟩ = true
    · simp only [Join.isPending, Bool.and_eq_true, Option.isSome_iff_exists, Option.isNone_iff_eq_none] at hpending
      obtain ⟨⟨path, rfl⟩, rfl⟩ := hpending
      simp only [completeAll, bind_eq_ok, pure_eq_ok] at hcs
      obtain ⟨⟨c, f₁⟩, hc, ⟨cs, f₂⟩, hcs, heq⟩ := hcs
      cases heq
      simp only [joins, bind_eq_ok, pure_eq_ok] at hjs
      obtain ⟨t', ht, here, hhere, js', hjs, rfl⟩ := hjs
      obtain ⟨j', hfilled, rfl, rfl, hkeyed⟩ := filled_complete hfilter hstart hc (resembles_table ht) hhere
      have hstart' : ScopesGain (·.entity = none) start (f.withLinks c.link.toList :: visible) :=
        hstart.trans (.cons (Facts.withLinks_gains hkeyed) (ScopesGain.refl visible))
      obtain ⟨steps, hsteps, rfl, rfl, hkeyed'⟩ := ih hstart' hcs hjs
      refine ⟨(c.link, j') :: steps, .cons hfilled hsteps, rfl, ?_, fun h => hkeyed' (hkeyed h)⟩
      rw [← Facts.withLinks_append]
      cases c.link <;> rfl
    · obtain ⟨cs', rfl, hrest⟩ : ∃ cs', cs = none :: cs' ∧ completeAll schema visible f js = .ok (cs', f') := by
        cases condition <;> cases path
        case none.some => exact absurd rfl hpending
        all_goals
          simp only [completeAll, bind_eq_ok, pure_eq_ok] at hcs
          obtain ⟨⟨cs', f₁⟩, hcs, heq⟩ := hcs
          cases heq
          exact ⟨cs', rfl, hcs⟩
      simp only [joins, bind_eq_ok, pure_eq_ok] at hjs
      obtain ⟨t', ht, c', hc, js', hjs, rfl⟩ := hjs
      obtain ⟨steps, hsteps, rfl, rfl, hkeyed⟩ := ih hstart hrest hjs
      exact ⟨(none, ⟨kind, t', c', path⟩) :: steps,
        .cons (.kept (Bool.eq_false_iff.mpr hpending) (resembles_table ht) (resembles_optExpr hc)) hsteps, rfl, rfl, hkeyed⟩

end

end Joins

/-! ## Whole selects -/

/-- A select whose joins can be completed: those without a condition have a path, and aliases are registered
once. -/
structure Select.Prepared (s : Select) : Prop where
  paths : ∀ j ∈ s.joins, j.condition = none → j.path ≠ none
  keyed : s.facts.sources.Keyed

namespace Select.Prepared

theorem of_shaped {V : Vocabulary} {s : Select} (h : s.Shaped V) : s.Prepared := by
  refine ⟨fun j hj => ?_, h.facts_eq ▸ .nil⟩
  cases s
  obtain ⟨-, -, -, hjs, -⟩ := h
  exact (joinsShaped_iff.mp hjs j hj).2.2.2

theorem of_hasInFilter {schema : Schema} {s : Select} (h : schema.HasInFilter s) : s.Prepared := by
  obtain ⟨text, -, x, hx, hs⟩ := h
  exact .of_shaped ((Expr.Shaped.covers x (Expr.shaped_of_ofDetached hx)).selects s hs)

end Select.Prepared

theorem Sweep.Visits.prepared {w : Sweep} (hw : w.Grows) {x y : Enclosed} (h : w.Visits x y)
    (hx : x.select.Prepared) : y.select.Prepared := by
  obtain ⟨hpaths, hkeyed⟩ := hx
  refine ⟨fun j' hj' hnone => ?_, h.facts.keyed hkeyed⟩
  obtain ⟨seen, -, hswept⟩ := h.swept hw
  obtain ⟨j, hj, hswept⟩ := exists_left_of_forall₂ hswept j' hj'
  have hsome := hswept.conditional
  rw [hnone] at hsome
  have hnone' : j.condition = none := Option.isNone_iff_eq_none.mp (Option.isSome_eq_false_iff.mp hsome.symm)
  rw [hswept.path]
  exact hpaths j hj hnone'

theorem Link.Implies.condition_ne_none {kind : JoinKind} {label : String} {path : RelationPath} {source target : Entity}
    {l : Link} {link : Option Join} {keys : Expr} (h : l.Implies kind label path source target link keys) :
    ∀ k ∈ link.toList, k.condition ≠ none := by
  intro k hk
  cases h with
  | forward | inverse => cases hk
  | junction =>
    cases List.mem_singleton.mp hk
    exact Option.some_ne_none _

theorem Join.Filled.conditions {schema : Schema} {scopes : List Facts} {j : Join} {step : Option Join × Join}
    (h : j.Filled schema scopes step) (hj : j.condition = none → j.path ≠ none) :
    ∀ k ∈ step.1.toList ++ [step.2], k.condition ≠ none := by
  cases h with
  | kept hpending _ hc =>
    intro k hk
    cases List.mem_singleton.mp hk
    intro hnone
    dsimp only at hnone
    subst hnone
    have hcondition : j.condition = none := by
      cases hc' : j.condition with
      | none => rfl
      | some e => rw [hc'] at hc; cases hc
    simp [Join.isPending, hcondition, hj hcondition] at hpending
  | completed _ _ _ _ himplies _ =>
    intro k hk
    rcases List.mem_append.mp hk with hk | hk
    · exact himplies.condition_ne_none k hk
    · cases List.mem_singleton.mp hk
      exact Option.some_ne_none _

theorem Joins.completed_of_select {schema : Schema} {filter : List Facts → Expr → Except CompileError Expr}
    (hfilter : FilterKeeps filter) {around visible : List Facts} {isolated : Bool} {s s' : Select}
    (hs : s.Prepared) (haround : ScopesGain (·.entity = none) around visible)
    (h : select schema filter visible isolated s = .ok s') : s.Completed schema around s' := by
  obtain ⟨_, fs, t, js, c, gs, hv, os, l, o, us, f⟩ := s
  simp only [select, bind_eq_ok, pure_eq_ok] at h
  obtain ⟨⟨cs, f'⟩, hcs, fs', -, t', -, js', hjs, c', -, gs', -, hv', -, os', -, l', -, o', -, us', -, rfl⟩ := h
  obtain ⟨steps, hsteps, rfl, rfl, hkeyed⟩ := filled_joins hfilter (.cons (.refl f) haround) hcs hjs
  refine ⟨⟨steps, hsteps, rfl, rfl⟩, fun j hj => ?_, hkeyed hs.keyed⟩
  obtain ⟨step, hstep, hj⟩ := List.mem_flatMap.mp hj
  obtain ⟨j₀, hj₀, hfilled⟩ := exists_left_of_forall₂ hsteps step hstep
  exact hfilled.conditions (hs.paths j₀ hj₀) j hj

/-! ## Whole queries -/

/-- The passes that find the sources of a query lead from the first query to the second. -/
def Query.Placed (n : Naming) (q l : Query) : Prop :=
  [Pass.sources, .derived].foldlM (fun q p => p.run n q) q = .ok l

theorem Query.placed_eq_ok {n : Naming} {q l : Query} :
    q.Placed n l ↔ ∃ k, n.sweep.query q = .ok k ∧ Derived.sweep.query k = .ok l := by
  simp only [Placed, List.foldlM_cons, List.foldlM_nil, Pass.run, bind_eq_ok, pure_eq_ok, Joins.lift_query_eq_ok]
  constructor
  · rintro ⟨k, hk, l, hl, rfl⟩
    exact ⟨k, hk, hl⟩
  · rintro ⟨k, hk, hl⟩
    exact ⟨k, hk, l, hl, rfl⟩

namespace Query.Placed

variable {n : Naming} {q l : Query}

theorem prepared (hq : q.Shaped .all) (h : q.Placed n l) : ∀ x ∈ l.enclosed, x.select.Prepared := by
  obtain ⟨k, hk, hl⟩ := placed_eq_ok.mp h
  intro x₂ hx₂
  obtain ⟨x₁, hx₁, hderived⟩ := exists_left_of_forall₂ (Derived.grows.visits hl) x₂ hx₂
  obtain ⟨x₀, hx₀, hsources⟩ := exists_left_of_forall₂ (n.grows.visits hk) x₁ hx₁
  have hselect : x₀.select ∈ q.selects := by
    rw [← q.map_enclosed]
    exact List.mem_map_of_mem hx₀
  exact hderived.prepared Derived.grows (hsources.prepared n.grows (.of_shaped (hq.covers.selects _ hselect)))

/-- All sources are of entities of the schema. -/
theorem familiar (hq : q.Shaped .all) (h : q.Placed n l) : l.collect (strangers n.schema.has) = [] := by
  obtain ⟨k, hk, hl⟩ := placed_eq_ok.mp h
  refine Joined.familiar (fun _ he => decide_eq_true he) ?_ hk hl
  rw [Query.collect_related collect_strangers]
  exact hq.covers.facts.strangers

/-- The selects stay in order, and their joins are completed. -/
theorem completed (hq : q.Shaped .all) (h : q.Placed n l) {j : Query} (hj : Joins.query n.schema l = .ok j) :
    Interleaved (fun x y => y.isolated = x.isolated ∧ x.select.Completed n.schema x.around y.select)
      (fun y => ∃ s, n.schema.HasInFilter s ∧ s.Completed n.schema y.around y.select) l.enclosed j.enclosed := by
  refine ((Joins.visits (h.familiar hq) hj).and_mem_left (h.prepared hq)).mono ?_ ?_
  · rintro x y ⟨hx, hisolated, haround, hrun⟩
    exact ⟨hisolated, Joins.completed_of_select (Joins.filterKeeps _) hx haround hrun⟩
  · rintro y ⟨s, hs, budget, hrun⟩
    exact ⟨s, hs, Joins.completed_of_select (Joins.filterKeeps _) (.of_hasInFilter hs) (.refl _) hrun⟩

end Query.Placed

/-- Authors with agents, and books with tags. Only books that are sold count as those of an author. -/
def catalogue : Schema where
  entities :=
    [{ name := "Tag", table := "tags", properties := [("id", { column := "id", ty := .int })]
       identifier := ["id"] },
     { name := "Book", table := "books"
       properties := [("id", { column := "id", ty := .int }), ("author_id", { column := "author_id", ty := .int })]
       relations := [("author", { target := "Author", link := .forward "author_id" }),
         ("tags", { target := "Tag", link := .junction "book_tags" "book_id" "tag_id" })]
       identifier := ["id"] },
     { name := "Author", table := "authors", properties := [("id", { column := "id", ty := .int })]
       relations := [("agents", { target := "Author", link := .junction "agencies" "author_id" "agent_id" }),
         ("books", { target := "Book", link := .inverse "author_id"
                     filter := some "id IN (SELECT s.book_id FROM sales s JOIN a.agents g)" })]
       identifier := ["id"] }]

end EntitySql
