import Mathlib
import EntitySql.Proofs.Blocks
import EntitySql.Proofs.Composition

/-!
# Isolated selects

A derived table, a part of a union and the select of an insert stand alone: the passes make of them what
they make of the same select as a query of its own, whatever stands around it. Sweeps and the mapping of
results start such a select without any query in sight. The completion of joins does not: a path may start
at a source of a query around the select that it joins in. But the first pass has looked for the start of
each path among the sources of its own select, and found it, so the completion finds it there too.

* `Joins.select_alone`: the joins of a select that owns its paths are completed alike everywhere.
* **`Query.analyse_isolated`**: isolated selects are resolved as on their own.
-/

namespace EntitySql

open Outcome

/-! ## The starts of paths -/

/-- Each path of a join starts at a source of the select itself. -/
def Select.OwnsPaths (s : Select) : Prop :=
  ∀ j ∈ s.joins, ∀ path, j.path = some path → ∃ x, s.facts.sources.byQualifier? path.source = some x

/-- New sources hide none of those before them. -/
theorem Facts.Gains.byQualifier? {P : Source → Prop} {f g : Facts} (h : f.Gains P g) {q : String} {s : Source}
    (hs : f.sources.byQualifier? q = some s) : g.sources.byQualifier? q = some s := by
  obtain ⟨⟨new, hnew, -⟩, -⟩ := h
  unfold Sources.byQualifier? Sources.toList at hs ⊢
  rw [hnew, List.map_append, List.find?_append, hs, Option.some_or]

theorem JoinsEdited.path_mem {d : Edit} (hd : ∀ {j new}, ¬ d.complete j new) :
    ∀ {js js' : List Join} {p : Spot}, JoinsEdited d p js js' → ∀ j' ∈ js', ∃ j ∈ js, j.path = j'.path
  | [], _, _, .nil => List.forall_mem_nil _
  | _ :: _, _, _, .keep _ _ _ h => by
    refine List.forall_mem_cons.mpr ⟨⟨_, List.mem_cons_self, rfl⟩, fun j' hj' => ?_⟩
    obtain ⟨j, hj, hpath⟩ := h.path_mem hd j' hj'
    exact ⟨j, List.mem_cons_of_mem _ hj, hpath⟩
  | _ :: _, _, _, .complete _ hnew _ => (hd hnew).elim

namespace Naming

variable {n : Naming}

theorem scopedSource?_of_resolve {scopes : List Facts} {name : String} {label : Option String}
    {path : RelationPath} {r : Table × Source} (hpath : RelationPath.ofName? name = some path)
    (h : n.resolve true scopes name label = .ok r) : ∃ s, scopedSource? scopes path.source = some s := by
  simp only [resolve, hpath, if_true, navigate] at h
  split at h
  · cases h
  · next s hs => exact ⟨s, hs⟩

/-- The first pass finds the start of each path in sight of its join. -/
theorem owned_joins : ∀ {js js' : List Join} {f f' : Facts},
    (∀ j ∈ js, j.path = j.table.name?.bind RelationPath.ofName?) → n.sweep.joins [] f js = .ok (js', f') →
    f.Gains (fun _ => True) f' ∧ ∀ j' ∈ js', ∀ path, j'.path = some path →
      ∃ s, f'.sources.byQualifier? path.source = some s
  | [], _, _, _, _, h => by
    simp only [Sweep.joins, pure_eq_ok] at h
    cases h
    exact ⟨.refl _, List.forall_mem_nil _⟩
  | ⟨_, t, _, path⟩ :: js, _, f, _, hjs, h => by
    simp only [Sweep.joins, bind_eq_ok, pure_eq_ok] at h
    obtain ⟨⟨t', f₁⟩, ht, c', -, ⟨js', f₂⟩, hrest, h⟩ := h
    cases h
    obtain ⟨hpath, hjs⟩ := List.forall_mem_cons.mp hjs
    have hf₁ : f.Gains (fun _ => True) f₁ :=
      (Sweep.Makes.source (s := .ofFacts f) n.makes t trivial ht).2.2.mono fun _ _ => trivial
    obtain ⟨hf₂, howned⟩ := owned_joins hjs hrest
    refine ⟨hf₁.trans hf₂, List.forall_mem_cons.mpr ⟨fun p hp => ?_, howned⟩⟩
    dsimp only at hpath hp
    subst hp
    cases t with
    | derived s label => cases hpath
    | named name label =>
      simp only [Sweep.source, sweep, bind_eq_ok] at ht
      obtain ⟨r, hr, -⟩ := ht
      obtain ⟨s, hs⟩ := scopedSource?_of_resolve hpath.symm hr
      obtain ⟨g, hg, hfirst⟩ := List.exists_of_findSome?_eq_some hs
      cases List.mem_singleton.mp hg
      exact ⟨s, (hf₁.trans hf₂).byQualifier? hfirst⟩

theorem ownsPaths {V : Vocabulary} {s s' : Select} (hs : s.Shaped V) (h : n.sweep.select [] s = .ok s') :
    s'.OwnsPaths := by
  obtain ⟨_, fs, t, js, c, gs, hv, os, l, o, us, f⟩ := s
  obtain ⟨-, -, -, hjs, -⟩ := hs
  simp only [Sweep.select, bind_eq_ok, pure_eq_ok] at h
  obtain ⟨fs', -, ⟨t', f₁⟩, -, ⟨js', f₂⟩, hjoins, c', -, gs', -, hv', -, os', -, l', -, o', -, us', -, rfl⟩ := h
  exact (owned_joins (fun j hj => (joinsShaped_iff.mp hjs j hj).2.2.1) hjoins).2

end Naming

theorem Derived.ownsPaths {s s' : Select} (hs : s.OwnsPaths) (h : Derived.sweep.select [] s = .ok s') :
    s'.OwnsPaths := by
  intro j' hj' path hpath
  obtain ⟨-, -, hjs, -, -, -, -, -, -, -, hf⟩ := Sweep.Makes.select Derived.makes s .nil h
  obtain ⟨j, hj, heq⟩ := hjs.path_mem (fun h => h) j' hj'
  obtain ⟨x, hx⟩ := hs j hj path (heq.trans hpath)
  exact ⟨x, hf.gains.byQualifier? hx⟩

namespace Joins

variable {schema : Schema} {visible : List Facts}

theorem complete_own {f : Facts} {j : Join} {path : RelationPath} {s : Source}
    (hs : f.sources.byQualifier? path.source = some s) :
    complete schema visible f j path = complete schema [] f j path := by
  have hscoped : ∀ fs, scopedSource? (f :: fs) path.source = some s := by
    intro fs
    rw [scopedSource?, List.findSome?_cons, hs]
  have hfollow : ∀ label, follow schema visible f label path = follow schema [] f label path := by
    intro label
    rw [follow, follow, hscoped, hscoped]
  rw [complete, complete, hfollow]

theorem gains_complete {f f' : Facts} {kind : JoinKind} {t : Table} {path : RelationPath} {c : Completion}
    (h : complete schema visible f ⟨kind, t, none, some path⟩ path = .ok (c, f')) :
    f.Gains (fun _ => True) f' := by
  have hf : Familiar (fun _ => true) (f :: visible) := fun g _ => by simp [Facts.strangers]
  exact (plan_complete hf h).2.mono fun _ _ => trivial

/-- The queries around a select that owns its paths do not matter. -/
theorem completeAll_own : ∀ {js : List Join} {f : Facts},
    (∀ j ∈ js, ∀ path, j.path = some path → ∃ s, f.sources.byQualifier? path.source = some s) →
    completeAll schema visible f js = completeAll schema [] f js
  | [], _, _ => rfl
  | ⟨kind, t, none, some path⟩ :: js, f, h => by
    obtain ⟨hj, hjs⟩ := List.forall_mem_cons.mp h
    obtain ⟨s, hs⟩ := hj path rfl
    simp only [completeAll, complete_own hs]
    cases hc : complete schema [] f ⟨kind, t, none, some path⟩ path with
    | error e => rfl
    | ok r =>
      obtain ⟨c, f'⟩ := r
      have hgains := gains_complete hc
      have hrest : completeAll schema visible f' js = completeAll schema [] f' js := by
        refine completeAll_own fun j hj p hp => ?_
        obtain ⟨x, hx⟩ := hjs j hj p hp
        exact ⟨x, hgains.byQualifier? hx⟩
      simp only [bind, Except.bind, hrest]
  | ⟨kind, t, some c, path⟩ :: js, f, h | ⟨kind, t, none, none⟩ :: js, f, h => by
    obtain ⟨-, hjs⟩ := List.forall_mem_cons.mp h
    simp only [completeAll, completeAll_own hjs]

/-- **A select that owns its paths** is completed in isolation as it is as a query of its own. -/
theorem select_alone {filter : List Facts → Expr → Except CompileError Expr} {s : Select} (hs : s.OwnsPaths) :
    select schema filter visible true s = select schema filter [] false s := by
  obtain ⟨_, fs, t, js, c, gs, hv, os, l, o, us, f⟩ := s
  rw [select, select, completeAll_own hs]
  rfl

end Joins

/-! ## Trees of one build -/

/-- Trees that differ in names, tables and facts only. Their isolated selects are related by `R`. -/
def Edit.inPlace (R : Select → Select → Prop) : Edit where
  ident _ _ _ := True
  table _ _ _ := True
  facts _ _ _ := True
  alone := R

/-- Trees that also differ in the joins along relations, which have conditions in the second and may have a
link before them, and in the fields that are names, in whose place others may stand. Their isolated selects
are related by `R`. -/
def Edit.isolating (R : Select → Select → Prop) : Edit where
  ident _ _ _ := True
  table _ _ _ := True
  keep j := j.isPending = false
  complete j new := j.isPending = true ∧ ∃ link condition,
    new = link.toList ++ [{ j with condition := some condition }] ∧ ∀ l, link = some l → l.table.name?.isSome
  expand _ f xs := (∃ i, f.expr = .ident i) ∧ ∀ x ∈ xs, ∃ i, x.expr = .ident i
  facts _ _ _ := True
  alone := R

section

variable {R R' : Select → Select → Prop} {P : Select → Prop}

/-- The first two passes. -/
theorem Naming.follows {n : Naming} (halone : ∀ {s s' s''}, P s → n.sweep.select [] s = .ok s' →
    Derived.sweep.select [] s' = .ok s'' → R s s'') : n.edit.Follows Derived.edit (.inPlace R) P where
  ident _ _ := trivial
  mark h h' := h'.trans h
  table _ _ := trivial
  keep _ _ _ := trivial
  later h := h.elim
  sooner h := h.elim
  expandLater _ h := h.elim
  expandSooner h := h.elim
  facts _ _ := trivial
  alone := halone

/-- The third pass. -/
theorem Joins.follows {schema : Schema} {A : Entity → Bool} {K : String → Expr → Prop}
    {L : Select → Select → Prop}
    (halone : ∀ {s s' s''}, P s → R s s' → L s' s'' → R' s s'') :
    (Edit.inPlace R).Follows (Joins.edit schema A K L) (.isolating R') P where
  ident _ _ := trivial
  mark h h' := h'.trans h
  table _ _ := trivial
  keep {kind t t' c c' path} _ hkeep hsome := by
    have hkeep : Join.isPending ⟨kind, t', c', path⟩ = false := hkeep
    show Join.isPending ⟨kind, t, c, path⟩ = false
    rw [Join.isPending, ← Option.not_isSome] at hkeep ⊢
    rwa [← hsome]
  later {kind t c c' path new} h hsome := by
    obtain ⟨hconnects, -⟩ := h
    obtain ⟨hpath, hnone⟩ := hconnects.pending
    dsimp only at hpath hnone
    subst hpath hnone
    rw [Option.isSome_none] at hsome
    refine ⟨by simp [Join.isPending, Option.isSome_eq_false_iff.mp hsome.symm], _, _, rfl, fun l hl => ?_⟩
    obtain ⟨table, a, b, k, -, -, rfl⟩ := hconnects.equates.2 l hl
    rfl
  sooner h := h.elim
  expandLater _ h := h.elim
  expandSooner h := h.elim
  facts _ _ := trivial
  alone := halone

theorem Expr.Edited.of_ident {d : Edit} {p : Spot} {e : Expr} {i : Identifier} (h : e.Edited d p (.ident i)) :
    ∃ i', e = .ident i' := by
  cases h
  exact ⟨_, rfl⟩

theorem Table.Edited.name?_isSome {d : Edit} {joined : Bool} {t t' : Table} (h : t.Edited d joined t') :
    t'.name?.isSome = t.name?.isSome := by
  cases h <;> rfl

/-- The passes after the third, which complete no joins and replace names by names among the fields. -/
theorem Edit.isolating_follows {d : Edit} (hmark : ∀ {m m'}, d.mark m m' → m' = m)
    (hcomplete : ∀ {j new}, ¬ d.complete j new)
    (hexpand : ∀ {p f xs}, d.expand p f xs → (∃ i, f.expr = .ident i) ∧ ∀ x ∈ xs, ∃ i, x.expr = .ident i)
    (halone : ∀ {s s' s''}, R s s' → d.alone s' s'' → R' s s'') :
    (Edit.isolating R).Follows d (.isolating R') P where
  ident _ _ := trivial
  mark h h' := (hmark h').trans h
  table _ _ := trivial
  keep h _ _ := h
  later h := (hcomplete h).elim
  sooner {kind t c path new new' p} h hnew := by
    obtain ⟨hpending, link, condition, rfl, hlink⟩ := h
    obtain ⟨links, last, rfl, hlinks, hlast⟩ := hnew.split
    cases hlast with
    | complete _ hfilled _ => exact (hcomplete hfilled).elim
    | keep _ ht hc hnil =>
      cases hnil
      cases hc with
      | some he =>
        refine ⟨_, ht, hpending, ?_⟩
        cases link with
        | none =>
          cases hlinks
          exact ⟨none, _, rfl, nofun⟩
        | some l =>
          cases hlinks with
          | complete _ hfilled _ => exact (hcomplete hfilled).elim
          | keep _ hl _ hnil =>
            cases hnil
            refine ⟨some _, _, rfl, ?_⟩
            rintro _ ⟨⟩
            exact hl.name?_isSome.trans (hlink _ rfl)
  expandLater {p p' x x' label xs} h hx := by
    obtain ⟨⟨i, hi⟩, hxs⟩ := hexpand hx
    dsimp only at hi
    subst hi
    exact ⟨h.of_ident, hxs⟩
  expandSooner {p p' f xs xs'} h hxs := by
    refine ⟨h.1, ?_⟩
    have hnames := h.2
    clear h
    induction xs generalizing xs' with
    | nil =>
      cases hxs
      exact List.forall_mem_nil _
    | cons x xs ih =>
      obtain ⟨⟨i, hi⟩, hrest⟩ := List.forall_mem_cons.mp hnames
      cases hxs with
      | keep label he hxs =>
        dsimp only at hi
        subst hi
        cases he
        exact List.forall_mem_cons.mpr ⟨⟨_, rfl⟩, ih hxs hrest⟩
      | expand hx hxs => exact List.forall_mem_append.mpr ⟨(hexpand hx).2, ih hxs hrest⟩
  facts _ _ := trivial
  alone _ h h' := halone h h'

end

/-! ## The passes up to the mapping of results -/

/-- The passes that resolve a query, up to the numbering of its parameters. -/
def Pass.analysis : List Pass := [.sources, .derived, .joins, .columns, .results]

/-- The query after these passes. -/
def Query.analyse (n : Naming) (q : Query) : Except CompileError Query :=
  Pass.analysis.foldlM (fun q p => p.run n q) q

theorem Query.analyse_eq_ok {n : Naming} {q r : Query} (h : q.analyse n = .ok r) :
    ∃ j, q.Joined n j ∧ ∃ c, Columns.sweep.query j = .ok c ∧ Results.query c = .ok r := by
  have hall : Pass.analysis = [Pass.sources, .derived, .joins] ++ [.columns, .results] := rfl
  rw [analyse, hall, List.foldlM_append, bind_eq_ok] at h
  obtain ⟨j, hj, h⟩ := h
  simp only [List.foldlM_cons, List.foldlM_nil, Pass.run, bind_eq_ok, pure_eq_ok, Joins.lift_query_eq_ok] at h
  obtain ⟨c, hc, r', hr, rfl⟩ := h
  exact ⟨j, hj, c, hc, hr⟩

/-- A check of the query of a text and of what the passes make of it, read back. -/
theorem Query.exists_run {text : String} {run : Query → Except CompileError Query} {check : Query → Query → Bool}
    (h : ((Query.ofText text).toOption.bind fun q => (run q).toOption.map (check q)) = some true) :
    ∃ q r, Query.ofText text = .ok q ∧ run q = .ok r ∧ check q r = true := by
  cases hq : Query.ofText text with
  | error e => rw [hq] at h; cases h
  | ok q =>
    rw [hq] at h
    change (run q).toOption.map (check q) = some true at h
    cases hr : run q with
    | error e => rw [hr] at h; cases h
    | ok r =>
      rw [hr] at h
      exact ⟨q, r, rfl, hr, Option.some.inj h⟩

/-- The passes lead from one select to another. -/
def Select.Reaches (n : Naming) (ps : List Pass) (s s' : Select) : Prop :=
  ps.foldlM (fun q p => p.run n q) (.select s) = .ok (.select s')

namespace Select.Reaches

variable {n : Naming} {ps : List Pass} {s s' s'' : Select}

theorem step {p : Pass} (h : s.Reaches n ps s') (h' : p.run n (.select s') = .ok (.select s'')) :
    s.Reaches n (ps ++ [p]) s'' := by
  simp only [Reaches, List.foldlM_append, List.foldlM_cons, List.foldlM_nil, bind_eq_ok, pure_eq_ok]
  exact ⟨_, h, _, h', rfl⟩

theorem sweep {p : Pass} {w : Sweep} (hp : ∀ q, p.run n q = QueryError.lift (w.query q))
    (h : s.Reaches n ps s') (h' : w.select [] s' = .ok s'') : s.Reaches n (ps ++ [p]) s'' :=
  h.step ((hp _).trans (Joins.lift_query_eq_ok.mpr (map_eq_ok.mpr ⟨_, h', rfl⟩)))

theorem ownsPaths {V : Vocabulary} (hs : s.Shaped V) (h : s.Reaches n [.sources, .derived] s') :
    s'.OwnsPaths := by
  simp only [Reaches, List.foldlM_cons, List.foldlM_nil, Pass.run, bind_eq_ok, pure_eq_ok,
    Joins.lift_query_eq_ok] at h
  obtain ⟨_, hfirst, _, hsecond, rfl⟩ := h
  obtain ⟨s₁, hs₁, rfl⟩ := map_eq_ok.mp hfirst
  obtain ⟨s₂, hs₂, heq⟩ := map_eq_ok.mp hsecond
  cases heq
  exact Derived.ownsPaths (Naming.ownsPaths hs hs₁) hs₂

end Select.Reaches

/-- **Isolated selects are resolved as on their own.** The query before and after the passes has the same
build, and wherever a select stands alone in it, as a derived table, as a part of a union or as what is
inserted, the passes succeed on this select as a query, and what they make of it stands in its place. -/
theorem Query.analyse_isolated {n : Naming} {text : String} {q r : Query} (hq : Query.ofText text = .ok q)
    (hr : q.analyse n = .ok r) :
    q.Edited (.isolating fun s s' => (Query.select s).analyse n = .ok (.select s')) r := by
  have hshaped := Query.shaped_of_ofText hq
  obtain ⟨j, hjoined, c, hc, hr⟩ := analyse_eq_ok hr
  obtain ⟨k, hk, l, hl, hj⟩ := joined_eq_ok hjoined
  have hlabels : j.facts.labels = [] := by
    rw [Joined.labels (A := fun _ => true) (fun _ _ => rfl) (strangers_none q) hjoined, hshaped.facts_eq]
  have hfamiliar : l.collect (strangers fun _ => true) = [] := strangers_none l
  -- each pass in turn, with what it does to a select that stands alone
  have hplaced : q.Edited (.inPlace (Select.Reaches n [.sources, .derived])) l :=
    (Naming.edited hk).trans (Naming.follows fun _ h h' =>
      ((show Select.Reaches n [] _ _ from rfl).sweep (p := .sources) (fun _ => rfl) h).sweep (fun _ => rfl) h')
      hshaped.covers.selects (Derived.edited hl)
  have hcompleted : q.Edited (.isolating (Select.Reaches n [.sources, .derived, .joins])) j := by
    let L (s s' : Select) : Prop := ∃ scopes, Joins.select n.schema
      (Joins.filter n.schema (Joins.nestingBound n.schema)) scopes true s = .ok s'
    refine hplaced.trans (Joins.follows fun hs hreach hrun => ?_) hshaped.covers.selects
      (Joins.edited (K := fun _ _ => True) (L := L) (fun _ _ _ _ _ _ _ _ => trivial) (fun h => ⟨_, h⟩)
        hfamiliar hj)
    obtain ⟨scopes, hrun⟩ := hrun
    rw [Joins.select_alone (hreach.ownsPaths hs)] at hrun
    exact hreach.step (map_eq_ok.mpr ⟨_, hrun, rfl⟩)
  have hnamed : q.Edited (.isolating (Select.Reaches n [.sources, .derived, .joins, .columns])) c :=
    hcompleted.trans (Edit.isolating_follows (d := Columns.edit) (fun h => h) (fun h => h)
      (fun h => h.elim) fun hreach hrun => hreach.sweep (fun _ => rfl) hrun) hshaped.covers.selects
      (Columns.edited hlabels hc)
  refine hnamed.trans (Edit.isolating_follows (d := Results.edit) (fun h => h) (fun h => h) (fun hx => ?_)
    fun hreach hrun => hreach.step (Joins.lift_query_eq_ok.mpr (map_eq_ok.mpr ⟨_, hrun, rfl⟩)))
    hshaped.covers.selects (Results.edited hr)
  obtain ⟨_, _, -, hx⟩ := hx
  obtain ⟨i, ss, qualify, hi, -, -, -, rfl⟩ := Results.expansion_eq_some hx
  refine ⟨⟨i, hi⟩, fun x hx => ?_⟩
  obtain ⟨s, -, hx⟩ := List.mem_flatMap.mp hx
  obtain ⟨path, p, -, rfl⟩ := Results.mem_ofSource hx
  exact ⟨_, rfl⟩

/-- People whose boss has a boss, through a derived table with an alias that the query around it has too,
and people on their own. -/
def ranksText : String :=
  "SELECT p.id FROM Person p JOIN (SELECT p.id FROM Person p JOIN p.boss b) d ON d.id = p.boss_id "
    ++ "UNION SELECT id FROM Person WHERE active = TRUE"

theorem Query.analyse_isolated_ranks : ∃ q r, Query.ofText ranksText = .ok q
    ∧ q.analyse ⟨staff, true⟩ = .ok r
    ∧ q.Edited (.isolating fun s s' => (Query.select s).analyse ⟨staff, true⟩ = .ok (.select s')) r := by
  have hchecked : ((Query.ofText ranksText).toOption.bind fun q =>
      (q.analyse ⟨staff, true⟩).toOption.map fun _ => true) = some true := by
    unfold ranksText
    rw [← String.ofList_append, ofText_ofList]
    decide +kernel
  obtain ⟨q, r, hq, hr, -⟩ := exists_run hchecked
  exact ⟨q, r, hq, hr, analyse_isolated hq hr⟩

end EntitySql
