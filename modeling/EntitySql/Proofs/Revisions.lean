import Mathlib
import EntitySql.Proofs.Completion
import EntitySql.Proofs.Edits

/-!
# The edits of tables, joins and names

The first four passes of the resolution edit the query (`Edit`):

* `Naming.edited`: tables become those of entities, and sources of the query.
* `Derived.edited`: derived tables become sources.
* `Joins.edited`: joins along relations are completed, and links become sources. This fails where the joins of one
  select cannot be completed, or in a filter (`Joins.failsWith_query`).
* `Columns.edited`: names become columns.
-/

namespace EntitySql

open Outcome

/-! ## New sources -/

/-- Keys are used once, and an alias is the key of its source. -/
structure Sources.Keyed (ss : Sources) : Prop where
  distinct : (ss.entries.map (·.1)).Nodup
  key_eq : ∀ x ∈ ss.entries, ∀ label, x.2.label = some label → x.1 = some label

namespace Sources.Keyed

theorem nil : Keyed {} := ⟨List.nodup_nil, List.forall_mem_nil _⟩

/-- No two sources have the same alias. -/
theorem eq_of_label {ss : Sources} (h : ss.Keyed) {s s' : Source} {label : String} (hs : s ∈ ss.toList)
    (hs' : s' ∈ ss.toList) (hl : s.label = some label) (hl' : s'.label = some label) : s = s' := by
  obtain ⟨x, hx, rfl⟩ := List.mem_map.mp hs
  obtain ⟨x', hx', rfl⟩ := List.mem_map.mp hs'
  have hkey : x.1 = x'.1 := (h.key_eq x hx label hl).trans (h.key_eq x' hx' label hl').symm
  rw [List.inj_on_of_nodup_map h.distinct hx hx' hkey]

theorem register {ss : Sources} (h : ss.Keyed) {s : Source} (hfree : ss.hasKey (ss.keyOf s) = false) :
    Keyed ⟨ss.entries ++ [(ss.keyOf s, s)]⟩ := by
  refine ⟨?_, List.forall_mem_append.mpr ⟨h.key_eq, List.forall_mem_singleton.mpr fun label hl => ?_⟩⟩
  · rw [List.map_append, List.nodup_append]
    refine ⟨h.distinct, List.nodup_singleton _, ?_⟩
    rintro key hkey _ hmem rfl
    cases List.mem_singleton.mp hmem
    obtain ⟨x, hx, hxkey⟩ := List.mem_map.mp hkey
    rw [hasKey, List.any_eq_false] at hfree
    exact hfree x hx (beq_iff_eq.mpr hxkey)
  · rw [keyOf, hl]

end Sources.Keyed

/-- The facts have got more sources, of the given kind; aliases and results are the same. -/
structure Facts.Gains (P : Source → Prop) (f f' : Facts) : Prop where
  sources : ∃ new, f'.sources.entries = f.sources.entries ++ new ∧ ∀ x ∈ new, P x.2
  labels : f'.labels = f.labels
  keyed : f.sources.Keyed → f'.sources.Keyed
  results : f'.results = f.results

namespace Facts.Gains

variable {P Q : Source → Prop} {f g h : Facts}

theorem refl (f : Facts) : f.Gains P f := ⟨⟨[], by simp⟩, rfl, id, rfl⟩

theorem trans (hf : f.Gains P g) (hg : g.Gains P h) : f.Gains P h := by
  obtain ⟨⟨new, hnew, hP⟩, hlabels, hkeyed, hresults⟩ := hf
  obtain ⟨⟨new', hnew', hP'⟩, hlabels', hkeyed', hresults'⟩ := hg
  refine ⟨⟨new ++ new', by rw [hnew', hnew, List.append_assoc], ?_⟩, hlabels'.trans hlabels,
    fun hf => hkeyed' (hkeyed hf), hresults'.trans hresults⟩
  exact List.forall_mem_append.mpr ⟨hP, hP'⟩

theorem mono (hf : f.Gains P g) (hPQ : ∀ s, P s → Q s) : f.Gains Q g := by
  obtain ⟨⟨new, hnew, hP⟩, hlabels, hkeyed, hresults⟩ := hf
  exact ⟨⟨new, hnew, fun x hx => hPQ _ (hP x hx)⟩, hlabels, hkeyed, hresults⟩

theorem of_addSource {s : Source} (hf : f.addSource s = .ok g) (hs : P s) : f.Gains P g := by
  obtain ⟨rfl, hfree⟩ := Facts.addSource_eq_ok hf
  exact ⟨⟨[_], rfl, by simpa using hs⟩, rfl, fun hkeyed => hkeyed.register hfree, rfl⟩

/-- The sources before stay. -/
theorem mem (hf : f.Gains P g) {s : Source} (hs : s ∈ f.sources.toList) : s ∈ g.sources.toList := by
  obtain ⟨⟨new, hnew, -⟩, -⟩ := hf
  rw [Sources.toList, hnew, List.map_append]
  exact List.mem_append_left _ hs

/-- What holds of the sources before and of the new ones holds of all. -/
theorem forall_mem (hf : f.Gains P g) (hs : ∀ s ∈ f.sources.toList, Q s) (hPQ : ∀ s, P s → Q s) :
    ∀ s ∈ g.sources.toList, Q s := by
  obtain ⟨⟨new, hnew, hP⟩, -⟩ := hf
  intro s hmem
  rw [Sources.toList, hnew, List.map_append, List.mem_append] at hmem
  rcases hmem with hmem | hmem
  · exact hs s hmem
  · obtain ⟨x, hx, rfl⟩ := List.mem_map.mp hmem
    exact hPQ _ (hP x hx)

/-- Gains from two lists of tables are gains from both together. -/
theorem append {M : Table → Source → Prop} {ts us : List Table}
    (hf : f.Gains (fun s => ∃ t ∈ ts, M t s) g) (hg : g.Gains (fun s => ∃ t ∈ us, M t s) h) :
    f.Gains (fun s => ∃ t ∈ ts ++ us, M t s) h :=
  (hf.mono fun _ ⟨t, ht, hs⟩ => ⟨t, List.mem_append_left us ht, hs⟩).trans
    (hg.mono fun _ ⟨t, ht, hs⟩ => ⟨t, List.mem_append_right ts ht, hs⟩)

end Facts.Gains

/-! ## Scopes that get more sources -/

/-- The queries of the first list with more sources of the given kind. -/
def ScopesGain (P : Source → Prop) : List Facts → List Facts → Prop := List.Forall₂ (Facts.Gains P)

theorem ScopesGain.refl {P : Source → Prop} (fs : List Facts) : ScopesGain P fs fs :=
  List.forall₂_same.mpr fun f _ => .refl f

theorem ScopesGain.trans {P : Source → Prop} {fs gs hs : List Facts} (h : ScopesGain P fs gs)
    (h' : ScopesGain P gs hs) : ScopesGain P fs hs :=
  forall₂_comp (R := Facts.Gains P) (S := Facts.Gains P) (fun _ _ _ hf hg => hf.trans hg) h h'

/-- What stands inside the select of a query sees that query only. -/
theorem ScopesGain.inside {P : Source → Prop} {fs gs : List Facts} (h : ScopesGain P fs gs) (isolated : Bool) :
    ScopesGain P (if isolated then [] else fs) (if isolated then [] else gs) := by
  cases isolated with
  | true => exact .nil
  | false => exact h

/-! ## Tables -/

namespace Naming

/-- The tables that a name is mapped to: that of an entity, the target of a relation under the name of
the relation, or the name itself. -/
inductive Renames (n : Naming) : Bool → String × Option String → String × Option String → Prop
  | entity {joined name label e} : RelationPath.ofName? name = none → e ∈ n.schema.entities →
    Renames n joined (name, label) (e.table, label)
  | raw {joined name label} : RelationPath.ofName? name = none → Renames n joined (name, label) (name, label)
  | path {name label path e} : RelationPath.ofName? name = some path → e ∈ n.schema.entities →
    Renames n true (name, label) (e.table, some (label.getD path.relation))

/-- The source that a table gives. -/
inductive Maps (n : Naming) : Table → Source → Prop
  | entity {e} (label) : e ∈ n.schema.entities → Maps n (.named e.table label) (.mapped label e)
  | raw (name label) : n.strict = false → Maps n (.named name label) (.raw label name)

/-- Tables are mapped to sources. -/
def edit (n : Naming) : Edit where
  table := n.Renames
  facts ts f f' := f.Gains (fun s => ∃ t ∈ ts, n.Maps t s) f'
  alone s s' := n.sweep.select [] s = .ok s'

theorem resolve_renames {n : Naming} {joined : Bool} {scopes : List Facts} {name : String}
    {label : Option String} {t : Table} {s : Source} (h : n.resolve joined scopes name label = .ok (t, s)) :
    ∃ name' label', t = .named name' label' ∧ n.Renames joined (name, label) (name', label') ∧ n.Maps t s := by
  unfold resolve at h
  split at h
  · next path hpath =>
    split at h
    · next hjoined =>
      unfold navigate at h
      repeat' split at h
      all_goals cases h
      next target htarget =>
      cases hjoined
      exact ⟨_, _, rfl, .path hpath (Schema.mem_of_entity? htarget),
        .entity _ (Schema.mem_of_entity? htarget)⟩
    · cases h
  · next hpath =>
    unfold plain at h
    split at h
    · next e he =>
      cases h
      exact ⟨_, _, rfl, .entity hpath (Schema.mem_of_entity? he), .entity _ (Schema.mem_of_entity? he)⟩
    · split at h <;> cases h
      next hstrict => exact ⟨_, _, rfl, .raw hpath, .raw _ _ (Bool.eq_false_iff.mpr hstrict)⟩

theorem makes (n : Naming) : n.sweep.Makes n.edit fun _ _ => True where
  refl := .refl
  trans := .append
  mark _ := rfl
  keep _ := trivial
  opening _ f := ⟨.refl f, trivial⟩
  ident _ h := (Except.ok.inj h).symm
  named _ h := by
    simp only [sweep, bind_eq_ok, pure_eq_ok] at h
    obtain ⟨⟨t', s⟩, hres, f', hadd, h⟩ := h
    cases h
    obtain ⟨name', label', rfl, hrenames, hmaps⟩ := resolve_renames hres
    exact ⟨⟨name', label', rfl, hrenames⟩, trivial, .of_addSource hadd ⟨_, List.mem_cons_self, hmaps⟩⟩
  derived _ h := by
    cases h
    exact ⟨rfl, trivial, .refl _⟩

/-- **The first pass maps tables to sources** and changes nothing else. -/
theorem edited {n : Naming} {q q' : Query} (h : n.sweep.query q = .ok q') : q.Edited n.edit q' :=
  n.makes.query trivial h

end Naming

namespace Derived

/-- The source that a derived table gives. -/
inductive Maps : Table → Source → Prop
  | mk {s ps} (label) : Derived.properties s = .ok ps → Maps (.derived s (some label)) (.derived label ps)

/-- The facts of a query have got the sources of its derived tables. -/
structure Registers (ts : List Table) (f f' : Facts) : Prop where
  gains : f.Gains (fun s => ∃ t ∈ ts, Maps t s) f'
  registered : ∀ s label, Table.derived s label ∈ ts →
    ∃ x, Maps (.derived s label) x ∧ x ∈ f'.sources.toList

theorem Registers.append {ts us : List Table} {f g h : Facts} (hf : Registers ts f g)
    (hg : Registers us g h) : Registers (ts ++ us) f h := by
  refine ⟨hf.gains.append hg.gains, fun s label hmem => ?_⟩
  rcases List.mem_append.mp hmem with hmem | hmem
  · obtain ⟨x, hx, hin⟩ := hf.registered s label hmem
    exact ⟨x, hx, hg.gains.mem hin⟩
  · exact hg.registered s label hmem

/-- Derived tables are mapped to sources. -/
def edit : Edit where
  facts := Registers
  alone s s' := Derived.sweep.select [] s = .ok s'

theorem makes : Derived.sweep.Makes edit fun _ _ => True where
  refl f := ⟨.refl f, fun _ _ hmem => absurd hmem List.not_mem_nil⟩
  trans := .append
  mark _ := rfl
  keep _ := trivial
  opening _ f := ⟨⟨.refl f, fun _ _ hmem => absurd hmem List.not_mem_nil⟩, trivial⟩
  ident _ h := (Except.ok.inj h).symm
  named _ h := by
    cases h
    refine ⟨⟨_, _, rfl, rfl⟩, trivial, .refl _, fun _ _ hmem => ?_⟩
    cases List.mem_singleton.mp hmem
  derived {joined scopes f s inner label t' f'} _ h := by
    cases label with
    | none => cases h
    | some label =>
      simp only [sweep, bind_eq_ok, pure_eq_ok] at h
      obtain ⟨ps, hps, f', hadd, h⟩ := h
      cases h
      refine ⟨rfl, trivial, .of_addSource hadd ⟨_, List.mem_cons_self, .mk label hps⟩, fun s' label' hmem => ?_⟩
      cases List.mem_singleton.mp hmem
      obtain ⟨rfl, -⟩ := Facts.addSource_eq_ok hadd
      exact ⟨_, .mk label hps, by simp [Sources.toList]⟩

/-- **The second pass maps derived tables to sources** and changes nothing else. -/
theorem edited {q q' : Query} (h : Derived.sweep.query q = .ok q') : q.Edited edit q' :=
  makes.query trivial h

end Derived

/-! ## Joins -/

namespace Joins

/-- The link that a relation puts into a query, and the equation of its keys. -/
structure Connects (schema : Schema) (A : Entity → Bool) (j : Join) (path : RelationPath) (rel : Relation)
    (link : Option Join) (keys : Expr) : Prop where
  pending : j.path = some path ∧ j.condition = none
  follows : ∃ source target f f', A source = true ∧ source.relation? path.relation = some rel
    ∧ target ∈ schema.entities ∧ connect j.kind (j.table.label.getD path.relation) path source target f
      rel.link = .ok ((link, keys), f')

/-- What a filter of an entity among `A` is read as, its bare names qualified with an alias. -/
def Restricts (A : Entity → Bool) (rel : Relation) (label : String) (r : Expr) : Prop :=
  (∃ source name, A source = true ∧ source.relation? name = some rel)
    ∧ ∃ text x, rel.filter = some text ∧ Expr.ofDetached text = .ok x ∧ r = qualify label x

/-- The joins that complete a join: its link, and itself with a condition. The filter in the condition
satisfies `K` with the alias of the join once the joins inside it are completed. -/
inductive Completes (schema : Schema) (A : Entity → Bool) (K : String → Expr → Prop) :
    Join → List Join → Prop
  | mk {j path rel link keys r} : Connects schema A j path rel link keys →
    (∀ x, r = some x → K (j.table.label.getD path.relation) x) →
    Completes schema A K j
      (link.toList ++ [{ j with condition := some (Completion.condition ⟨link, keys, r⟩) }])

/-- The source that the link of a relation of an entity among `A` gives. -/
inductive Links (A : Entity → Bool) : Table → Source → Prop
  | mk {e rel table a b} (path : RelationPath) : A e = true → e.relation? path.relation = some rel →
    rel.link = .junction table a b →
    Links A (.named table (some (path.source ++ "_" ++ path.relation)))
      (.raw (some (path.source ++ "_" ++ path.relation)) table)

/-- Joins along relations are completed. Selects that stand alone are related by `L`. -/
def edit (schema : Schema) (A : Entity → Bool) (K : String → Expr → Prop)
    (L : Select → Select → Prop := fun _ _ => True) : Edit where
  keep j := j.isPending = false
  complete := Completes schema A K
  facts ts f f' := f.Gains (fun s => ∃ t ∈ ts, Links A t s) f'
  alone := L

/-- An equation of two columns with qualifiers among those given. -/
inductive Equates (qualifiers : List String) : Expr → Prop
  | mk {left right} (a b : String) : left ∈ qualifiers → right ∈ qualifiers →
    Equates qualifiers (equate left a right b)

/-- The names that a relation puts into a query are qualified with the alias of its join, with the source
of its path, or with the link between them. -/
theorem Connects.equates {schema : Schema} {A : Entity → Bool} {j : Join} {path : RelationPath}
    {rel : Relation} {link : Option Join} {keys : Expr} (h : Connects schema A j path rel link keys) :
    let names := [j.table.label.getD path.relation, path.source, path.source ++ "_" ++ path.relation]
    Equates names keys ∧ ∀ l, link = some l → ∃ table a b k, rel.link = .junction table a b ∧ Equates names k
      ∧ l = ⟨j.kind, .named table (some (path.source ++ "_" ++ path.relation)), some k, none⟩ := by
  obtain ⟨-, source, target, f, f', -, -, -, hconnect⟩ := h
  dsimp only
  cases hl : rel.link with
  | forward foreignKey | inverse foreignKey =>
    rw [hl] at hconnect
    simp only [connect, bind_eq_ok, pure_eq_ok] at hconnect
    obtain ⟨_, -, h⟩ := hconnect
    cases h
    refine ⟨.mk _ _ (by simp) (by simp), ?_⟩
    rintro _ ⟨⟩
  | junction table sourceColumn targetColumn =>
    rw [hl] at hconnect
    simp only [connect, bind_eq_ok, pure_eq_ok] at hconnect
    obtain ⟨_, -, _, -, _, -, h⟩ := hconnect
    cases h
    refine ⟨.mk _ _ (by simp) (by simp), ?_⟩
    rintro l ⟨⟩
    exact ⟨table, sourceColumn, targetColumn, _, rfl, .mk _ _ (by simp) (by simp), rfl⟩

/-- What is planned for a join. -/
inductive Plan (schema : Schema) (A : Entity → Bool) : Join → Option Completion → Prop
  | keep {j} : j.isPending = false → Plan schema A j none
  | complete {j path rel c} : Connects schema A j path rel c.link c.keys →
    (∀ r, c.restriction = some r → Restricts A rel (j.table.label.getD path.relation) r) →
    Plan schema A j (some c)

/-- The links of a completion. -/
def Completion.links (c : Option Completion) : List Table := (c.bind (·.link)).toList.map (·.table)

section

variable {A : Entity → Bool} {schema : Schema} {visible : List Facts}

theorem gains_connect {kind : JoinKind} {label : String} {path : RelationPath} {source target : Entity}
    {f f' : Facts} {rel : Relation} {link : Option Join} {keys : Expr} (hsource : A source = true)
    (hrel : source.relation? path.relation = some rel)
    (h : connect kind label path source target f rel.link = .ok ((link, keys), f')) :
    f.Gains (fun s => ∃ t ∈ link.toList.map (·.table), Links A t s) f' := by
  cases hl : rel.link with
  | forward foreignKey | inverse foreignKey =>
    simp only [hl, connect, bind_eq_ok, pure_eq_ok] at h
    obtain ⟨_, -, h⟩ := h
    cases h
    exact .refl f
  | junction table sourceColumn targetColumn =>
    simp only [hl, connect, bind_eq_ok, pure_eq_ok] at h
    obtain ⟨_, -, _, -, f₁, hf₁, h⟩ := h
    cases h
    exact .of_addSource hf₁ ⟨_, List.mem_cons_self, .mk path hsource hrel hl⟩

theorem plan_complete {f f' : Facts} {kind : JoinKind} {t : Table} {path : RelationPath} {c : Completion}
    (hf : Familiar A (f :: visible))
    (h : complete schema visible f ⟨kind, t, none, some path⟩ path = .ok (c, f')) :
    Plan schema A ⟨kind, t, none, some path⟩ (some c)
      ∧ f.Gains (fun s => ∃ t ∈ Completion.links (some c), Links A t s) f' := by
  simp only [complete, bind_eq_ok, pure_eq_ok, lift_query_eq_ok, lift_parse_eq_ok] at h
  obtain ⟨⟨source, rel, target⟩, hfollow, ⟨⟨link, keys⟩, f₁⟩, hconnect, o, ho, h⟩ := h
  cases h
  obtain ⟨hsource, hrel⟩ := follow_eq_ok hf hfollow
  dsimp only at hconnect ho
  refine ⟨.complete ⟨⟨rfl, rfl⟩, source, target, f, f₁, hsource, hrel, ?_, hconnect⟩ ?_, gains_connect hsource hrel hconnect⟩
  · unfold follow at hfollow
    repeat' split at hfollow
    all_goals cases hfollow
    next htarget => exact Schema.mem_of_entity? htarget
  · rintro r rfl
    cases hfilter : rel.filter with
    | none => rw [hfilter] at ho; cases ho
    | some text =>
      rw [hfilter] at ho
      simp only [restriction, bind_eq_ok, pure_eq_ok, Option.some.injEq] at ho
      obtain ⟨x, hx, rfl⟩ := ho
      exact ⟨⟨source, path.relation, hsource, hrel⟩, text, x, hfilter, hx, rfl⟩

theorem plan_completeAll : ∀ {js : List Join} {f f' : Facts} {cs : List (Option Completion)},
    Familiar A (f :: visible) → completeAll schema visible f js = .ok (cs, f') →
    List.Forall₂ (Plan schema A) js cs
      ∧ f.Gains (fun s => ∃ t ∈ cs.flatMap Completion.links, Links A t s) f' ∧ f'.strangers A = f.strangers A
  | [], _, _, _, _, h => by
    simp only [completeAll, pure_eq_ok] at h
    cases h
    exact ⟨.nil, .refl _, rfl⟩
  | ⟨kind, t, none, some path⟩ :: js, f, _, _, hf, h => by
    simp only [completeAll, bind_eq_ok, pure_eq_ok] at h
    obtain ⟨⟨c, f₁⟩, hc, ⟨cs, f₂⟩, hcs, h⟩ := h
    cases h
    obtain ⟨hplan, hgains⟩ := plan_complete hf hc
    have hstr : f₁.strangers A = f.strangers A := facts_complete strangers_steady hc
    have hf₁ : Familiar A (f₁ :: visible) :=
      .cons (hstr.trans (hf f List.mem_cons_self)) fun g hg => hf g (List.mem_cons_of_mem _ hg)
    obtain ⟨hplans, hgains', hstr'⟩ := plan_completeAll hf₁ hcs
    exact ⟨.cons hplan hplans, hgains.append hgains', hstr'.trans hstr⟩
  | ⟨kind, t, some c, path⟩ :: js, f, _, _, hf, h | ⟨kind, t, none, none⟩ :: js, f, _, _, hf, h => by
    simp only [completeAll, bind_eq_ok, pure_eq_ok] at h
    obtain ⟨⟨cs, f₁⟩, hcs, h⟩ := h
    cases h
    obtain ⟨hplans, hgains, hstr⟩ := plan_completeAll hf hcs
    exact ⟨.cons (.keep (by simp [Join.isPending])) hplans, hgains, hstr⟩

end

section

variable {A : Entity → Bool} {K : String → Expr → Prop} {schema : Schema}
  {filter : List Facts → Expr → Except CompileError Expr}

/-- What the reader of filters makes of a filter satisfies `K` with its alias. -/
def FilterYields (A : Entity → Bool) (K : String → Expr → Prop)
    (filter : List Facts → Expr → Except CompileError Expr) : Prop :=
  ∀ ⦃scopes rel label r x⦄, Familiar A scopes → Restricts A rel label r → filter scopes r = .ok x → K label x

theorem links_completed {scopes : List Facts} {j : Join} {c : Completion} {js : List Join}
    (h : completed filter scopes j c = .ok js) : ∀ t ∈ Completion.links (some c), t ∈ js.map (·.table) := by
  obtain ⟨r, rfl, -⟩ := completed_eq_ok h
  intro t ht
  rw [List.map_append]
  exact List.mem_append_left _ ht

theorem completes_completed (hyields : FilterYields A K filter) {scopes : List Facts} {kind : JoinKind}
    {t t' : Table} {condition : Option Expr} {path : Option RelationPath} {c : Completion} {js : List Join}
    (hlabel : t'.label = t.label) (hscopes : Familiar A scopes)
    (hplan : Plan schema A ⟨kind, t, condition, path⟩ (some c))
    (h : completed filter scopes ⟨kind, t', condition, path⟩ c = .ok js) :
    Completes schema A K ⟨kind, t', condition, path⟩ js := by
  obtain ⟨r, rfl, hr⟩ := completed_eq_ok h
  cases hplan with
  | complete hconnects hrestricts =>
    obtain ⟨hpending, hfollows⟩ := hconnects
    rw [← hlabel] at hfollows hrestricts
    refine .mk ⟨hpending, hfollows⟩ fun x' hx' => ?_
    obtain ⟨x, hx, hfilter⟩ := hr x' hx'
    exact hyields hscopes (hrestricts x hx) hfilter

/-- The second select is what the completion of joins makes of the first, in sight of the queries around the
second. These have got links only. -/
structure Visits (schema : Schema) (filter : List Facts → Expr → Except CompileError Expr) (x y : Enclosed) :
    Prop where
  isolated : y.isolated = x.isolated
  around : ScopesGain (·.entity = none) x.around y.around
  run : select schema filter y.around y.isolated x.select = .ok y.select

/-- The selects of what the reader of filters makes of a filter satisfy `I`. -/
def FilterVisits (A : Entity → Bool) (I : Enclosed → Prop)
    (filter : List Facts → Expr → Except CompileError Expr) : Prop :=
  ∀ ⦃scopes rel label r x⦄, Familiar A scopes → Restricts A rel label r → filter scopes r = .ok x →
    ∀ y ∈ x.enclosed scopes, I y

theorem Links.entity_eq {A : Entity → Bool} {t : Table} {s : Source} (h : Links A t s) : s.entity = none := by
  cases h
  rfl

variable {I : Enclosed → Prop}

theorem Equates.enclosed {names : List String} {e : Expr} (h : Equates names e) (scopes : List Facts) :
    e.enclosed scopes = [] := by
  cases h
  rfl

/-- A completed join has the selects of its table, and those of its filter. -/
theorem enclosed_completed (hyields : FilterVisits A I filter) {scopes : List Facts} {kind : JoinKind}
    {t t' : Table} {condition : Option Expr} {path : Option RelationPath} {c : Completion} {js : List Join}
    (hscopes : Familiar A scopes) (hplan : Plan schema A ⟨kind, t, condition, path⟩ (some c))
    (h : completed filter scopes ⟨kind, t', condition, path⟩ c = .ok js) :
    condition = none ∧ ∃ ys, joinsEnclosed scopes js = t'.enclosed scopes ++ ys ∧ ∀ y ∈ ys, I y := by
  obtain ⟨r, rfl, hr⟩ := completed_eq_ok h
  cases hplan with
  | complete hconnects hrestricts =>
    obtain ⟨hkeys, hlink⟩ := hconnects.equates
    have hlinks : joinsEnclosed scopes c.link.toList = [] := by
      cases hl : c.link with
      | none => rfl
      | some l =>
        obtain ⟨table, a, b, k, -, hk, rfl⟩ := hlink l hl
        simp [joinsEnclosed, Table.enclosed, optEnclosed, hk.enclosed]
    refine ⟨hconnects.pending.2, ?_⟩
    rw [joinsEnclosed_append, hlinks, List.nil_append]
    simp only [joinsEnclosed, optEnclosed, List.append_nil]
    cases r with
    | none => exact ⟨[], by simp [Completion.condition, hkeys.enclosed], List.forall_mem_nil _⟩
    | some x' =>
      obtain ⟨x, hx, hfilter⟩ := hr x' rfl
      refine ⟨x'.enclosed scopes, by simp [Completion.condition, Expr.enclosed, hkeys.enclosed], ?_⟩
      exact hyields hscopes (hrestricts x hx) hfilter

/-- What is inside a select whose joins are planned sees the select with its links. -/
theorem inside_of_completeAll {pre visible : List Facts} {f f' : Facts} {js : List Join}
    {cs : List (Option Completion)} (isolated : Bool) (hs : Familiar A visible) (hf : f.strangers A = [])
    (hpre : ScopesGain (·.entity = none) pre visible) (h : completeAll schema visible f js = .ok (cs, f')) :
    List.Forall₂ (Plan schema A) js cs ∧ Familiar A (f' :: if isolated then [] else visible)
      ∧ ScopesGain (·.entity = none) (f :: if isolated then [] else pre) (f' :: if isolated then [] else visible) := by
  obtain ⟨hplans, hgains, hstr⟩ := plan_completeAll (.cons hf hs) h
  refine ⟨hplans, .cons (hstr.trans hf) ?_, .cons (hgains.mono ?_) (hpre.inside isolated)⟩
  · cases isolated with
    | true => exact .nil
    | false => exact hs
  · rintro s ⟨t, -, hlink⟩
    exact hlink.entity_eq

/-- The completion of joins makes the changes of an edit. -/
structure Makes (schema : Schema) (A : Entity → Bool) (filter : List Facts → Expr → Except CompileError Expr)
    (d : Edit) : Prop where
  ident : ∀ p i, d.ident p i i := by intros; rfl
  mark : ∀ m, d.mark m m := by intros; rfl
  named : ∀ joined t, d.table joined t t := by intros; rfl
  keep : ∀ {j}, j.isPending = false → d.keep j
  complete : ∀ {scopes kind t t' condition path c js}, t'.label = t.label → Familiar A scopes →
    Plan schema A ⟨kind, t, condition, path⟩ (some c) →
    completed filter scopes ⟨kind, t', condition, path⟩ c = .ok js → d.complete ⟨kind, t', condition, path⟩ js
  refl : ∀ ts f, d.facts ts f f
  facts : ∀ {visible f f' js cs ts}, Familiar A (f :: visible) → completeAll schema visible f js = .ok (cs, f') →
    (∀ t ∈ cs.flatMap Completion.links, t ∈ ts) → d.facts ts f f'
  alone : ∀ {scopes s s'}, select schema filter scopes true s = .ok s' → d.alone s s'

/-! ### Errors -/

/-- The joins of a select are completed without other errors than those of `P`, whatever links come into sight. -/
def Passable (P : CompileError → Prop) (schema : Schema) (x : Enclosed) : Prop :=
  ∀ around, ScopesGain (·.entity = none) x.around around →
    FailsWith P (completeAll schema around x.select.facts x.select.joins)

/-- The reader of filters has no other errors than those of `P`. -/
def FilterFailsWith (A : Entity → Bool) (P : CompileError → Prop)
    (filter : List Facts → Expr → Except CompileError Expr) : Prop :=
  ∀ ⦃scopes rel label r⦄, Familiar A scopes → Restricts A rel label r → FailsWith P (filter scopes r)

variable {P : CompileError → Prop}

theorem failsWith_completed (hfilter : FilterFailsWith A P filter) {scopes : List Facts} {j k : Join} {c : Completion}
    (hscopes : Familiar A scopes) (hplan : Plan schema A j (some c)) : FailsWith P (completed filter scopes k c) := by
  cases hplan with
  | complete _ hrestricts =>
    unfold completed
    dsimp only
    split
    · next r hr => exact .bind (.map _ (hfilter hscopes (hrestricts r hr))) fun _ _ => .pure _
    · exact .bind (.pure _) fun _ _ => .pure _

/-- What the walk through a tree relies on: all entities in sight are known, those of the tree included, only links have
come into sight since, and the selects of the tree are passable. -/
structure Grounds (A : Entity → Bool) (P : CompileError → Prop) (schema : Schema) (pre scopes : List Facts)
    (strange : List Source) (xs : List Enclosed) : Prop where
  familiar : Familiar A scopes
  known : strange = []
  gain : ScopesGain (·.entity = none) pre scopes
  passable : ∀ x ∈ xs, Passable P schema x

namespace Grounds

variable {pre scopes : List Facts} {ss ts : List Source} {xs ys : List Enclosed}

theorem left (h : Grounds A P schema pre scopes (ss ++ ts) (xs ++ ys)) : Grounds A P schema pre scopes ss xs :=
  ⟨h.familiar, (List.append_eq_nil_iff.mp h.known).1, h.gain, (List.forall_mem_append.mp h.passable).1⟩

theorem right (h : Grounds A P schema pre scopes (ss ++ ts) (xs ++ ys)) : Grounds A P schema pre scopes ts ys :=
  ⟨h.familiar, (List.append_eq_nil_iff.mp h.known).2, h.gain, (List.forall_mem_append.mp h.passable).2⟩

end Grounds

/-! ### The walk through a query -/

section

variable {d : Edit} (hd : Makes schema A filter d) (hvisits : FilterVisits A I filter)
  (hfilter : FilterFailsWith A P filter)

include hd hvisits hfilter

set_option linter.unusedSectionVars false

mutual
theorem Makes.expr {pre scopes p} : ∀ e : Expr,
    Grounds A P schema pre scopes (e.collect (strangers A)) (e.enclosed pre) →
    Ends P (fun e' => e.Edited d p e' ∧ Interleaved (Visits schema filter) I (e.enclosed pre) (e'.enclosed scopes))
      (expr schema filter scopes e)
  | .ident _, _ => .pure ⟨.ident (hd.ident ..), .nil⟩
  | .literal l, _ => .pure ⟨.literal l, .nil⟩
  | .marker _, _ => .pure ⟨.marker (hd.mark _), .nil⟩
  | .named _, _ => .pure ⟨.named (hd.mark _), .nil⟩
  | .call name distinct args, h =>
    .bind (Makes.exprs args h) fun _ h => .pure ⟨.call name distinct h.1, h.2⟩
  | .list items, h => .bind (Makes.exprs items h) fun _ h => .pure ⟨.list h.1, h.2⟩
  | .arith op l r, h =>
    .bind (Makes.expr l h.left) fun _ hl => .bind (Makes.expr r h.right) fun _ hr =>
    .pure ⟨.arith op hl.1 hr.1, hl.2.append hr.2⟩
  | .compare op l r, h =>
    .bind (Makes.expr l h.left) fun _ hl => .bind (Makes.expr r h.right) fun _ hr =>
    .pure ⟨.compare op hl.1 hr.1, hl.2.append hr.2⟩
  | .logic op l r, h =>
    .bind (Makes.expr l h.left) fun _ hl => .bind (Makes.expr r h.right) fun _ hr =>
    .pure ⟨.logic op hl.1 hr.1, hl.2.append hr.2⟩
  | .unary op e, h => .bind (Makes.expr e h) fun _ h => .pure ⟨.unary op h.1, h.2⟩
  | .case o bs e, h =>
    .bind (Makes.optExpr o h.left.left) fun _ ho => .bind (Makes.branches bs h.left.right) fun _ hbs =>
    .bind (Makes.optExpr e h.right) fun _ he =>
    .pure ⟨.case ho.1 hbs.1 he.1, (ho.2.append hbs.2).append he.2⟩
  | .subquery s, h => .bind (Makes.select s h) fun _ h => .pure ⟨.subquery h.1, h.2⟩
theorem Makes.exprs {pre scopes p} : ∀ es : List Expr,
    Grounds A P schema pre scopes (collectExprs (strangers A) es) (exprsEnclosed pre es) →
    Ends P (fun es' => ExprsEdited d p es es'
      ∧ Interleaved (Visits schema filter) I (exprsEnclosed pre es) (exprsEnclosed scopes es'))
      (exprs schema filter scopes es)
  | [], _ => .pure ⟨.nil, .nil⟩
  | e :: es, h =>
    .bind (Makes.expr e h.left) fun _ he => .bind (Makes.exprs es h.right) fun _ hes =>
    .pure ⟨.cons he.1 hes.1, he.2.append hes.2⟩
theorem Makes.optExpr {pre scopes p} : ∀ o : Option Expr,
    Grounds A P schema pre scopes (collectOpt (strangers A) o) (optEnclosed pre o) →
    Ends P (fun o' => OptEdited d p o o'
      ∧ Interleaved (Visits schema filter) I (optEnclosed pre o) (optEnclosed scopes o'))
      (optExpr schema filter scopes o)
  | none, _ => .pure ⟨.none, .nil⟩
  | some e, h => .bind (Makes.expr e h) fun _ h => .pure ⟨.some h.1, h.2⟩
theorem Makes.branches {pre scopes p} : ∀ bs : List Branch,
    Grounds A P schema pre scopes (collectBranches (strangers A) bs) (branchesEnclosed pre bs) →
    Ends P (fun bs' => BranchesEdited d p bs bs'
      ∧ Interleaved (Visits schema filter) I (branchesEnclosed pre bs) (branchesEnclosed scopes bs'))
      (branches schema filter scopes bs)
  | [], _ => .pure ⟨.nil, .nil⟩
  | ⟨c, r⟩ :: bs, h =>
    .bind (Makes.expr c h.left.left) fun _ hc => .bind (Makes.expr r h.left.right) fun _ hr =>
    .bind (Makes.branches bs h.right) fun _ hbs =>
    .pure ⟨.cons hc.1 hr.1 hbs.1, (hc.2.append hr.2).append hbs.2⟩
theorem Makes.fields {pre scopes p} : ∀ fs : List ResultField,
    Grounds A P schema pre scopes (collectFields (strangers A) fs) (fieldsEnclosed pre fs) →
    Ends P (fun fs' => FieldsEdited d p fs fs'
      ∧ Interleaved (Visits schema filter) I (fieldsEnclosed pre fs) (fieldsEnclosed scopes fs'))
      (fields schema filter scopes fs)
  | [], _ => .pure ⟨.nil, .nil⟩
  | ⟨e, a⟩ :: fs, h =>
    .bind (Makes.expr e h.left) fun _ he => .bind (Makes.fields fs h.right) fun _ hfs =>
    .pure ⟨.keep a he.1 hfs.1, he.2.append hfs.2⟩
theorem Makes.orders {pre scopes p} : ∀ os : List OrderItem,
    Grounds A P schema pre scopes (collectOrders (strangers A) os) (ordersEnclosed pre os) →
    Ends P (fun os' => OrdersEdited d p os os'
      ∧ Interleaved (Visits schema filter) I (ordersEnclosed pre os) (ordersEnclosed scopes os'))
      (orders schema filter scopes os)
  | [], _ => .pure ⟨.nil, .nil⟩
  | ⟨e, a⟩ :: os, h =>
    .bind (Makes.expr e h.left) fun _ he => .bind (Makes.orders os h.right) fun _ hos =>
    .pure ⟨.cons a he.1 hos.1, he.2.append hos.2⟩
theorem Makes.table {pre scopes joined} : ∀ t : Table,
    Grounds A P schema pre scopes (t.collect (strangers A)) (t.enclosed pre) →
    Ends P (fun t' => (t.Edited d joined t' ∧ t'.label = t.label)
      ∧ Interleaved (Visits schema filter) I (t.enclosed pre) (t'.enclosed scopes)) (table schema filter scopes t)
  | .named _ _, _ => .pure ⟨⟨.named (hd.named ..), rfl⟩, .nil⟩
  | .derived s label, h =>
    .bind (Makes.select s h) fun hrun h => .pure ⟨⟨.derived label (hd.alone hrun) h.1, rfl⟩, h.2⟩
theorem Makes.optTable {pre scopes} : ∀ t : Option Table,
    Grounds A P schema pre scopes (collectOptTable (strangers A) t) (optTableEnclosed pre t) →
    Ends P (fun t' => OptTableEdited d t t'
      ∧ Interleaved (Visits schema filter) I (optTableEnclosed pre t) (optTableEnclosed scopes t'))
      (optTable schema filter scopes t)
  | none, _ => .pure ⟨.none, .nil⟩
  | some t, h => .bind (Makes.table t h) fun _ h => .pure ⟨.some h.1.1, h.2⟩
theorem Makes.joins {pre scopes p} : ∀ (js : List Join) {cs}, List.Forall₂ (Plan schema A) js cs →
    Grounds A P schema pre scopes (collectJoins (strangers A) js) (joinsEnclosed pre js) →
    Ends P (fun js' => (JoinsEdited d p js js' ∧ ∀ t ∈ cs.flatMap Completion.links, t ∈ js'.map (·.table))
      ∧ Interleaved (Visits schema filter) I (joinsEnclosed pre js) (joinsEnclosed scopes js'))
      (joins schema filter scopes js cs)
  | [], _, .nil, _ => .pure ⟨⟨.nil, List.forall_mem_nil _⟩, .nil⟩
  | ⟨kind, t, condition, path⟩ :: js, some c :: cs, .cons hplan hplans, h => by
    refine .bind (Makes.table t h.left.left : Ends _ (fun t' => (t.Edited d true t' ∧ _) ∧ _) _) fun _ ht =>
      .bind ⟨.any, failsWith_completed hfilter h.familiar hplan⟩ fun hhere _ =>
      .bind (Makes.joins js hplans h.right : Ends _ (fun js' => (JoinsEdited d p js js' ∧ _) ∧ _) _) fun _ hjs =>
      .pure ?_
    obtain ⟨⟨ht, hlabel⟩, vt⟩ := ht
    obtain ⟨⟨hjs, hmore⟩, vjs⟩ := hjs
    obtain ⟨rfl, ys, hys, hI⟩ := enclosed_completed hvisits h.familiar hplan hhere
    refine ⟨⟨.complete ht (hd.complete hlabel h.familiar hplan hhere) hjs, ?_⟩, ?_⟩
    · rw [List.flatMap_cons, List.map_append]
      exact List.forall_mem_append.mpr ⟨fun t ht => List.mem_append_left _ (links_completed hhere t ht),
        fun t ht => List.mem_append_right _ (hmore t ht)⟩
    · rw [joinsEnclosed_append, hys]
      exact (vt.append (.of_forall hI)).append vjs
  | ⟨_, t, c, _⟩ :: js, none :: cs, .cons (.keep hkeep) hplans, h =>
    .bind (Makes.table t h.left.left) fun _ ht => .bind (Makes.optExpr c h.left.right) fun _ hc =>
    .bind (Makes.joins js hplans h.right) fun _ hjs =>
    .pure ⟨⟨.keep (hd.keep hkeep) ht.1.1 hc.1 hjs.1.1, fun t ht => List.mem_cons_of_mem _ (hjs.1.2 t ht)⟩,
      (ht.2.append hc.2).append hjs.2⟩
theorem Makes.unions {pre scopes} : ∀ us : List UnionPart,
    Grounds A P schema pre scopes (collectUnions (strangers A) us) (unionsEnclosed pre us) →
    Ends P (fun us' => UnionsEdited d us us'
      ∧ Interleaved (Visits schema filter) I (unionsEnclosed pre us) (unionsEnclosed scopes us'))
      (unions schema filter scopes us)
  | [], _ => .pure ⟨.nil, .nil⟩
  | ⟨all, s⟩ :: us, h =>
    .bind (Makes.select s h.left) fun hrun hs => .bind (Makes.unions us h.right) fun _ hus =>
    .pure ⟨.cons all (hd.alone hrun) hs.1 hus.1, hs.2.append hus.2⟩
theorem Makes.select {pre visible isolated around} : ∀ s : Select,
    Grounds A P schema pre visible (s.collect (strangers A)) (s.enclosed pre isolated) →
    Ends P (fun s' => s.Edited d around s'
      ∧ Interleaved (Visits schema filter) I (s.enclosed pre isolated) (s'.enclosed visible isolated))
      (select schema filter visible isolated s)
  | ⟨_, fs, t, js, c, gs, hv, os, l, o, us, f⟩, ⟨hs, he, hpre, h⟩ => by
    simp only [Select.collect, strangers_steady.paging, List.append_eq_nil_iff] at he
    obtain ⟨⟨⟨⟨⟨⟨⟨⟨⟨ef, efs⟩, et⟩, ejs⟩, ec⟩, egs⟩, ehv⟩, eos⟩, el, eo⟩, eus⟩ := he
    simp only [Select.enclosed, List.forall_mem_cons, List.forall_mem_append] at h
    obtain ⟨⟨⟨⟨⟨⟨⟨⟨⟨⟨hself, gfs⟩, gt⟩, gjs⟩, gc⟩, ggs⟩, ghv⟩, gos⟩, gl⟩, go⟩, gus⟩ := h
    refine .of_run (.bind ⟨.any, hself visible hpre⟩ fun {x} hcs _ => ?_)
    obtain ⟨cs, f'⟩ := x
    obtain ⟨hplans, hs', hpre'⟩ := inside_of_completeAll isolated hs ef hpre hcs
    refine .bind (Makes.fields fs ⟨hs', efs, hpre', gfs⟩) fun _ hfs =>
      .bind (Makes.optTable t ⟨hs', et, hpre', gt⟩) fun _ ht =>
      .bind (Makes.joins js hplans ⟨hs', ejs, hpre', gjs⟩) fun _ hjs =>
      .bind (Makes.optExpr c ⟨hs', ec, hpre', gc⟩) fun _ hc =>
      .bind (Makes.exprs gs ⟨hs', egs, hpre', ggs⟩) fun _ hgs =>
      .bind (Makes.optExpr hv ⟨hs', ehv, hpre', ghv⟩) fun _ hhv =>
      .bind (Makes.orders os ⟨hs', eos, hpre', gos⟩) fun _ hos =>
      .bind (Makes.optExpr l ⟨hs', el, hpre', gl⟩) fun _ hl =>
      .bind (Makes.optExpr o ⟨hs', eo, hpre', go⟩) fun _ ho =>
      .bind (Makes.unions us ⟨hs', eus, hpre', gus⟩) fun _ hus =>
      .pure fun hrun => ⟨⟨hfs.1, ht.1, hjs.1.1, hc.1, hgs.1, hhv.1, hos.1, hl.1, ho.1, hus.1, ?_⟩,
        .keep ⟨rfl, hpre, hrun⟩ ?_⟩
    · exact hd.facts (.cons ef hs) hcs fun t ht => List.mem_append_right _ (hjs.1.2 t ht)
    · exact ((((((((hfs.2.append ht.2).append hjs.2).append hc.2).append hgs.2).append hhv.2).append hos.2).append
        hl.2).append ho.2).append hus.2
end

end

/-- An expression is edited whatever the selects of filters are. -/
theorem Makes.edited_expr {d : Edit} (hd : Makes schema A filter d) (e : Expr) {scopes : List Facts} {e' : Expr}
    (p : Spot) (hs : Familiar A scopes) (he : e.collect (strangers A) = [])
    (h : Joins.expr schema filter scopes e = .ok e') : e.Edited d p e' :=
  ((hd.expr (P := fun _ => True) (I := fun _ => True) (fun _ _ _ _ _ _ _ _ _ _ => trivial)
    (fun _ _ _ _ _ _ _ _ => trivial) e ⟨hs, he, .refl scopes, fun _ _ _ _ _ _ => trivial⟩).gives h).1

end

section

variable {A : Entity → Bool} {P : CompileError → Prop} {I : Enclosed → Prop} {schema : Schema} {budget : Nat} {d : Edit}
  (hd : Makes schema A (filter schema budget) d) (hvisits : FilterVisits A I (filter schema budget))
  (hfilter : FilterFailsWith A P (filter schema budget))

include hd hvisits hfilter

theorem Makes.assignments {pre scopes p} : ∀ {as : List Assignment},
    Grounds A P schema pre scopes (collectAssignments (strangers A) as) (assignmentsEnclosed pre as) →
    Ends P (fun as' => AssignmentsEdited d p as as' ∧ Interleaved (Visits schema (filter schema budget)) I
      (assignmentsEnclosed pre as) (assignmentsEnclosed scopes as')) (assignments schema budget scopes as)
  | [], _ => .pure ⟨.nil, .nil⟩
  | ⟨t, v⟩ :: _, h =>
    .bind (hd.expr hvisits hfilter t h.left.left) fun _ ht =>
    .bind (hd.expr hvisits hfilter v h.left.right) fun _ hv => .bind (Makes.assignments h.right) fun _ has =>
    .pure ⟨.cons ht.1 hv.1 has.1, (ht.2.append hv.2).append has.2⟩

theorem Makes.insertSource {pre scopes p} : ∀ s : InsertSource,
    Grounds A P schema pre scopes (s.collect (strangers A)) (s.enclosed pre) →
    Ends P (fun s' => s.Edited d p s'
      ∧ Interleaved (Visits schema (filter schema budget)) I (s.enclosed pre) (s'.enclosed scopes))
      (insertSource schema budget scopes s)
  | .values rows, h => .bind (hd.exprs hvisits hfilter rows h) fun _ h => .pure ⟨.values h.1, h.2⟩
  | .select s, h =>
    .bind (hd.select hvisits hfilter s h) fun hrun h => .pure ⟨.select (hd.alone hrun) h.1, h.2⟩

end

/-- **A completion of joins that makes the changes of an edit edits every query.** It visits all selects of
the query, and puts those of filters in between. It fails in one of them, or in a filter. -/
theorem Makes.ends {A : Entity → Bool} {P : CompileError → Prop} {I : Enclosed → Prop} {schema : Schema} {d : Edit}
    (hd : Makes schema A (filter schema (nestingBound schema)) d)
    (hvisits : FilterVisits A I (filter schema (nestingBound schema)))
    (hfilter : FilterFailsWith A P (filter schema (nestingBound schema))) (q : Query)
    (hq : q.collect (strangers A) = []) (h : ∀ x ∈ q.enclosed, Passable P schema x) :
    Ends P (fun q' => q.Edited d q'
      ∧ Interleaved (Visits schema (filter schema (nestingBound schema))) I q.enclosed q'.enclosed)
      (Joins.query schema q) := by
  cases q with
  | select s =>
    exact .map ((hd.select hvisits hfilter s ⟨.nil, hq, .nil, h⟩).mono fun _ hs => hs.imp .select id)
  | insert i =>
    simp only [Query.collect, Insert.collect, strangers_steady.returned, List.append_eq_nil_iff] at hq
    obtain ⟨⟨⟨⟨ef, et⟩, ecs⟩, es⟩, efs⟩ := hq
    simp only [Query.enclosed, List.forall_mem_append] at h
    obtain ⟨⟨⟨gt, gcs⟩, gs⟩, gfs⟩ := h
    have hf : Familiar A [i.facts] := .cons ef .nil
    exact .map (.bind (hd.table hvisits hfilter _ ⟨hf, et, .refl _, gt⟩) fun _ ht =>
      .bind (hd.exprs hvisits hfilter _ ⟨hf, ecs, .refl _, gcs⟩) fun _ hcs =>
      .bind (hd.insertSource hvisits hfilter _ ⟨hf, es, .refl _, gs⟩) fun _ hs =>
      .bind (hd.fields hvisits hfilter _ ⟨hf, efs, .refl _, gfs⟩) fun _ hfs =>
      .pure ⟨.insert ht.1.1 hcs.1 hs.1 hfs.1 (hd.refl ..), ((ht.2.append hcs.2).append hs.2).append hfs.2⟩)
  | update u =>
    simp only [Query.collect, Update.collect, strangers_steady.paging, List.append_eq_nil_iff] at hq
    obtain ⟨⟨⟨⟨⟨ef, et⟩, eas⟩, ec⟩, eos⟩, el, eo⟩ := hq
    simp only [Query.enclosed, List.forall_mem_append] at h
    obtain ⟨⟨⟨⟨⟨gt, gas⟩, gc⟩, gos⟩, gl⟩, go⟩ := h
    have hf : Familiar A [u.facts] := .cons ef .nil
    exact .map (.bind (hd.table hvisits hfilter _ ⟨hf, et, .refl _, gt⟩) fun _ ht =>
      .bind (hd.assignments hvisits hfilter ⟨hf, eas, .refl _, gas⟩) fun _ has =>
      .bind (hd.optExpr hvisits hfilter _ ⟨hf, ec, .refl _, gc⟩) fun _ hc =>
      .bind (hd.orders hvisits hfilter _ ⟨hf, eos, .refl _, gos⟩) fun _ hos =>
      .bind (hd.optExpr hvisits hfilter _ ⟨hf, el, .refl _, gl⟩) fun _ hl =>
      .bind (hd.optExpr hvisits hfilter _ ⟨hf, eo, .refl _, go⟩) fun _ ho =>
      .pure ⟨.update ht.1.1 has.1 hc.1 hos.1 hl.1 ho.1 (hd.refl ..),
        ((((ht.2.append has.2).append hc.2).append hos.2).append hl.2).append ho.2⟩)
  | delete x =>
    simp only [Query.collect, Delete.collect, strangers_steady.paging, List.append_eq_nil_iff] at hq
    obtain ⟨⟨⟨⟨ef, et⟩, ec⟩, eos⟩, el, eo⟩ := hq
    simp only [Query.enclosed, List.forall_mem_append] at h
    obtain ⟨⟨⟨⟨gt, gc⟩, gos⟩, gl⟩, go⟩ := h
    have hf : Familiar A [x.facts] := .cons ef .nil
    exact .map (.bind (hd.table hvisits hfilter _ ⟨hf, et, .refl _, gt⟩) fun _ ht =>
      .bind (hd.optExpr hvisits hfilter _ ⟨hf, ec, .refl _, gc⟩) fun _ hc =>
      .bind (hd.orders hvisits hfilter _ ⟨hf, eos, .refl _, gos⟩) fun _ hos =>
      .bind (hd.optExpr hvisits hfilter _ ⟨hf, el, .refl _, gl⟩) fun _ hl =>
      .bind (hd.optExpr hvisits hfilter _ ⟨hf, eo, .refl _, go⟩) fun _ ho =>
      .pure ⟨.delete ht.1.1 hc.1 hos.1 hl.1 ho.1 (hd.refl ..),
        (((ht.2.append hc.2).append hos.2).append hl.2).append ho.2⟩)

theorem Makes.runs {A : Entity → Bool} {I : Enclosed → Prop} {schema : Schema} {d : Edit}
    (hd : Makes schema A (filter schema (nestingBound schema)) d)
    (hvisits : FilterVisits A I (filter schema (nestingBound schema))) {q q' : Query}
    (hq : q.collect (strangers A) = []) (h : Joins.query schema q = .ok q') :
    q.Edited d q' ∧ Interleaved (Visits schema (filter schema (nestingBound schema))) I q.enclosed q'.enclosed :=
  (hd.ends (P := fun _ => True) hvisits (fun _ _ _ _ _ _ _ _ => trivial) q hq fun _ _ _ _ _ _ => trivial).gives h

theorem Makes.query {A : Entity → Bool} {schema : Schema} {d : Edit}
    (hd : Makes schema A (filter schema (nestingBound schema)) d) {q q' : Query}
    (hq : q.collect (strangers A) = []) (h : Joins.query schema q = .ok q') : q.Edited d q' :=
  (hd.runs (I := fun _ => True) (fun _ _ _ _ _ _ _ _ _ _ => trivial) hq h).1

variable {A : Entity → Bool} {K : String → Expr → Prop} {L : Select → Select → Prop} {schema : Schema}
  {filter : List Facts → Expr → Except CompileError Expr}

theorem makes (hyields : FilterYields A K filter)
    (halone : ∀ {scopes s s'}, select schema filter scopes true s = .ok s' → L s s') :
    Makes schema A filter (edit schema A K L) where
  keep h := h
  complete := completes_completed hyields
  refl _ f := .refl f
  facts hf h hlinks := (plan_completeAll hf h).2.1.mono fun _ ⟨t, ht, hs⟩ => ⟨t, hlinks t ht, hs⟩
  alone := halone

/-- **The third pass completes joins** and changes nothing else. -/
theorem edited {q q' : Query} (hyields : FilterYields A K (Joins.filter schema (nestingBound schema)))
    (halone : ∀ {scopes s s'},
      select schema (Joins.filter schema (nestingBound schema)) scopes true s = .ok s' → L s s')
    (hq : q.collect (strangers A) = []) (h : Joins.query schema q = .ok q') :
    q.Edited (edit schema A K L) q' :=
  (makes hyields halone).query hq h

/-! ### What is refused -/

variable {P : CompileError → Prop}

theorem failsWith_expr (hfilter : FilterFailsWith A P filter)
    (e : Expr) {pre scopes : List Facts} (hs : Familiar A scopes) (he : e.collect (strangers A) = [])
    (hpre : ScopesGain (·.entity = none) pre scopes) (h : ∀ x ∈ e.enclosed pre, Passable P schema x) :
    FailsWith P (expr schema filter scopes e) :=
  ((makes (K := fun _ _ => True) (L := fun _ _ => True) (fun _ _ _ _ _ _ _ _ => trivial) fun _ => trivial).expr
    (I := fun _ => True) (fun _ _ _ _ _ _ _ _ _ _ => trivial) hfilter e (p := ⟨[], false⟩) ⟨hs, he, hpre, h⟩).fails

/-- **The completion of joins fails in one of the selects of the query**, or in a filter. -/
theorem failsWith_query (hfilter : FilterFailsWith A P (Joins.filter schema (nestingBound schema))) {q : Query}
    (hq : q.collect (strangers A) = []) (h : ∀ x ∈ q.enclosed, Passable P schema x) :
    FailsWith P (query schema q) :=
  ((makes (K := fun _ _ => True) (L := fun _ _ => True) (fun _ _ _ _ _ _ _ _ => trivial) fun _ => trivial).ends
    (I := fun _ => True) (fun _ _ _ _ _ _ _ _ _ _ => trivial) hfilter q hq h).fails

end Joins

/-! ## Names -/

namespace Columns

/-- The facts offer what the scope does. -/
structure Offers (f : Facts) (s : View) : Prop where
  sources : f.sources = s.sources
  labels : f.labels = s.labels

/-- Names are resolved to columns. -/
def edit : Edit where
  ident p i i' := ∃ scopes, List.Forall₂ Offers scopes p.scopes ∧ resolve ⟨scopes, p.labelled⟩ i = .ok i'
  facts _ f f' := f'.sources = f.sources
  alone s s' := Columns.sweep.select [] s = .ok s'

theorem makes : Columns.sweep.Makes edit Offers where
  refl _ := rfl
  trans hf hg := hg.trans hf
  mark _ := rfl
  keep _ := trivial
  opening _ _ := ⟨rfl, rfl, rfl⟩
  ident hscopes h := ⟨_, hscopes, h⟩
  named hs h := by
    cases h
    exact ⟨⟨_, _, rfl, rfl⟩, hs, rfl⟩
  derived hs h := by
    cases h
    exact ⟨rfl, hs, rfl⟩

/-- **The fourth pass resolves names** and changes nothing else. -/
theorem edited {q q' : Query} (hq : q.facts.labels = []) (h : Columns.sweep.query q = .ok q') :
    q.Edited edit q' :=
  makes.query ⟨rfl, hq⟩ h

end Columns

end EntitySql
