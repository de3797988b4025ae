import Mathlib
import EntitySql.Proofs.Gathering
import EntitySql.Proofs.ResultMaps

/-!
# Which passes refuse an alias

An alias is refused where a source is registered under a key that is taken, and nowhere else. Only the first three
passes register sources. The first two register the aliases of tables: the first those of named tables, the second
those of derived ones (`Sweep.Enters`). As long as these aliases are different, neither of them refuses one
(`Sweep.Enters.clashless_select`), and the keys of a query are the aliases of its tables in the end.
-/

namespace EntitySql

open Outcome

theorem QueryError.lift_eq_error {α : Type} {x : Except QueryError α} {e : QueryError} :
    lift x = .error (.query e) ↔ x = .error e := by
  cases x <;> simp [lift]

theorem Clashless.lift_ne {α : Type} {x : Except QueryError α} (hx : Clashless x) (a : String) :
    QueryError.lift x ≠ .error (.query (.duplicateAlias a)) := by
  intro h
  cases hx _ (QueryError.lift_eq_error.mp h)

/-! ## Looking up fields -/

namespace Lookup

variable {value name : String} {s : Source} {scopes : List Facts}

theorem clashless_matchPart {q : Bool} {p : Property} (part : Option String) :
    Clashless (matchPart value s q name p part) := by
  unfold matchPart
  split
  · exact .ok _
  split
  · split
    · exact .ok _
    · exact .error rfl
  · exact .error rfl

theorem clashless_qualified (part : Option String) : Clashless (qualified value s name part) := by
  unfold qualified
  split
  · exact .ok _
  split
  · exact .map some (clashless_matchPart part)
  · exact .error rfl

theorem clashless_unqualified (part : Option String) : Clashless (unqualified value name part scopes) := by
  unfold unqualified
  split
  · exact .map some (clashless_matchPart part)
  · repeat' split
    · exact .ok _
    · exact .error rfl
    · exact .error rfl
  · exact .error rfl

theorem clashless_find : Clashless (find value scopes) := by
  unfold find
  dsimp only
  split
  · exact .error rfl
  split
  · exact clashless_unqualified _
  · split
    · exact clashless_qualified _
    · exact clashless_unqualified _
  · split
    · exact clashless_qualified _
    · exact .error rfl
  · exact .error rfl

end Lookup

theorem Columns.clashless_resolve (p : Place) (i : Identifier) : Clashless (resolve p i) := by
  unfold resolve
  split
  · exact .ok _
  refine .bind Lookup.clashless_find fun m _ => ?_
  cases m with
  | none => exact .pure _
  | some m => exact .pure _

namespace Derived

theorem clashless_wildcard (i : Identifier) (sources : Sources) (acc : List (String × Property)) :
    Clashless (wildcard i sources acc) := by
  unfold wildcard
  dsimp only
  split
  · split
    · exact .bind (.ok _) fun _ _ => .pure _
    · exact .bind (.error rfl) fun _ _ => .pure _
  · exact .bind (.ok _) fun _ _ => .pure _

theorem clashless_property (f : ResultField) (facts : Facts) : Clashless (property f facts) := by
  unfold property
  split
  · refine .bind Lookup.clashless_find fun m _ => ?_
    cases m with
    | none => exact .pure _
    | some m => exact .pure _
  · exact .ok _
  · exact .error rfl

theorem clashless_propertiesFrom (facts : Facts) (fs : List ResultField) (acc : List (String × Property)) :
    Clashless (propertiesFrom facts acc fs) := by
  induction fs generalizing acc with
  | nil => exact .ok _
  | cons f fs ih =>
    unfold propertiesFrom
    split
    · split
      · exact .bind (clashless_wildcard _ _ _) fun _ _ => ih _
      · exact .bind (clashless_property f facts) fun _ _ => ih _
    · exact .bind (clashless_property f facts) fun _ _ => ih _

end Derived

/-! ## Results and parameters -/

theorem Results.clashless_select (s : Select) (visible : List Facts) : Clashless (select visible s) := by
  intro e h
  obtain ⟨s', -, hflaw | hflaw⟩ := failsWith_select (P := Refused s.selects) s (fun _ hx => hx) _ h
  · cases hflaw
    rfl
  · cases hflaw <;> rfl

theorem Results.clashless_query (s : Select) : Clashless (query (.select s)) := .map _ (clashless_select s [])

namespace Parameters

theorem clashless_query (q : Query) : Clashless (query q) :=
  .bind (numbered_statement (A := fun _ => True) trivial fun _ _ => trivial).fails fun _ _ => .pure _

end Parameters

/-! ## Aliases of tables -/

/-- The keys of the sources, in order. -/
def Sources.keys (m : Sources) : List (Option String) := m.entries.map (·.1)

theorem Sources.hasKey_iff {m : Sources} {k : Option String} : m.hasKey k = true ↔ k ∈ m.keys := by
  simp [hasKey, keys]

/-- An alias is refused only if it is a key. -/
theorem Facts.clashless_addSource {f : Facts} {s : Source} {a : String} (hs : s.label = some a)
    (ha : some a ∉ f.sources.keys) : Clashless (f.addSource s) := by
  have hfree : ¬f.sources.hasKey (some a) = true := fun h => ha (Sources.hasKey_iff.mp h)
  unfold addSource Sources.register Sources.keyOf
  simp only [hs, if_neg hfree]
  exact .ok _

theorem Facts.keys_addSource {f f' : Facts} {s : Source} {a : String} (hs : s.label = some a)
    (h : f.addSource s = .ok f') : f'.sources.keys = f.sources.keys ++ [some a] := by
  obtain ⟨rfl, -⟩ := Facts.addSource_eq_ok h
  simp [Sources.keys, Sources.keyOf, hs]

def Table.isDerived : Table → Bool
  | named _ _ => false
  | derived _ _ => true

/-- What registration sees of a table: whether it is derived, and its alias. -/
def Table.tag (t : Table) : Bool × Option String := (t.isDerived, t.label)

def Select.tags (s : Select) : List (Bool × Option String) := s.tables.map Table.tag

/-- The aliases of derived tables, of named ones, or of both. -/
def aliasesOf (which : Bool → Bool) (tags : List (Bool × Option String)) : List (Option String) :=
  (tags.filter fun x => which x.1).map (·.2)

/-- Tables can be registered next to the sources under some keys: they have aliases, and these are different and
no keys. -/
structure Room (which : Bool → Bool) (keys : List (Option String)) (tags : List (Bool × Option String)) : Prop where
  labelled : none ∉ aliasesOf which tags
  nodup : (aliasesOf which tags).Nodup
  free : keys.Disjoint (aliasesOf which tags)

section

variable {which : Bool → Bool} {keys : List (Option String)} {tags more : List (Bool × Option String)}

theorem aliasesOf_append (which : Bool → Bool) (tags more : List (Bool × Option String)) :
    aliasesOf which (tags ++ more) = aliasesOf which tags ++ aliasesOf which more := by
  simp [aliasesOf]

/-- There is room for the first tables, and then for the others. -/
theorem Room.split (h : Room which keys (tags ++ more)) :
    Room which keys tags ∧ Room which (keys ++ aliasesOf which tags) more := by
  obtain ⟨hlabelled, hnodup, hfree⟩ := h
  rw [aliasesOf_append] at hlabelled hnodup hfree
  obtain ⟨hnodup, hnodup', hdisjoint⟩ := List.nodup_append'.mp hnodup
  obtain ⟨hfree, hfree'⟩ := List.disjoint_append_right.mp hfree
  simp only [List.mem_append, not_or] at hlabelled
  exact ⟨⟨hlabelled.1, hnodup, hfree⟩, hlabelled.2, hnodup', List.disjoint_append_left.mpr ⟨hfree', hdisjoint⟩⟩

theorem Room.none (keys : List (Option String)) (tags : List (Bool × Option String)) :
    Room (fun _ => false) keys tags := by
  have hnil : aliasesOf (fun _ => false) tags = [] := by simp [aliasesOf]
  refine ⟨?_, ?_, ?_⟩ <;> simp [hnil]

end

/-! ## Sweeps that register tables -/

namespace Sweep

/-- The sweep registers the named tables, the derived ones, both or none, each under its alias. -/
structure Enters (w : Sweep) (which : Bool → Bool) : Prop where
  opening : ∀ fs f, (w.opening fs f).sources = f.sources
  ident : ∀ p i, Clashless (w.ident p i)
  table : ∀ {joined visible f t}, Room which f.sources.keys [t.tag] → Clashless (w.table joined visible f t)
  enters : ∀ {joined visible f t t' f'}, none ∉ aliasesOf which [t.tag] → w.table joined visible f t = .ok (t', f') →
    t'.tag = t.tag ∧ f'.sources.keys = f.sources.keys ++ aliasesOf which [t.tag]

/-- There is room for the tables of a select. -/
def Roomy (which : Bool → Bool) (s : Select) : Prop := Room which s.facts.sources.keys s.tags

namespace Enters

variable {w : Sweep} {which : Bool → Bool} (hw : w.Enters which)

include hw

theorem source {joined : Bool} {visible : List Facts} {f f' : Facts} {t t' : Table}
    (hlabelled : none ∉ aliasesOf which [t.tag]) (h : w.source joined visible f t = .ok (t', f')) :
    t'.tag = t.tag ∧ f'.sources.keys = f.sources.keys ++ aliasesOf which [t.tag] := by
  cases t with
  | named name label => exact hw.enters hlabelled h
  | derived s label =>
    simp only [Sweep.source, bind_eq_ok] at h
    obtain ⟨s', -, h⟩ := h
    exact hw.enters (t := .derived s' label) hlabelled h

theorem optSource {visible : List Facts} {f f' : Facts} {t t' : Option Table}
    (hlabelled : none ∉ aliasesOf which (t.toList.map Table.tag)) (h : w.optSource visible f t = .ok (t', f')) :
    t'.toList.map Table.tag = t.toList.map Table.tag
      ∧ f'.sources.keys = f.sources.keys ++ aliasesOf which (t.toList.map Table.tag) := by
  cases t with
  | none =>
    cases h
    exact ⟨rfl, (List.append_nil _).symm⟩
  | some t =>
    simp only [Sweep.optSource, bind_eq_ok, pure_eq_ok] at h
    obtain ⟨⟨t', f'⟩, ht, h⟩ := h
    cases h
    obtain ⟨htag, hkeys⟩ := hw.source hlabelled ht
    exact ⟨congrArg (fun x => [x]) htag, hkeys⟩

theorem joins {visible : List Facts} {f f' : Facts} {js js' : List Join}
    (hlabelled : none ∉ aliasesOf which (js.map (·.table.tag))) (h : w.joins visible f js = .ok (js', f')) :
    js'.map (·.table.tag) = js.map (·.table.tag)
      ∧ f'.sources.keys = f.sources.keys ++ aliasesOf which (js.map (·.table.tag)) := by
  induction js generalizing f js' with
  | nil =>
    cases h
    exact ⟨rfl, (List.append_nil _).symm⟩
  | cons j js ih =>
    obtain ⟨kind, t, c, path⟩ := j
    simp only [Sweep.joins, bind_eq_ok, pure_eq_ok] at h
    obtain ⟨⟨t', f₁⟩, ht, c', -, ⟨js', f₂⟩, hjs, h⟩ := h
    cases h
    rw [List.map_cons, ← List.singleton_append, aliasesOf_append, List.mem_append, not_or] at hlabelled
    obtain ⟨htag, hkeys⟩ := hw.source hlabelled.1 ht
    obtain ⟨htags, hkeys'⟩ := ih hlabelled.2 hjs
    rw [List.map_cons, List.map_cons, htags, hkeys', hkeys, List.append_assoc, ← aliasesOf_append]
    exact ⟨congrArg (· :: _) htag, rfl⟩

/-- **The tables of a select become keys** of its sources, and keep their aliases. -/
theorem select {visible : List Facts} {s s' : Select} (hlabelled : none ∉ aliasesOf which s.tags)
    (h : w.select visible s = .ok s') :
    s'.tags = s.tags ∧ s'.facts.sources.keys = s.facts.sources.keys ++ aliasesOf which s.tags := by
  obtain ⟨distinct, fs, t, js, c, gs, hv, os, l, o, us, f⟩ := s
  simp only [Sweep.select, bind_eq_ok, pure_eq_ok] at h
  obtain ⟨fs', -, ⟨t', f₁⟩, ht, ⟨js', f₂⟩, hjs, c', -, gs', -, hv', -, os', -, l', -, o', -, us', -, rfl⟩ := h
  simp only [Select.tags, Select.tables, List.map_append, List.map_map] at hlabelled ⊢
  rw [aliasesOf_append, List.mem_append, not_or] at hlabelled
  obtain ⟨htag, hkeys⟩ := hw.optSource hlabelled.1 ht
  obtain ⟨htags, hkeys'⟩ := hw.joins hlabelled.2 hjs
  rw [hw.opening] at hkeys
  refine ⟨congrArg₂ (· ++ ·) htag htags, ?_⟩
  rw [hkeys', hkeys, aliasesOf_append, List.append_assoc]
  rfl

section

set_option linter.unusedSectionVars false

mutual
theorem clashless_expr {p} : ∀ e : Expr, Everywhere (Roomy which) e.selects → Clashless (w.expr p e)
  | .ident i, _ => .bind (hw.ident p i) fun _ _ => .pure _
  | .literal _, _ | .marker _, _ | .named _, _ => .pure _
  | .call _ _ args, h => .bind (clashless_exprs args h) fun _ _ => .pure _
  | .list items, h => .bind (clashless_exprs items h) fun _ _ => .pure _
  | .arith _ l r, h | .compare _ l r, h | .logic _ l r, h =>
    .bind (clashless_expr l h.left) fun _ _ => .bind (clashless_expr r h.right) fun _ _ => .pure _
  | .unary _ e, h => .bind (clashless_expr e h) fun _ _ => .pure _
  | .case o bs e, h => .bind (clashless_optExpr o h.left.left) fun _ _ =>
    .bind (clashless_branches bs h.left.right) fun _ _ => .bind (clashless_optExpr e h.right) fun _ _ => .pure _
  | .subquery s, h => .bind (clashless_select s h) fun _ _ => .pure _
theorem clashless_exprs {p} : ∀ es : List Expr, Everywhere (Roomy which) (exprsSelects es) → Clashless (w.exprs p es)
  | [], _ => .pure _
  | e :: es, h => .bind (clashless_expr e h.left) fun _ _ => .bind (clashless_exprs es h.right) fun _ _ => .pure _
theorem clashless_optExpr {p} : ∀ o : Option Expr, Everywhere (Roomy which) (optSelects o) → Clashless (w.optExpr p o)
  | none, _ => .pure _
  | some e, h => .bind (clashless_expr e h) fun _ _ => .pure _
theorem clashless_branches {p} : ∀ bs : List Branch, Everywhere (Roomy which) (branchesSelects bs) →
    Clashless (w.branches p bs)
  | [], _ => .pure _
  | ⟨c, r⟩ :: bs, h => .bind (clashless_expr c h.left.left) fun _ _ =>
    .bind (clashless_expr r h.left.right) fun _ _ => .bind (clashless_branches bs h.right) fun _ _ => .pure _
theorem clashless_fields {p} : ∀ fs : List ResultField, Everywhere (Roomy which) (fieldsSelects fs) →
    Clashless (w.fields p fs)
  | [], _ => .pure _
  | ⟨e, _⟩ :: fs, h =>
    .bind (clashless_expr e h.left) fun _ _ => .bind (clashless_fields fs h.right) fun _ _ => .pure _
theorem clashless_orders {p} : ∀ os : List OrderItem, Everywhere (Roomy which) (ordersSelects os) → Clashless (w.orders p os)
  | [], _ => .pure _
  | ⟨e, _⟩ :: os, h =>
    .bind (clashless_expr e h.left) fun _ _ => .bind (clashless_orders os h.right) fun _ _ => .pure _
theorem clashless_source {joined visible f} : ∀ t : Table, Everywhere (Roomy which) t.selects →
    Room which f.sources.keys [t.tag] → Clashless (w.source joined visible f t)
  | .named _ _, _, hroom => hw.table hroom
  | .derived s label, h, hroom =>
    .bind (clashless_select s h) fun s' _ => hw.table (t := .derived s' label) hroom
theorem clashless_optSource {visible f} : ∀ t : Option Table, Everywhere (Roomy which) (optTableSelects t) →
    Room which f.sources.keys (t.toList.map Table.tag) → Clashless (w.optSource visible f t)
  | none, _, _ => .pure _
  | some t, h, hroom => .bind (clashless_source t h hroom) fun _ _ => .pure _
theorem clashless_joins {visible f} : ∀ js : List Join, Everywhere (Roomy which) (joinsSelects js) →
    Room which f.sources.keys (js.map (·.table.tag)) → Clashless (w.joins visible f js)
  | [], _, _ => .pure _
  | ⟨_, t, c, _⟩ :: js, h, hroom => by
    -- the other joins find the keys with the alias of this one
    replace hroom : Room which _ ([t.tag] ++ js.map (·.table.tag)) := hroom
    obtain ⟨hfirst, hrest⟩ := hroom.split
    refine .bind (clashless_source t h.left.left hfirst) fun x ht => ?_
    obtain ⟨t', f'⟩ := x
    rw [← (hw.source hfirst.labelled ht).2] at hrest
    exact .bind (clashless_optExpr c h.left.right) fun _ _ =>
      .bind (clashless_joins js h.right hrest) fun _ _ => .pure _
theorem clashless_unions : ∀ us : List UnionPart, Everywhere (Roomy which) (unionsSelects us) → Clashless (w.unions us)
  | [], _ => .pure _
  | ⟨_, s⟩ :: us, h =>
    .bind (clashless_select s h.left) fun _ _ => .bind (clashless_unions us h.right) fun _ _ => .pure _
theorem clashless_select {visible} : ∀ s : Select, Everywhere (Roomy which) s.selects → Clashless (w.select visible s)
  | ⟨distinct, fs, t, js, c, gs, hv, os, l, o, us, f⟩, h => by
    simp only [Everywhere, Select.selects, List.forall_mem_cons, List.forall_mem_append] at h
    obtain ⟨⟨⟨⟨⟨⟨⟨⟨⟨⟨hself, hfs⟩, ht⟩, hjs⟩, hc⟩, hgs⟩, hhv⟩, hos⟩, hl⟩, ho⟩, hus⟩ := h
    simp only [Roomy, Select.tags, Select.tables, List.map_append, List.map_map] at hself
    rw [← hw.opening fs f] at hself
    obtain ⟨hsource, hjoins⟩ := hself.split
    refine .bind (clashless_fields fs hfs) fun _ _ => .bind (clashless_optSource t ht hsource) fun x hok => ?_
    obtain ⟨t', f'⟩ := x
    rw [← (hw.optSource hsource.labelled hok).2] at hjoins
    exact .bind (clashless_joins js hjs hjoins) fun _ _ => .bind (clashless_optExpr c hc) fun _ _ =>
      .bind (clashless_exprs gs hgs) fun _ _ => .bind (clashless_optExpr hv hhv) fun _ _ =>
      .bind (clashless_orders os hos) fun _ _ => .bind (clashless_optExpr l hl) fun _ _ =>
      .bind (clashless_optExpr o ho) fun _ _ => .bind (clashless_unions us hus) fun _ _ => .pure _
end

end

end Enters

end Sweep

theorem Naming.clashless_resolve (n : Naming) (joined : Bool) (scopes : List Facts) (name : String)
    (label : Option String) : Clashless (n.resolve joined scopes name label) := by
  unfold resolve
  split
  · split
    · unfold navigate
      repeat' split
      · exact .error rfl
      · exact .error rfl
      · exact .error rfl
      · exact .ok _
    · exact .error rfl
  · unfold plain
    repeat' split
    · exact .ok _
    · exact .error rfl
    · exact .ok _

/-- A table keeps its alias, and its source has it. -/
theorem Naming.label_of_resolve {n : Naming} {joined : Bool} {scopes : List Facts} {name a : String} {t : Table}
    {s : Source} (h : n.resolve joined scopes name (some a) = .ok (t, s)) :
    t.tag = (false, some a) ∧ s.label = some a := by
  obtain ⟨name', label', rfl, hrenames, hmaps⟩ := resolve_renames h
  have hlabel : label' = some a := by
    cases hrenames <;> rfl
  subst hlabel
  refine ⟨rfl, ?_⟩
  cases hmaps <;> rfl

/-- The first pass registers the named tables. -/
theorem Naming.enters (n : Naming) : n.sweep.Enters not where
  opening _ _ := rfl
  ident _ i := .ok i
  table {joined visible f t} hroom := by
    cases t with
    | derived s label => exact .pure _
    | named name label =>
      obtain ⟨hlabelled, -, hfree⟩ := hroom
      cases label with
      | none => exact absurd List.mem_cons_self hlabelled
      | some a =>
        refine .bind (n.clashless_resolve joined (f :: visible) name (some a)) fun x hres => ?_
        obtain ⟨t, s⟩ := x
        have hkey : some a ∉ f.sources.keys := fun hmem => hfree hmem List.mem_cons_self
        exact .bind (Facts.clashless_addSource (label_of_resolve hres).2 hkey) fun _ _ => .pure _
  enters {joined visible f t t' f'} hlabelled h := by
    cases t with
    | derived s label =>
      cases h
      exact ⟨rfl, (List.append_nil _).symm⟩
    | named name label =>
      cases label with
      | none => exact absurd List.mem_cons_self hlabelled
      | some a =>
        simp only [sweep, bind_eq_ok, pure_eq_ok] at h
        obtain ⟨⟨t₁, s⟩, hres, f₁, hadd, h⟩ := h
        cases h
        obtain ⟨htag, hlabel⟩ := label_of_resolve hres
        exact ⟨htag, Facts.keys_addSource hlabel hadd⟩

/-- The second pass registers the derived tables. -/
theorem Derived.enters : Derived.sweep.Enters id where
  opening _ _ := rfl
  ident _ i := .ok i
  table {joined visible f t} hroom := by
    cases t with
    | named name label => exact .pure _
    | derived s label =>
      obtain ⟨hlabelled, -, hfree⟩ := hroom
      cases label with
      | none => exact absurd List.mem_cons_self hlabelled
      | some a =>
        have hkey : some a ∉ f.sources.keys := fun hmem => hfree hmem List.mem_cons_self
        exact .bind (clashless_propertiesFrom s.facts s.fields []) fun _ _ =>
          .bind (Facts.clashless_addSource rfl hkey) fun _ _ => .pure _
  enters {joined visible f t t' f'} hlabelled h := by
    cases t with
    | named name label =>
      cases h
      exact ⟨rfl, (List.append_nil _).symm⟩
    | derived s label =>
      cases label with
      | none => exact absurd List.mem_cons_self hlabelled
      | some a =>
        simp only [sweep, bind_eq_ok, pure_eq_ok] at h
        obtain ⟨ps, -, f₁, hadd, h⟩ := h
        cases h
        exact ⟨rfl, Facts.keys_addSource rfl hadd⟩

/-- The fourth pass registers no tables. -/
theorem Columns.enters : Columns.sweep.Enters fun _ => false where
  opening _ _ := rfl
  ident := clashless_resolve
  table _ := .ok _
  enters _ h := by
    cases h
    exact ⟨rfl, (List.append_nil _).symm⟩

theorem Columns.clashless_query (s : Select) : Clashless (Columns.sweep.query (.select s)) :=
  .map _ (Columns.enters.clashless_select s fun _ _ => .none _ _)

end EntitySql
