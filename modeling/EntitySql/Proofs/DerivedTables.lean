import Mathlib
import EntitySql.Proofs.DerivedColumns
import EntitySql.Proofs.Isolation

/-!
# Derived tables return what they declare

What a derived table declares is settled before its own names and wildcards are resolved; what it returns
comes out of that later. The two agree for properties without parts: a column that the table declares is
one that it returns, or it keeps a wildcard. A property with parts is declared as one, by its column. Named
as a field it is returned so, without the columns of its parts; but a wildcard returns its parts, and not
the property.

* `Query.realizes_of_mem_blocks`: each derived source belongs to a derived table, and comes from its fields.
* **`Query.analyse_returns`**: the declared columns are returned where nothing embeds parts.
* **`Query.resolve_delivers`**: what is returned of a field of a derived table that a name means.
-/

namespace EntitySql

open Outcome

/-! ## Fields -/

/-- An edit keeps a field up to its expression, or puts others in its place. -/
theorem FieldsEdited.of_mem {d : Edit} {p : Spot} {f : ResultField} : ∀ {fs fs' : List ResultField},
    FieldsEdited d p fs fs' → f ∈ fs →
    (∃ e', ⟨e', f.label⟩ ∈ fs' ∧ f.expr.Edited d p e') ∨ ∃ xs, d.expand p f xs ∧ xs ⊆ fs'
  | _ :: _, _, .keep label he hfs, hf => by
    rcases List.mem_cons.mp hf with rfl | hf
    · exact .inl ⟨_, List.mem_cons_self, he⟩
    · rcases hfs.of_mem hf with ⟨e', hmem, he'⟩ | ⟨xs, hx, hsub⟩
      · exact .inl ⟨e', List.mem_cons_of_mem _ hmem, he'⟩
      · exact .inr ⟨xs, hx, List.subset_cons_of_subset _ hsub⟩
  | _ :: _, _, .expand hx hfs, hf => by
    rcases List.mem_cons.mp hf with rfl | hf
    · exact .inr ⟨_, hx, List.subset_append_left _ _⟩
    · rcases hfs.of_mem hf with ⟨e', hmem, he'⟩ | ⟨xs, hx, hsub⟩
      · exact .inl ⟨e', List.mem_append_right _ hmem, he'⟩
      · exact .inr ⟨xs, hx, List.subset_append_of_subset_right _ hsub⟩

theorem Select.Edited.fields {d : Edit} {visible : List View} {s s' : Select} (h : s.Edited d visible s') :
    FieldsEdited d ⟨.ofSelect s.fields s.facts :: visible, false⟩ s.fields s'.fields := by
  obtain ⟨hfs, -⟩ := h
  exact hfs

theorem Select.Edited.facts {d : Edit} {visible : List View} {s s' : Select} (h : s.Edited d visible s') :
    d.facts s'.tables s.facts s'.facts := by
  obtain ⟨-, -, -, -, -, -, -, -, -, -, hf⟩ := h
  exact hf

theorem Expr.Edited.asIdentifier?_eq_none {d : Edit} {p : Spot} {e e' : Expr} (h : e.Edited d p e')
    (he : e.asIdentifier? = none) : e'.asIdentifier? = none := by
  cases h with
  | ident => cases he
  | _ => rfl

/-! ## What a select returns -/

/-- A field of the select is returned under that label. -/
def Select.Returns (s : Select) (column : String) : Prop :=
  ∃ f ∈ s.fields, f.isWildcard = false ∧ ∃ name, Results.names f = .ok (name, column)

/-- The select list has a wildcard. -/
def Select.KeepsWildcard (s : Select) : Prop := ∃ f ∈ s.fields, f.isWildcard = true

/-- No raw table has the name of a property with parts. -/
def Sources.Clear (ss : Sources) : Prop :=
  ∀ x ∈ ss.toList, x.isRaw = true → ∀ name, x.answersTo name = true → ∀ s ∈ ss.toList, ∀ p,
    s.property? name = some p → p.parts = []

/-- The passes from the completion of joins to the mapping of results, on a select that stands alone. -/
inductive Select.Finishes (schema : Schema) : Select → Select → Prop
  | mk {A K L s j c r} : s.Edited (Joins.edit schema A K L) [] j → j.Edited Columns.edit [] c →
    c.Edited Results.edit [] r → Finishes schema s r

theorem Joins.Links.isRaw {A : Entity → Bool} {t : Table} {s : Source} (h : Joins.Links A t s) :
    s.isRaw = true := by
  cases h
  rfl

namespace Select.Finishes

variable {schema : Schema} {s r : Select}

/-- Only raw tables join the sources. -/
theorem sources (h : s.Finishes schema r) : ∃ new, r.facts.sources.entries = s.facts.sources.entries ++ new
    ∧ ∀ x ∈ new, x.2.isRaw = true := by
  obtain ⟨hj, hc, hr⟩ := h
  obtain ⟨new, hnew, hlinks⟩ := hj.facts.sources
  have hcs : _ = _ := hc.facts
  have hrs : _ = _ := hr.facts
  refine ⟨new, by rw [hrs, hcs, hnew], fun x hx => ?_⟩
  obtain ⟨t, -, hlink⟩ := hlinks x hx
  exact hlink.isRaw

theorem mem_sources (h : s.Finishes schema r) {x : Source} (hx : x ∈ s.facts.sources.toList) :
    x ∈ r.facts.sources.toList := by
  obtain ⟨new, hnew, -⟩ := h.sources
  rw [Sources.toList, hnew, List.map_append]
  exact List.mem_append_left _ hx

/-- A field that is no name keeps its alias. -/
theorem keeps_expr (h : s.Finishes schema r) {f : ResultField} (hf : f ∈ s.fields)
    (hname : f.expr.asIdentifier? = none) : ∃ e, ⟨e, f.label⟩ ∈ r.fields ∧ e.asIdentifier? = none := by
  obtain ⟨hj, hc, hr⟩ := h
  obtain ⟨e₁, hmem₁, he₁⟩ | ⟨_, hx, -⟩ := hj.fields.of_mem hf
  · have hname₁ := he₁.asIdentifier?_eq_none hname
    obtain ⟨e₂, hmem₂, he₂⟩ | ⟨_, hx, -⟩ := hc.fields.of_mem hmem₁
    · have hname₂ := he₂.asIdentifier?_eq_none hname₁
      obtain ⟨e₃, hmem₃, he₃⟩ | ⟨_, ⟨_, _, -, hx⟩, -⟩ := hr.fields.of_mem hmem₂
      · exact ⟨e₃, hmem₃, he₃.asIdentifier?_eq_none hname₂⟩
      · obtain ⟨i, -, -, hi, -⟩ := Results.expansion_eq_some hx
        dsimp only at hi
        rw [hi] at hname₂
        cases hname₂
    · exact hx.elim
  · exact hx.elim

/-- A field that is a name is resolved among the sources of the select, with the links, and then kept or
expanded. -/
theorem ident (h : s.Finishes schema r) {i : Identifier} {label : Option String}
    (hf : ⟨.ident i, label⟩ ∈ s.fields) :
    ∃ g i', g.sources = r.facts.sources ∧ Columns.resolve ⟨[g], false⟩ i = .ok i'
      ∧ ((⟨.ident i', label⟩ : ResultField) ∈ r.fields
        ∨ ∃ xs, Results.expansion r.facts.sources ⟨.ident i', label⟩ = .ok (some xs) ∧ xs ⊆ r.fields) := by
  obtain ⟨hj, hc, hr⟩ := h
  have hcs : _ = _ := hc.facts
  have hrs : _ = _ := hr.facts
  obtain ⟨e₁, hmem₁, he₁⟩ | ⟨_, hx, -⟩ := hj.fields.of_mem hf
  · cases he₁ with
    | ident hi₁ =>
      cases hi₁
      obtain ⟨e₂, hmem₂, he₂⟩ | ⟨_, hx, -⟩ := hc.fields.of_mem hmem₁
      · cases he₂ with
        | @ident _ _ i' hi₂ =>
          obtain ⟨scopes, hscopes, hresolve⟩ := hi₂
          cases hscopes with
          | @cons g _ _ _ hoffers hnil =>
            cases hnil
            have hg : g.sources = r.facts.sources := hoffers.sources.trans (hrs.trans hcs).symm
            refine ⟨g, i', hg, hresolve, ?_⟩
            obtain ⟨e₃, hmem₃, he₃⟩ | ⟨xs, ⟨v, around, hscopes, hx⟩, hsub⟩ := hr.fields.of_mem hmem₂
            · cases he₃ with
              | ident hi₃ =>
                cases hi₃
                exact .inl hmem₃
            · cases hscopes
              exact .inr ⟨xs, hrs ▸ hx, hsub⟩
      · exact hx.elim
  · exact hx.elim

/-- The sources that name resolution looks at give the same answers as those before the links. -/
theorem find_eq (h : s.Finishes schema r) (hclear : r.facts.sources.Clear) {g : Facts}
    (hg : g.sources = r.facts.sources) {value : String} {found : Option FieldMatch}
    (hfound : Lookup.find value [s.facts] = .ok found) : Lookup.find value [g] = .ok found := by
  obtain ⟨new, hnew, hraw⟩ := h.sources
  refine Lookup.find_beside (hg ▸ hnew) hraw (fun x hx name hanswers y hy p hp => ?_) hfound
  have hx' : x.2 ∈ r.facts.sources.toList := by
    rw [Sources.toList, hnew]
    exact List.mem_map_of_mem (List.mem_append_right _ hx)
  exact hclear x.2 hx' (hraw x hx) name hanswers y (h.mem_sources hy) p hp

end Select.Finishes

theorem Columns.resolve_wildcard {p : Place} {i i' : Identifier} (hwild : i.isWildcard = true)
    (h : Columns.resolve p i = .ok i') : i' = i := by
  rw [resolve, if_pos (by simp [hwild])] at h
  cases h
  rfl

/-- A fresh name outside the clauses for aliases is looked up. -/
theorem Columns.resolve_fresh {scopes : List Facts} {i i' : Identifier} {found : Option FieldMatch}
    (hwild : i.isWildcard = false) (hfresh : i.resolution = none) (hfound : Lookup.find i.value scopes = .ok found)
    (h : Columns.resolve ⟨scopes, false⟩ i = .ok i') :
    (found = none ∧ i' = i) ∨ ∃ m, found = some m ∧ i'.value = m.column := by
  have hlooked : (i.isResolved || i.isWildcard || isLabel ⟨scopes, false⟩ i) = false := by
    simp [Identifier.isResolved, hfresh, hwild, isLabel]
  rw [resolve, hlooked, if_neg Bool.false_ne_true, hfound] at h
  cases found with
  | none =>
    cases h
    exact .inl ⟨rfl, rfl⟩
  | some m =>
    cases h
    exact .inr ⟨m, rfl, rfl⟩

/-- What a matched field is written as ends in its column. -/
theorem FieldMatch.column_eq (m : FieldMatch) :
    m.column = m.property.column ∨ ∃ q, m.column = q ++ "." ++ m.property.column := by
  unfold FieldMatch.column
  split
  · exact .inr ⟨_, rfl⟩
  · exact .inl rfl

theorem Text.lastSegment_column {value column : String} (hplain : Text.Plain column)
    (h : value = column ∨ ∃ q, value = q ++ "." ++ column) : Text.lastSegment value = column := by
  rcases h with rfl | ⟨q, rfl⟩
  · exact Text.lastSegment_plain hplain
  · exact Text.lastSegment_append hplain

namespace Select.Finishes

variable {schema : Schema} {s r : Select} {embedded : Bool}

/-- **A field that declares a property returns it.** -/
theorem returns_of_read (h : s.Finishes schema r) (hs : s.Formed (.tidy embedded))
    (hclear : r.facts.sources.Clear) {f : ResultField} (hf : f ∈ s.fields) (hwild : f.isWildcard = false)
    {x : String × Property} (hx : Derived.property f s.facts = .ok x) : r.Returns x.2.column := by
  rcases Derived.property_eq_ok hx with ⟨i, found, he, hfound, -, hsome, hnone⟩ | ⟨hname, a, ha, -, hcolumn, -⟩
  · obtain ⟨e, label⟩ := f
    dsimp only at he hsome hnone
    subst he
    have hi : i.isWildcard = false := hwild
    obtain ⟨g, i', hg, hresolve, hkept⟩ := h.ident hf
    -- what the name becomes ends in the column of what it means
    have hvalue : i'.isWildcard = false ∧ x.2.column = label.getD i'.name := by
      rcases Columns.resolve_fresh hi (hs.fresh_fields hf) (h.find_eq hclear hg hfound) hresolve with
        ⟨rfl, rfl⟩ | ⟨m, rfl, hm⟩
      · exact ⟨hi, (hnone rfl).1⟩
      · obtain ⟨-, hplain, hstar⟩ := Derived.column_of_find hs.block.sources.2 hfound hi
        have hends := m.column_eq
        rw [← hm] at hends
        refine ⟨Identifier.not_isWildcard hplain hstar hends, ?_⟩
        rw [hsome m rfl, Identifier.name, Text.lastSegment_column hplain hends]
    have hmem : (⟨.ident i', label⟩ : ResultField) ∈ r.fields := by
      rcases hkept with hmem | ⟨xs, hxs, -⟩
      · exact hmem
      · obtain ⟨i'', -, -, hi'', hstar, -⟩ := Results.expansion_eq_some hxs
        cases hi''
        rw [hvalue.1] at hstar
        cases hstar
    refine ⟨_, hmem, hvalue.1, ?_⟩
    rw [hvalue.2]
    cases label with
    | none => exact ⟨_, rfl⟩
    | some a => exact ⟨_, rfl⟩
  · obtain ⟨e, hmem, he⟩ := h.keeps_expr hf hname
    refine ⟨_, hmem, by rw [ResultField.isWildcard, he], a, ?_⟩
    rw [hcolumn, Results.names]
    simp only [ha]

end Select.Finishes

/-! ## Wildcards -/

namespace Results

theorem leaves_eq_partLeaves {s : Source} {qualify : Bool} {path : String} {p : Property} (h : p.parts ≠ []) :
    leaves s qualify path p = partLeaves s qualify path p.parts := by
  obtain ⟨column, ty, nullable, parts⟩ := p
  cases parts with
  | nil => exact absurd rfl h
  | cons => rw [leaves]

theorem leaves_subset_partLeaves {s : Source} {qualify : Bool} {path name : String} {p : Property} :
    ∀ {ps : List (String × Property)}, (name, p) ∈ ps →
    leaves s qualify (path ++ "." ++ name) p ⊆ partLeaves s qualify path ps
  | _ :: _, h => by
    rw [partLeaves]
    rcases List.mem_cons.mp h with rfl | h
    · exact List.subset_append_left _ _
    · exact List.subset_append_of_subset_right _ (leaves_subset_partLeaves h)

/-- All that a source declares is read with the source, property by property. -/
theorem leaves_subset_ofSource {s : Source} {qualify : Bool} {ps : List (String × Property)}
    (hps : s.properties = some ps) {path : String} {p : Property} (h : Declared ps path p) :
    leaves s qualify path p ⊆ ofSource qualify s := by
  induction h with
  | own hmem =>
    intro x hx
    rw [ofSource, hps]
    exact List.mem_flatMap.mpr ⟨_, hmem, hx⟩
  | part _ hpart ih =>
    refine fun x hx => ih ?_
    rw [leaves_eq_partLeaves (List.ne_nil_of_mem hpart)]
    exact leaves_subset_partLeaves hpart hx

theorem leaf_mem_ofSource {s : Source} {qualify : Bool} {path : String} {p : Property} (h : s.Declares path p)
    (hparts : p.parts = []) : leaf s qualify path p ∈ ofSource qualify s := by
  obtain ⟨ps, hps, hdecl⟩ := h
  refine leaves_subset_ofSource hps hdecl ?_
  obtain ⟨column, ty, nullable, parts⟩ := p
  cases hparts
  rw [leaves]
  exact List.mem_singleton_self _

/-- A field that reads a property returns its column, unless it is a wildcard by name. -/
theorem names_leaf {s : Source} {qualify : Bool} {path : String} {p : Property} (hplain : Text.Plain p.column) :
    ∃ name, names (leaf s qualify path p) = .ok (name, p.column) := by
  refine ⟨path, ?_⟩
  have hlast : Text.lastSegment (if qualify then s.qualifier ++ "." ++ p.column else p.column) = p.column := by
    refine Text.lastSegment_column hplain ?_
    split
    · exact .inr ⟨_, rfl⟩
    · exact .inl rfl
  simp only [names, leaf, Expr.underlying?, Identifier.name, hlast]
  rfl

end Results

/-- **A wildcard stays, or returns** all that has no parts in the sources it means. -/
theorem Select.Finishes.returns_of_copied {schema : Schema} {s r : Select} {embedded : Bool}
    (h : s.Finishes schema r) (hs : s.Formed (.tidy embedded)) {i : Identifier} {label : Option String}
    (hf : ⟨.ident i, label⟩ ∈ s.fields) (hwild : i.isWildcard = true) {x : Source}
    (hx : x ∈ s.facts.sources.toList)
    (hq : ∀ q, i.qualifier? = some q → s.facts.sources.byQualifier? q = some x) :
    r.KeepsWildcard ∨ ∀ path p, x.Declares path p → p.parts = [] → r.Returns p.column := by
  obtain ⟨g, i', -, hresolve, hkept⟩ := h.ident hf
  cases Columns.resolve_wildcard hwild hresolve
  rcases hkept with hmem | ⟨xs, hxs, hsub⟩
  · exact .inl ⟨_, hmem, hwild⟩
  · obtain ⟨_, means, qualify, hi, -, hmeant, -, rfl⟩ := Results.expansion_eq_some hxs
    cases hi
    have hmean : x ∈ means := by
      obtain ⟨q, x', hq', hx', rfl, -⟩ | ⟨-, rfl, -⟩ := Results.meant_eq_ok hmeant
      · obtain ⟨new, hnew, -⟩ := h.sources
        have hsame : r.facts.sources.byQualifier? q = some x := by
          have hold := hq q hq'
          unfold Sources.byQualifier? Sources.toList at hold ⊢
          rw [hnew, List.map_append, List.find?_append, hold, Option.some_or]
        cases hsame.symm.trans hx'
        exact List.mem_singleton_self _
      · exact h.mem_sources hx
    by_cases hkeep : r.KeepsWildcard
    · exact .inl hkeep
    · refine .inr fun path p hdecl hparts => ?_
      have hleaf : Results.leaf x qualify path p ∈ r.fields :=
        hsub (List.mem_flatMap.mpr ⟨x, hmean, Results.leaf_mem_ofSource hdecl hparts⟩)
      refine ⟨_, hleaf, ?_, Results.names_leaf (hs.block.sources.2 x hx path p hdecl).plain⟩
      exact Bool.eq_false_iff.mpr fun hw => hkeep ⟨_, hleaf, hw⟩

/-! ## The derived tables of a query -/

/-- The select is what became of a derived table with the properties `ps`. -/
structure Select.Realizes (embedded : Bool) (schema : Schema) (ps : List (String × Property)) (r : Select) :
    Prop where
  declared : ∃ s : Select, Derived.properties s = .ok ps ∧ s.Formed (.tidy embedded) ∧ s.Finishes schema r
  mapped : r.block.Mapped

/-- **What becomes of a derived table returns what it declares.** A property is copied from a source, and
then so is all that has no parts in that source, if no wildcard is left; or its own column is returned. -/
theorem Select.Realizes.returns {embedded : Bool} {schema : Schema} {ps : List (String × Property)} {r : Select}
    (h : r.Realizes embedded schema ps) (hclear : r.facts.sources.Clear) {x : String × Property} (hx : x ∈ ps) :
    (∃ y ∈ r.facts.sources.toList, (∃ qs, y.properties = some qs ∧ x ∈ qs) ∧
      (r.KeepsWildcard ∨ ∀ path p, y.Declares path p → p.parts = [] → r.Returns p.column))
    ∨ r.Returns x.2.column := by
  obtain ⟨s, hps, hs, hfinishes⟩ := h.declared
  cases Derived.origin_of_mem hps x hx with
  | copied hf hwild hy hq hqs hx =>
    exact .inl ⟨_, hfinishes.mem_sources hy, ⟨_, hqs, hx⟩, hfinishes.returns_of_copied hs hf hwild hy hq⟩
  | read hf hwild hprop => exact .inr (hfinishes.returns_of_read hs hclear hf hwild hprop)

/-- All sources are raw. -/
def Checks.raw : Checks where
  sources ss := ∀ s ∈ ss.toList, s.isRaw = true

/-- Sources with properties have entities. -/
def Checks.mapped : Checks where
  sources ss := ∀ s ∈ ss.toList, s.entity = none → s.properties = none

theorem Vocabulary.meets_raw : Vocabulary.all.Meets (fun _ => True) .raw where
  sources := List.forall_mem_nil _

theorem Vocabulary.meets_mapped : Vocabulary.all.Meets (fun _ => True) .mapped where
  sources := List.forall_mem_nil _

/-- The selects in filters have no sources but links. -/
theorem Joins.carries_raw {schema : Schema} {A : Entity → Bool} :
    (Joins.edit schema A (Joins.Completed .raw)).Carries .raw .raw where
  complete h ht _ := h.formed ht trivial trivial fun _ _ _ _ _ =>
    ⟨fun _ ⟨_, _, _, _⟩ => ⟨trivial, trivial, fun _ => trivial, nofun⟩, fun _ _ _ _ => ⟨trivial, trivial⟩⟩
  sources hf _ hs := hf.forall_mem hs fun _ ⟨_, _, hlink⟩ => hlink.isRaw

theorem Joins.filters_raw {schema : Schema} {A : Entity → Bool} (budget : Nat) :
    FilterYields A (fun _ => Expr.Formed .raw) (filter schema budget) := by
  intro scopes rel label r x hscopes hr h
  refine yields_filter carries_raw (fun _ _ _ h _ => ?_) budget hscopes hr h trivial
  exact h.formed Vocabulary.meets_raw (fun _ _ _ => trivial)
    fun _ _ _ hx => ⟨Expr.shaped_of_ofDetached hx, fun _ _ => trivial⟩

theorem Naming.Maps.entity_of_properties {n : Naming} {t : Table} {s : Source} (h : n.Maps t s) :
    s.entity = none → s.properties = none := by
  cases h with
  | entity => nofun
  | raw => exact fun _ => rfl

theorem Naming.carries_mapped {n : Naming} : n.edit.Carries .mapped .mapped where
  table _ _ _ := ⟨trivial, fun _ _ => trivial⟩
  sources hf _ hs := hf.forall_mem hs fun _ ⟨_, _, hmaps⟩ => hmaps.entity_of_properties

section

variable {n : Naming} {embedded : Bool} {q k l j c r : Query}

/-- The derived sources of a query come from its derived tables, one from each. -/
theorem Derived.table_of_mem (hk : k.Formed .mapped) (hl : l.Formed (.tidy embedded))
    (h : Derived.sweep.query k = .ok l) {b : Block} (hb : b ∈ l.blocks) {d : String}
    {ps : List (String × Property)} (hsource : Source.derived d ps ∈ b.facts.sources.toList) :
    (∃ s, Table.derived s (some d) ∈ b.tables) ∧ ∀ s, Table.derived s (some d) ∈ b.tables →
      Derived.properties s = .ok ps ∧ s.Formed (.tidy embedded) := by
  obtain ⟨b', hb', hedit⟩ | ⟨s, hs, -⟩ := (Derived.edited h).blocks Derived.edit_inserts b hb
  · have hregisters : Registers b.tables b'.facts b.facts := hedit.facts
    have hformed := hl.blocks b hb
    refine ⟨?_, fun s hs => ?_⟩
    · -- a source that was there before has an entity or no properties
      obtain ⟨new, hnew, hmaps⟩ := hregisters.gains.sources
      rw [Sources.toList, hnew, List.map_append, List.mem_append] at hsource
      rcases hsource with hold | hmem
      · cases (hk.blocks b' hb').sources _ hold rfl
      · obtain ⟨x, hx, heq⟩ := List.mem_map.mp hmem
        obtain ⟨t, ht, hmaps⟩ := hmaps x hx
        rw [heq] at hmaps
        cases hmaps
        exact ⟨_, ht⟩
    · obtain ⟨x, hmaps, hx⟩ := hregisters.registered s (some d) hs
      obtain ⟨joined, hs, -⟩ := hformed.tables _ hs
      cases hmaps with
      | mk _ hprops =>
        cases hformed.sources.1.eq_of_label hsource hx rfl rfl
        exact ⟨hprops, hs⟩
  · exact hs.elim

/-- **Each derived source belongs to a derived table of its block**, and what stands for this table in the
resolved query has come from the properties of the source. -/
theorem Query.realizes_of_mem_blocks (embedded : Bool) (hcolumns : n.schema.PlainColumns)
    (hflat : embedded = false → n.schema.Flat) (hshaped : q.Shaped .all)
    (haliases : ∀ a ∈ q.aliases, Text.Plain a) (hj : q.Joined n j)
    (hc : Columns.sweep.query j = .ok c) (hr : Results.query c = .ok r) {b : Block} (hb : b ∈ r.blocks)
    {d : String} {ps : List (String × Property)}
    (hsource : Source.derived d ps ∈ b.facts.sources.toList) :
    (∃ s, Table.derived s (some d) ∈ b.tables)
      ∧ ∀ s, Table.derived s (some d) ∈ b.tables → s.Realizes embedded n.schema ps := by
  have hjl : j.facts.labels = [] := by
    rw [Joined.labels (A := fun _ => true) (fun _ _ => rfl) (strangers_none q) hj, hshaped.facts_eq]
  obtain ⟨k, hk, l, hl, hj⟩ := joined_eq_ok hj
  have hkmapped : k.Formed .mapped := Naming.carries_mapped.query (Naming.edited hk)
    (hshaped.formed Vocabulary.meets_mapped (fun _ _ => trivial) fun _ _ => trivial)
  have hltidy : l.Formed (.tidy embedded) := Derived.carries_tidy.query (Derived.edited hl)
    ((Naming.carries_tidy hcolumns hflat).query (Naming.edited hk) (hshaped.formed
      (Vocabulary.meets_tidy embedded) (fun x hx a ha => haliases a (mem_aliases (ha ▸ hx))) fun _ _ => trivial))
  have hjoins := Joins.edited (A := fun _ => true) (L := fun _ _ => True)
    (Joins.filters_raw (Joins.nestingBound n.schema)) (fun _ => trivial) (strangers_none l) hj
  -- back to the block before its joins were completed
  obtain ⟨bc, hbc, hresults⟩ | ⟨s, hs, -⟩ := (Results.edited hr).blocks Results.edit_inserts b hb
  · obtain ⟨bj, hbj, hnames⟩ | ⟨s, hs, -⟩ := (Columns.edited hjl hc).blocks Columns.edit_inserts bc hbc
    · have hbcs : bc.facts.sources = bj.facts.sources := hnames.facts
      have hbs : b.facts.sources = bc.facts.sources := hresults.facts
      rw [hbs, hbcs] at hsource
      obtain ⟨bl, hbl, hcompletes⟩ | ⟨s, hs, rfl⟩ := hjoins.blocks Joins.edit_inserts bj hbj
      · have hgains : bl.facts.Gains _ bj.facts := hcompletes.facts
        have hsource : Source.derived d ps ∈ bl.facts.sources.toList := by
          obtain ⟨new, hnew, hlinks⟩ := hgains.sources
          rw [Sources.toList, hnew, List.map_append, List.mem_append] at hsource
          refine hsource.resolve_right fun hmem => ?_
          obtain ⟨x, hx, heq⟩ := List.mem_map.mp hmem
          obtain ⟨t, -, hlink⟩ := hlinks x hx
          have hraw := hlink.isRaw
          rw [heq] at hraw
          cases hraw
        obtain ⟨⟨s, hs⟩, hall⟩ := Derived.table_of_mem hkmapped hltidy hl hbl hsource
        refine ⟨?_, fun s₃ hs₃ => ?_⟩
        · obtain ⟨s₁, hs₁, -⟩ := hcompletes.tables.after s (some d) hs
          obtain ⟨s₂, hs₂, -⟩ := hnames.tables.after s₁ (some d) hs₁
          obtain ⟨s₃, hs₃, -⟩ := hresults.tables.after s₂ (some d) hs₂
          exact ⟨s₃, hs₃⟩
        · obtain ⟨s₂, hs₂, hmapped, hr⟩ := hresults.tables.before s₃ (some d) hs₃
          obtain ⟨s₁, hs₁, -, hc⟩ := hnames.tables.before s₂ (some d) hs₂
          obtain ⟨s, hs, -, hj⟩ := hcompletes.tables.before s₁ (some d) hs₁
          obtain ⟨hprops, htidy⟩ := hall s hs
          exact ⟨⟨s, hprops, htidy, .mk hj hc hr⟩, Results.mapped_select hmapped⟩
      · cases hs.block.sources _ hsource
    · exact hs.elim
  · exact hs.elim

end

/-! ## Without parts -/

theorem Select.Realizes.clear {schema : Schema} {ps : List (String × Property)} {r : Select}
    (h : r.Realizes false schema ps) : r.facts.sources.Clear := by
  obtain ⟨s, -, hs, hfinishes⟩ := h.declared
  obtain ⟨new, hnew, hraw⟩ := hfinishes.sources
  intro _ _ _ name _ y hy p hp
  rw [Sources.toList, hnew, List.map_append, List.mem_append] at hy
  rcases hy with hy | hy
  · exact (hs.block.sources.2 y hy name p (Source.declares_of_property? hp)).flat rfl
  · obtain ⟨x, hx, rfl⟩ := List.mem_map.mp hy
    rw [Source.property?, Option.isNone_iff_eq_none.mp (hraw x hx)] at hp
    cases hp

/-- The properties of a derived table have no parts. -/
theorem Select.Realizes.parts_eq {schema : Schema} {ps : List (String × Property)} {r : Select}
    (h : r.Realizes false schema ps) {x : String × Property} (hx : x ∈ ps) : x.2.parts = [] := by
  obtain ⟨s, hps, hs, -⟩ := h.declared
  exact (Derived.tidy_properties hs.block.sources.2 hs.labels hps x.1 x.2 (.own hx)).flat rfl

theorem Select.Realizes.results {embedded : Bool} {schema : Schema} {ps : List (String × Property)} {r : Select}
    (h : r.Realizes embedded schema ps) {column : String} (hreturns : r.Returns column) :
    ∃ y ∈ r.facts.results, y.2.column = column := by
  obtain ⟨f, hf, hwild, name, hnames⟩ := hreturns
  obtain ⟨name', y, hnames', hy⟩ := h.mapped.registered f hf hwild
  cases hnames.symm.trans hnames'
  exact ⟨_, hy, rfl⟩

/-- **What derived tables declare is what they return**, where entities embed nothing and the names of
columns and aliases have one segment. Each derived source of a block belongs to a derived table, and each
column that it declares is among the results of this table, unless the table keeps a wildcard. -/
theorem Query.analyse_returns {n : Naming} (hflat : n.schema.Flat) (hcolumns : n.schema.PlainColumns)
    {text : String} {q r : Query} (hq : Query.ofText text = .ok q)
    (haliases : ∀ a ∈ q.aliases, Text.Plain a) (hr : q.analyse n = .ok r) :
    ∀ b ∈ r.blocks, ∀ d ps, Source.derived d ps ∈ b.facts.sources.toList →
      (∃ s, Table.derived s (some d) ∈ b.tables) ∧ ∀ s, Table.derived s (some d) ∈ b.tables →
        ∀ x ∈ ps, s.KeepsWildcard ∨ ∃ y ∈ s.facts.results, y.2.column = x.2.column := by
  intro b hb d ps hsource
  obtain ⟨j, hj, c, hc, hr⟩ := analyse_eq_ok hr
  obtain ⟨htable, hall⟩ := realizes_of_mem_blocks false hcolumns (fun _ => hflat)
    (Query.shaped_of_ofText hq) haliases hj hc hr hb hsource
  refine ⟨htable, fun s hs x hx => ?_⟩
  have hrealizes := hall s hs
  rcases hrealizes.returns hrealizes.clear hx with ⟨y, hy, ⟨qs, hqs, hx'⟩, hkeeps | hreturns⟩ | hreturns
  · exact .inl hkeeps
  · have hparts : x.2.parts = [] := hrealizes.parts_eq hx
    exact .inr (hrealizes.results (hreturns x.1 x.2 ⟨qs, hqs, .own hx'⟩ hparts))
  · exact .inr (hrealizes.results hreturns)

/-- Points, and a table of the alias under which they are read, with a column `*`. -/
def starred : Schema where
  entities :=
    [{ name := "Point", table := "points", properties := [("x", { column := "x", ty := .int })] },
     { name := "Star", table := "t", properties := [("size", { column := "*", ty := .int })] }]

def starredText : String := "SELECT d.y FROM (SELECT Star.size AS y FROM Point t JOIN Star ON 1 = 1) d"

/-- The column `*` is taken for a wildcard over the points: the derived table declares `y`, and returns `x`. -/
theorem Query.analyse_starred :
    ((Query.ofText starredText).toOption.bind fun q => (q.analyse ⟨starred, true⟩).toOption).map
        (fun r => r.selects.map fun s => (s.facts.sources.toList.map fun x =>
          ((x.properties.getD []).map (·.2.column)), s.facts.results.map (·.2.column)))
      = some [([["y"]], ["y"]), ([["x"], ["*"]], ["x"])] := by
  rw [starredText, ofText_ofList]
  decide +kernel

/-- The ids of people with the number of their boss, through two derived tables. -/
def rosterText : String :=
  "SELECT e.chief, e.id FROM (SELECT d.*, d.id + 1 AS next FROM (SELECT p.id, b.id AS chief FROM Person p "
    ++ "JOIN p.boss b) d) e"

theorem Query.analyse_returns_roster : ∃ q r, Query.ofText rosterText = .ok q
    ∧ q.analyse ⟨staff, true⟩ = .ok r ∧ (∀ a ∈ q.aliases, Text.Plain a)
    ∧ (∃ b ∈ r.blocks, ∃ x ∈ b.facts.sources.toList, x = .derived "e" (x.properties.getD []))
    ∧ ∀ b ∈ r.blocks, ∀ d ps, Source.derived d ps ∈ b.facts.sources.toList →
      (∃ s, Table.derived s (some d) ∈ b.tables) ∧ ∀ s, Table.derived s (some d) ∈ b.tables →
        ∀ x ∈ ps, s.KeepsWildcard ∨ ∃ y ∈ s.facts.results, y.2.column = x.2.column := by
  have hchecked : ((Query.ofText rosterText).toOption.bind fun q => (q.analyse ⟨staff, true⟩).toOption.map
      fun r => decide ((∀ a ∈ q.aliases, Text.Plain a) ∧ ∃ b ∈ r.blocks, ∃ x ∈ b.facts.sources.toList,
        x = .derived "e" (x.properties.getD []))) = some true := by
    unfold rosterText
    rw [← String.ofList_append, ofText_ofList]
    decide +kernel
  obtain ⟨q, r, hq, hr, hcheck⟩ := exists_run hchecked
  obtain ⟨haliases, hderived⟩ := of_decide_eq_true hcheck
  exact ⟨q, r, hq, hr, haliases, hderived,
    analyse_returns (by decide +kernel) (by decide +kernel) hq haliases hr⟩

/-! ## With parts -/

/-- What a select returns for the field at a path of a derived table that declares `ps`. -/
inductive Select.Delivers (s : Select) (ps : List (String × Property)) (path : String) (f : Property) : Prop
  /-- The column of the field. -/
  | column : s.Returns f.column → Delivers s ps path f
  /-- What a wildcard covers that is left; a source declares the field. -/
  | wildcard {y} : s.KeepsWildcard → y ∈ s.facts.sources.toList → y.Declares path f → Delivers s ps path f
  /-- Its parts, in place of the field. -/
  | parts : f.parts ≠ [] → (∀ sub g, Declared f.parts sub g → g.parts = [] → s.Returns g.column) →
    Delivers s ps path f
  /-- The property that it is a part of, as one. -/
  | whole {name p sub} : (name, p) ∈ ps → path = name ++ "." ++ sub → Declared p.parts sub f →
    s.Returns p.column → Delivers s ps path f

/-- **What becomes of a derived table delivers each field**, or its parts, or what it is a part of. -/
theorem Select.Realizes.delivers {embedded : Bool} {schema : Schema} {ps : List (String × Property)} {r : Select}
    (h : r.Realizes embedded schema ps) (hclear : r.facts.sources.Clear) {path : String} {f : Property}
    (hdecl : Declared ps path f) : r.Delivers ps path f := by
  obtain ⟨⟨name, p⟩, hx, hown⟩ := hdecl.exists_own
  rcases h.returns hclear hx with ⟨y, hy, ⟨qs, hqs, hx'⟩, hkept⟩ | hreturns
  · have hy' : y.Declares path f := ⟨qs, hqs, hown.mono (List.cons_subset.mpr ⟨hx', List.nil_subset _⟩)⟩
    rcases hkept with hkeeps | hall
    · exact .wildcard hkeeps hy hy'
    · by_cases hparts : f.parts = []
      · exact .column (hall path f hy' hparts)
      · refine .parts hparts fun sub g hg hleaf => ?_
        obtain ⟨qs', hqs', hdecl'⟩ := hy'
        exact hall _ g ⟨qs', hqs', hdecl'.trans hg⟩ hleaf
  · rcases hown.singleton with ⟨rfl, rfl⟩ | ⟨sub, hpath, hsub⟩
    · exact .column hreturns
    · exact .whole hx hpath hsub hreturns

/-! ### The numbering of parameters -/

namespace Parameters

variable {p : Spot}

theorem underlying?_eq : ∀ (e : Expr) {e' : Expr} {i : Identifier}, e.Edited Parameters.edit p e' →
    e.underlying? = some i → e'.underlying? = some i
  | .ident _, _, _, h, hi => by
    cases h with
    | ident heq =>
      cases heq
      exact hi
  | .unary _ e, _, _, h, hi => by
    cases h with
    | unary _ he => exact (underlying?_eq e he hi :)
  | .literal _, _, _, _, hi | .marker _, _, _, _, hi | .named _, _, _, _, hi | .call .., _, _, _, hi
  | .list _, _, _, _, hi | .arith .., _, _, _, hi | .compare .., _, _, _, hi | .logic .., _, _, _, hi
  | .case .., _, _, _, hi | .subquery _, _, _, _, hi => by cases hi

theorem asIdentifier?_eq {e e' : Expr} (h : e.Edited Parameters.edit p e') :
    e'.asIdentifier? = e.asIdentifier? := by
  cases h with
  | ident hi =>
    cases hi
    rfl
  | _ => rfl

variable {s s' : Select} (h : s.Edited Parameters.edit [] s')

include h

theorem mem_fields_of_mem {f : ResultField} (hf : f ∈ s.fields) :
    ∃ f' ∈ s'.fields, f'.label = f.label ∧ f'.isWildcard = f.isWildcard
      ∧ ∀ x, Results.names f = .ok x → Results.names f' = .ok x := by
  obtain ⟨e', hmem, he⟩ | ⟨_, hx, -⟩ := h.fields.of_mem hf
  · refine ⟨_, hmem, rfl, ?_, fun x hx => ?_⟩
    · rw [ResultField.isWildcard, ResultField.isWildcard, asIdentifier?_eq he]
    · unfold Results.names at hx ⊢
      cases hl : f.label with
      | some a =>
        rw [hl] at hx
        exact hx
      | none =>
        rw [hl] at hx
        dsimp only at hx ⊢
        cases hi : f.expr.underlying? with
        | none => rw [hi] at hx; cases hx
        | some i =>
          rw [hi] at hx
          rw [underlying?_eq _ he hi]
          exact hx
  · exact hx.elim

theorem returns {column : String} (hr : s.Returns column) : s'.Returns column := by
  obtain ⟨f, hf, hwild, name, hnames⟩ := hr
  obtain ⟨f', hf', -, hwild', hnames'⟩ := mem_fields_of_mem h hf
  exact ⟨f', hf', hwild'.trans hwild, name, hnames' _ hnames⟩

theorem delivers {ps : List (String × Property)} {path : String} {f : Property} (hd : s.Delivers ps path f) :
    s'.Delivers ps path f := by
  cases hd with
  | column hr => exact .column (returns h hr)
  | wildcard hkeeps hy hdecl =>
    have hsources : s'.facts.sources = s.facts.sources := h.facts
    obtain ⟨w, hw, hwild⟩ := hkeeps
    obtain ⟨w', hw', -, hwild', -⟩ := mem_fields_of_mem h hw
    exact .wildcard ⟨w', hw', hwild'.trans hwild⟩ (hsources ▸ hy) hdecl
  | parts hparts hall => exact .parts hparts fun sub g hg hleaf => returns h (hall sub g hg hleaf)
  | whole hmem hpath hsub hr => exact .whole hmem hpath hsub (returns h hr)

end Parameters

/-! ### Names -/

/-- The name was made from one that means the field of a source in its sight. -/
structure Reference.Reads (b : Reference) (s : Source) (path : String) (f : Property) : Prop where
  mem : s ∈ b.spot.sources
  declares : s.Declares path f
  resolution : b.ident.resolution = some ⟨f.ty, f.nullable, s.entity.map (·.name), some path⟩
  value : b.ident.value = f.column ∨ b.ident.value = s.qualifier ++ "." ++ f.column

theorem Spot.Alike.sources_eq {p p' : Spot} (h : p.Alike p') : p'.sources = p.sources := by
  have hflat : ∀ p : Spot, p.sources = (p.scopes.map (·.sources)).flatMap Sources.toList := by
    intro p
    rw [Spot.sources, List.flatMap_map]
  rw [hflat, hflat, h.sources]

theorem Reference.Becomes.reads {a : Reference} {bs : List Reference} (h : a.Becomes bs) :
    ∀ b ∈ bs, a.spot.Alike b.spot ∧ (b.ident = a.ident ∨ ∃ s path f, b.Reads s path f) := by
  intro b hb
  cases h with
  | single hp hdenotes =>
    cases List.mem_singleton.mp hb
    refine ⟨hp, ?_⟩
    cases hdenotes with
    | qualified hbinds hdecl _ =>
      exact .inr ⟨_, _, _, hp.sources_eq ▸ hbinds.mem a.spot.labelled, hdecl, rfl, .inr rfl⟩
    | bare hs hdecl _ => exact .inr ⟨_, _, _, hp.sources_eq ▸ hs, hdecl, rfl, .inl rfl⟩
    | wildcard | label | raw | unknown => exact .inl rfl
  | several _ hexpands =>
    obtain ⟨-, v, around, hscopes, hall⟩ := hexpands
    obtain ⟨hp, s, hs, -, path, f, hdecl, hident⟩ := hall b hb
    have hmem : s ∈ a.spot.sources := by
      rw [Spot.sources, hscopes]
      exact List.mem_append_left _ hs
    refine ⟨hp, .inr ⟨s, path, f, hp.sources_eq ▸ hmem, hdecl, by rw [hident], ?_⟩⟩
    rw [hident]
    split
    · exact .inr rfl
    · exact .inl rfl

/-- **What names find in derived tables.** Each name of a resolved query is left as it was, or is a field of
a source in sight. If this is a derived source, it belongs to a derived table of a block, and what the table
returns is the column of the field, its parts, or the property that it is a part of; or the table keeps a
wildcard over a source that declares it. -/
theorem Query.resolve_delivers {n : Naming} (hcolumns : n.schema.PlainColumns) {text : String} {q r : Query}
    (hq : Query.ofText text = .ok q) (haliases : ∀ a ∈ q.aliases, Text.Plain a) (hr : q.resolve n = .ok r)
    (hclear : ∀ b ∈ r.blocks, ∀ s label, Table.derived s label ∈ b.tables → s.facts.sources.Clear) :
    ∃ j, q.Joined n j ∧ ∀ b ∈ r.references, ∃ a ∈ j.references, a.spot.Alike b.spot
      ∧ (b.ident = a.ident ∨ ∃ s path f, b.Reads s path f ∧ ∀ d ps, s = .derived d ps →
        ∃ block ∈ r.blocks, s ∈ block.facts.sources.toList
          ∧ (∃ t, Table.derived t (some d) ∈ block.tables)
          ∧ ∀ t, Table.derived t (some d) ∈ block.tables → t.Delivers ps path f) := by
  have hshaped := Query.shaped_of_ofText hq
  obtain ⟨j, hj, c, hc, l, hl, hr⟩ := resolve_joined hr
  refine ⟨j, hj, fun b hb => ?_⟩
  obtain ⟨a, ha, bs, hbecomes, hmem⟩ := (becomes_of_joined hshaped hj hc hl hr).exists_mem hb
  obtain ⟨hp, hident | ⟨s, path, f, hreads⟩⟩ := hbecomes.reads b hmem
  · exact ⟨a, ha, hp, .inl hident⟩
  · refine ⟨a, ha, hp, .inr ⟨s, path, f, hreads, ?_⟩⟩
    rintro d ps rfl
    -- the block that the name sees, and the same block before parameters were numbered
    obtain ⟨v, hv, hs⟩ := List.mem_flatMap.mp hreads.mem
    obtain ⟨block, hblock, heq⟩ := Query.sources_of_view hb hv
    rw [heq] at hs
    refine ⟨block, hblock, hs, ?_⟩
    obtain ⟨block', hblock', hedit⟩ | ⟨s, hfalse, -⟩ :=
      (Parameters.edited hr).blocks Parameters.edit_inserts block hblock
    · have hsources : block.facts.sources = block'.facts.sources := hedit.facts
      obtain ⟨⟨t, ht⟩, hall⟩ := realizes_of_mem_blocks true hcolumns nofun hshaped haliases hj hc hl hblock'
        (hsources ▸ hs)
      obtain ⟨qs, hqs, hdecl⟩ := hreads.declares
      cases hqs
      refine ⟨?_, fun t' ht' => ?_⟩
      · obtain ⟨t', ht', -⟩ := hedit.tables.after t (some d) ht
        exact ⟨t', ht'⟩
      · obtain ⟨t, ht, -, hnumbered⟩ := hedit.tables.before t' (some d) ht'
        have htsources : t'.facts.sources = t.facts.sources := hnumbered.facts
        have hclear' : t.facts.sources.Clear := htsources ▸ hclear block hblock t' (some d) ht'
        exact Parameters.delivers hnumbered ((hall t ht).delivers hclear' hdecl)
    · exact hfalse.elim

theorem Sources.clear_of_hasRaw {ss : Sources} (h : ss.hasRaw = false) : ss.Clear := by
  intro x hx hraw
  rw [hasRaw, List.any_eq_false] at h
  exact absurd hraw (h x hx)

/-- Customers with addresses. -/
def addresses : Schema where
  entities :=
    [{ name := "Customer", table := "customers"
       properties := [("id", { column := "id", ty := .int }),
         ("address", { column := "address", ty := .json
                       parts := [("city", { column := "address_city", ty := .string }),
                         ("zip", { column := "address_zip", ty := .string })] })] }]

/-- The address of a customer, and the city of one, through derived tables. -/
def addressesText : String :=
  "SELECT d.address, e.address.city FROM (SELECT * FROM Customer) d JOIN (SELECT address FROM Customer) e ON 1 = 1"

/-- Neither is returned: the table `d` has the parts of the address only, and `e` only the whole. -/
theorem Query.undelivered_addresses :
    (Query.resolved? ⟨addresses, true⟩ addressesText).map (fun r => (r.references.map (·.ident.value),
        r.selects.map fun s => s.fields.filterMap fun f => (Results.names f).toOption.map (·.2)))
      = some (["d.address", "e.address_city", "id", "address_city", "address_zip", "address"],
        [["address", "address_city"], ["id", "address_city", "address_zip"], ["address"]]) := by
  rw [resolved?, addressesText, ofText_ofList]
  decide +kernel

theorem Query.resolve_delivers_addresses : ∃ q r, Query.ofText addressesText = .ok q
    ∧ q.resolve ⟨addresses, true⟩ = .ok r ∧ (∀ a ∈ q.aliases, Text.Plain a)
    ∧ (∀ b ∈ r.blocks, ∀ s label, Table.derived s label ∈ b.tables → s.facts.sources.Clear)
    ∧ ∃ j, q.Joined ⟨addresses, true⟩ j ∧ ∀ b ∈ r.references, ∃ a ∈ j.references, a.spot.Alike b.spot
      ∧ (b.ident = a.ident ∨ ∃ s path f, b.Reads s path f ∧ ∀ d ps, s = .derived d ps →
        ∃ block ∈ r.blocks, s ∈ block.facts.sources.toList
          ∧ (∃ t, Table.derived t (some d) ∈ block.tables)
          ∧ ∀ t, Table.derived t (some d) ∈ block.tables → t.Delivers ps path f) := by
  have hchecked : ((Query.ofText addressesText).toOption.bind fun q =>
      (q.resolve ⟨addresses, true⟩).toOption.map fun r => decide (∀ a ∈ q.aliases, Text.Plain a)
        && r.blocks.all fun b => b.tables.all fun t =>
          t.selects.all fun s => !s.facts.sources.hasRaw) = some true := by
    rw [addressesText, ofText_ofList]
    decide +kernel
  obtain ⟨q, r, hq, hr, hcheck⟩ := exists_run hchecked
  obtain ⟨haliases, hraw⟩ := Bool.and_eq_true_iff.mp hcheck
  have hclear : ∀ b ∈ r.blocks, ∀ s label, Table.derived s label ∈ b.tables → s.facts.sources.Clear := by
    intro b hb s label hs
    have hinner := List.all_eq_true.mp (List.all_eq_true.mp hraw b hb) _ hs
    have hno := List.all_eq_true.mp hinner s s.self_mem_selects
    exact Sources.clear_of_hasRaw (by simpa using hno)
  exact ⟨q, r, hq, hr, of_decide_eq_true haliases, hclear,
    resolve_delivers (by decide +kernel) hq (of_decide_eq_true haliases) hr hclear⟩

end EntitySql
