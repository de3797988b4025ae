import Mathlib
import EntitySql.Proofs.Blocks

/-!
# The columns that a derived table declares

A derived table declares a property for each of its fields, before their names are resolved. A wildcard
copies the properties of sources, any other field declares one of its own, with its alias for a column.
As long as the columns of entities are plain (without dots, and no `*`) and so are the aliases, the columns
of derived tables are.

* `Derived.origin_of_mem`: where the properties of a derived table come from.
* `Derived.tidy_properties`: they are as tidy as the sources they come from.
* `Lookup.find_beside`: links that join the sources later leave the meaning of names alone.
-/

namespace EntitySql

open Outcome

/-! ## Declared properties -/

namespace Declared

variable {ps qs : List (String × Property)} {path sub : String} {p f : Property}

/-- What is declared belongs to one of the properties. -/
theorem exists_own (h : Declared ps path f) : ∃ x ∈ ps, Declared [x] path f := by
  induction h with
  | own hmem => exact ⟨_, hmem, .own (List.mem_singleton_self _)⟩
  | part _ hpart ih =>
    obtain ⟨x, hx, hdecl⟩ := ih
    exact ⟨x, hx, .part hdecl hpart⟩

theorem mono (h : Declared ps path f) (hsub : ps ⊆ qs) : Declared qs path f := by
  induction h with
  | own hmem => exact .own (hsub hmem)
  | part _ hpart ih => exact .part ih hpart

/-- The parts of what is declared are. -/
theorem trans (h : Declared ps path p) (hsub : Declared p.parts sub f) :
    Declared ps (path ++ "." ++ sub) f := by
  induction hsub with
  | own hmem => exact .part h hmem
  | part _ hpart ih =>
    have hpath : ∀ a b : String, path ++ "." ++ (a ++ "." ++ b) = path ++ "." ++ a ++ "." ++ b := by
      intro a b
      simp only [String.append_assoc]
    rw [hpath]
    exact .part ih hpart

/-- A single property declares itself, and its parts. -/
theorem singleton {name : String} (h : Declared [(name, p)] path f) :
    (path = name ∧ f = p) ∨ ∃ sub, path = name ++ "." ++ sub ∧ Declared p.parts sub f := by
  induction h with
  | own hmem =>
    cases List.mem_singleton.mp hmem
    exact .inl ⟨rfl, rfl⟩
  | @part path q sub f _ hpart ih =>
    rcases ih with ⟨rfl, rfl⟩ | ⟨rest, rfl, hdecl⟩
    · exact .inr ⟨sub, rfl, .own hpart⟩
    · refine .inr ⟨rest ++ "." ++ sub, ?_, .part hdecl hpart⟩
      simp only [String.append_assoc]

end Declared

mutual
/-- The columns of a property and of its parts. -/
def Property.columns : Property → List String
  | ⟨column, _, _, parts⟩ => column :: partColumns parts
def partColumns : List (String × Property) → List String
  | [] => []
  | (_, p) :: ps => p.columns ++ partColumns ps
end

theorem Property.column_mem_columns (p : Property) : p.column ∈ p.columns := by
  cases p
  rw [Property.columns]
  exact List.mem_cons_self

theorem columns_subset_of_mem {x : String × Property} : ∀ {ps : List (String × Property)}, x ∈ ps →
    x.2.columns ⊆ partColumns ps
  | (_, _) :: _, h => by
    rw [partColumns]
    rcases List.mem_cons.mp h with rfl | h
    · exact List.subset_append_left _ _
    · exact List.subset_append_of_subset_right _ (columns_subset_of_mem h)

theorem Declared.columns_subset {ps : List (String × Property)} {path : String} {p : Property}
    (h : Declared ps path p) : p.columns ⊆ partColumns ps := by
  induction h with
  | own hmem => exact columns_subset_of_mem hmem
  | @part _ q _ _ _ hpart ih =>
    refine List.Subset.trans (columns_subset_of_mem hpart) (List.Subset.trans ?_ ih)
    cases q
    rw [Property.columns]
    exact List.subset_cons_self _ _

/-- A property at a path whose column is plain. It has no parts, if those are not admitted. -/
structure Property.Tidy (embedded : Bool) (path : String) (p : Property) : Prop where
  plain : Text.Plain p.column
  star : p.column = "*" → path = "*"
  flat : embedded = false → p.parts = []

/-- All properties and their parts are tidy. -/
def PropertiesTidy (embedded : Bool) (ps : List (String × Property)) : Prop :=
  ∀ path p, Declared ps path p → p.Tidy embedded path

def Source.Tidy (embedded : Bool) (s : Source) : Prop := ∀ path p, s.Declares path p → p.Tidy embedded path

theorem PropertiesTidy.of_forall {embedded : Bool} {ps : List (String × Property)}
    (h : ∀ x ∈ ps, PropertiesTidy embedded [x]) : PropertiesTidy embedded ps := by
  intro path p hdecl
  obtain ⟨x, hx, hdecl⟩ := hdecl.exists_own
  exact h x hx path p hdecl

/-! ## The properties of a derived table -/

theorem Pairs.mem_insert {α : Type} {key : String} {value : α} {x : String × α} :
    ∀ {m : List (String × α)}, x ∈ insert key value m → x = (key, value) ∨ x ∈ m
  | [], h => .inl (List.mem_singleton.mp h)
  | (k, v) :: rest, h => by
    rw [insert] at h
    split at h
    · next hk =>
      rcases List.mem_cons.mp h with rfl | h
      · exact .inl (by rw [hk])
      · exact .inr (List.mem_cons_of_mem _ h)
    · rcases List.mem_cons.mp h with rfl | h
      · exact .inr List.mem_cons_self
      · exact (Pairs.mem_insert h).imp_right (List.mem_cons_of_mem _)

namespace Derived

/-- Where a property of a derived table comes from. -/
inductive Origin (facts : Facts) (fs : List ResultField) (x : String × Property) : Prop
  /-- A wildcard copies it from a source it means. -/
  | copied {i label s ps} : ⟨.ident i, label⟩ ∈ fs → i.isWildcard = true → s ∈ facts.sources.toList →
    (∀ q, i.qualifier? = some q → facts.sources.byQualifier? q = some s) → s.properties = some ps →
    x ∈ ps → Origin facts fs x
  /-- A field declares it. -/
  | read {f} : f ∈ fs → f.isWildcard = false → property f facts = .ok x → Origin facts fs x

theorem Origin.mono {facts : Facts} {fs gs : List ResultField} {x : String × Property}
    (h : Origin facts fs x) (hsub : fs ⊆ gs) : Origin facts gs x := by
  cases h with
  | copied hmem hwild hs hq hps hx => exact .copied (hsub hmem) hwild hs hq hps hx
  | read hmem hwild hprop => exact .read (hsub hmem) hwild hprop

theorem mem_insertAll {x : String × Property} {ps acc : List (String × Property)}
    (h : x ∈ ps.foldl (fun acc p => Pairs.insert p.1 p.2 acc) acc) : x ∈ ps ∨ x ∈ acc := by
  induction ps generalizing acc with
  | nil => exact .inr h
  | cons p ps ih =>
    rcases ih h with h | h
    · exact .inl (List.mem_cons_of_mem _ h)
    · rcases Pairs.mem_insert h with rfl | h
      · exact .inl List.mem_cons_self
      · exact .inr h

theorem mem_copyAll {x : String × Property} {ss : List Source} {acc : List (String × Property)}
    (h : x ∈ ss.foldl (fun acc s => match s.properties with
      | some ps => ps.foldl (fun acc p => Pairs.insert p.1 p.2 acc) acc
      | none => acc) acc) :
    (∃ s ∈ ss, ∃ ps, s.properties = some ps ∧ x ∈ ps) ∨ x ∈ acc := by
  induction ss generalizing acc with
  | nil => exact .inr h
  | cons s ss ih =>
    rw [List.foldl_cons] at h
    rcases ih h with ⟨s', hs', ps, hps, hx⟩ | h
    · exact .inl ⟨s', List.mem_cons_of_mem _ hs', ps, hps, hx⟩
    · cases hps : s.properties with
      | none =>
        rw [hps] at h
        exact .inr h
      | some ps =>
        rw [hps] at h
        exact (mem_insertAll h).imp_left fun hx => ⟨s, List.mem_cons_self, ps, hps, hx⟩

theorem mem_wildcard {i : Identifier} {sources : Sources} {acc ps : List (String × Property)}
    (h : wildcard i sources acc = .ok ps) {x : String × Property} (hx : x ∈ ps) :
    (∃ s ∈ sources.toList, (∀ q, i.qualifier? = some q → sources.byQualifier? q = some s)
      ∧ ∃ qs, s.properties = some qs ∧ x ∈ qs) ∨ x ∈ acc := by
  unfold wildcard at h
  cases hq : i.qualifier? with
  | none =>
    rw [hq] at h
    cases h
    exact (mem_copyAll hx).imp_left fun ⟨s, hs, hps⟩ => ⟨s, hs, nofun, hps⟩
  | some q =>
    rw [hq] at h
    cases hs : sources.byQualifier? q with
    | none =>
      simp only [hs] at h
      cases h
    | some s =>
      simp only [hs] at h
      cases h
      refine (mem_copyAll hx).imp_left fun ⟨s', hs', hps⟩ => ?_
      cases List.mem_singleton.mp hs'
      refine ⟨s, List.mem_of_find?_eq_some hs, ?_, hps⟩
      rintro _ ⟨⟩
      exact hs

theorem origin_of_mem_propertiesFrom {facts : Facts} : ∀ {fs : List ResultField}
    {acc ps : List (String × Property)}, propertiesFrom facts acc fs = .ok ps →
    ∀ x ∈ ps, x ∈ acc ∨ Origin facts fs x
  | [], _, _, h, x, hx => by
    cases h
    exact .inl hx
  | ⟨e, label⟩ :: fs, acc, ps, h, x, hx => by
    -- a field that is no wildcard adds the property it declares
    have hadds : ∀ r, property ⟨e, label⟩ facts = .ok r → ResultField.isWildcard ⟨e, label⟩ = false →
        propertiesFrom facts (Pairs.insert r.1 r.2 acc) fs = .ok ps →
        x ∈ acc ∨ Origin facts (⟨e, label⟩ :: fs) x := by
      intro r hr hwild hrest
      rcases origin_of_mem_propertiesFrom hrest x hx with hx | hx
      · rcases Pairs.mem_insert hx with rfl | hx
        · exact .inr (.read List.mem_cons_self hwild hr)
        · exact .inl hx
      · exact .inr (hx.mono (List.subset_cons_self _ _))
    rw [propertiesFrom] at h
    split at h
    · next i hi =>
      split at h
      · next hwild =>
        obtain ⟨acc', hacc, hrest⟩ := bind_eq_ok.mp h
        rcases origin_of_mem_propertiesFrom hrest x hx with hx | hx
        · refine (mem_wildcard hacc hx).symm.imp_right fun ⟨s, hs, hq, qs, hqs, hx⟩ => ?_
          obtain rfl := e.eq_ident hi
          exact .copied List.mem_cons_self hwild hs hq hqs hx
        · exact .inr (hx.mono (List.subset_cons_self _ _))
      · next hwild =>
        obtain ⟨r, hr, hrest⟩ := bind_eq_ok.mp h
        refine hadds r hr ?_ hrest
        rw [ResultField.isWildcard, hi]
        exact Bool.eq_false_iff.mpr hwild
    · next hi =>
      obtain ⟨r, hr, hrest⟩ := bind_eq_ok.mp h
      refine hadds r hr ?_ hrest
      rw [ResultField.isWildcard, hi]

/-- **Each property of a derived table** is copied by a wildcard, or declared by a field. -/
theorem origin_of_mem {s : Select} {ps : List (String × Property)} (h : properties s = .ok ps) :
    ∀ x ∈ ps, Origin s.facts s.fields x := by
  intro x hx
  exact (origin_of_mem_propertiesFrom h x hx).resolve_left List.not_mem_nil

/-- What a field declares: an alias is both the name and the column. A name without one keeps the column of
what it means; where that is open, it is a column itself. -/
theorem property_eq_ok {f : ResultField} {facts : Facts} {x : String × Property}
    (h : property f facts = .ok x) :
    (∃ i found, f.expr = .ident i ∧ Lookup.find i.value [facts] = .ok found ∧ x.1 = f.label.getD i.name
      ∧ (∀ m, found = some m → x.2 = { m.property with column := f.label.getD m.property.column })
      ∧ (found = none → x.2.column = f.label.getD i.name ∧ x.2.parts = []))
    ∨ (f.expr.asIdentifier? = none ∧ ∃ label, f.label = some label ∧ x.1 = label ∧ x.2.column = label
      ∧ x.2.parts = []) := by
  obtain ⟨e, label⟩ := f
  unfold property at h
  split at h
  · next i hi =>
    obtain ⟨found, hfound, h⟩ := bind_eq_ok.mp h
    refine .inl ⟨i, found, e.eq_ident hi, hfound, ?_⟩
    cases found with
    | some m =>
      cases h
      refine ⟨rfl, ?_, nofun⟩
      rintro _ ⟨⟩
      rfl
    | none =>
      cases h
      exact ⟨rfl, nofun, fun _ => ⟨rfl, rfl⟩⟩
  · next label' hi hlabel =>
    cases h
    exact .inr ⟨hi, label', hlabel, rfl, rfl, rfl⟩
  · cases h

/-! ### Tidy columns -/

variable {embedded : Bool}

/-- A property without parts is tidy if its column is. -/
theorem tidy_leaf {name : String} {p : Property} (hparts : p.parts = []) (hplain : Text.Plain p.column)
    (hstar : p.column = "*" → name = "*") : PropertiesTidy embedded [(name, p)] := by
  intro path f hdecl
  rcases hdecl.singleton with ⟨rfl, rfl⟩ | ⟨sub, -, hsub⟩
  · exact ⟨hplain, hstar, fun _ => hparts⟩
  · rw [hparts] at hsub
    obtain ⟨x, hx, -⟩ := hsub.exists_own
    cases hx

theorem ne_star_of_append {a b c : String} (h : c = a ++ "." ++ b) : c ≠ "*" := by
  intro hc
  have hmem : '.' ∈ c.toList := by simp [h]
  rw [hc] at hmem
  exact absurd hmem (by decide)

/-- What a name without wildcard means has a column that is plain, and not `*`. -/
theorem column_of_find {value : String} {facts : Facts} {m : FieldMatch}
    (hs : ∀ s ∈ facts.sources.toList, s.Tidy embedded) (h : Lookup.find value [facts] = .ok (some m))
    (hwild : Identifier.isWildcard { value } = false) :
    m.source ∈ facts.sources.toList ∧ Text.Plain m.property.column ∧ m.property.column ≠ "*" := by
  obtain ⟨hdecl, hcases⟩ := Lookup.find_eq_some h
  have hmem : m.source ∈ facts.sources.toList := by
    simpa [Lookup.sources] using Lookup.mem_sources_of_find h
  have htidy := hs _ hmem _ _ hdecl
  refine ⟨hmem, htidy.plain, fun hstar => ?_⟩
  have hpath := htidy.star hstar
  rw [hpath] at hcases
  have htrue : Identifier.isWildcard { value } = true := by
    rcases hcases with ⟨-, q, hvalue, -⟩ | ⟨-, hvalue, -⟩
    · exact Identifier.isWildcard_append hvalue
    · exact Identifier.isWildcard_star hvalue
  rw [hwild] at htrue
  cases htrue

theorem tidy_property {f : ResultField} {facts : Facts} {x : String × Property}
    (hs : ∀ s ∈ facts.sources.toList, s.Tidy embedded) (hlabel : ∀ a, f.label = some a → Text.Plain a)
    (hwild : f.isWildcard = false) (h : property f facts = .ok x) : PropertiesTidy embedded [x] := by
  obtain ⟨name, p⟩ := x
  rcases property_eq_ok h with ⟨i, found, he, hfind, hname, hsome, hnone⟩ | ⟨-, a, ha, hname, hcolumn, hparts⟩
  · have hi : i.isWildcard = false := by rwa [ResultField.isWildcard, he] at hwild
    dsimp only at hname hsome hnone
    cases found with
    | none =>
      obtain ⟨hcolumn, hparts⟩ := hnone rfl
      refine tidy_leaf hparts ?_ fun hstar => by rw [hname, ← hcolumn, hstar]
      rw [hcolumn]
      cases hl : f.label with
      | some a => exact hlabel a hl
      | none => exact Text.plain_lastSegment _
    | some m =>
      have hp := hsome m rfl
      obtain ⟨hmem, hplain, hstar⟩ := column_of_find hs hfind hi
      have hdecl := (Lookup.find_eq_some hfind).1
      intro path g hg
      rcases hg.singleton with ⟨rfl, rfl⟩ | ⟨sub, -, hsub⟩
      · refine ⟨?_, fun hcolumn => ?_, fun hflat => ?_⟩
        · rw [hp]
          cases hl : f.label with
          | some a => exact hlabel a hl
          | none => exact hplain
        · rw [hp] at hcolumn
          rw [hname]
          cases hl : f.label with
          | some a => rwa [hl] at hcolumn
          | none =>
            rw [hl] at hcolumn
            exact absurd hcolumn hstar
        · rw [hp]
          exact (hs _ hmem _ _ hdecl).flat hflat
      · -- the parts are those of what the name means
        rw [hp] at hsub
        obtain ⟨ps, hps, hdecl⟩ := hdecl
        have htidy := hs _ hmem _ _ ⟨ps, hps, hdecl.trans hsub⟩
        exact ⟨htidy.plain, fun hcolumn => absurd (htidy.star hcolumn) (ne_star_of_append rfl), htidy.flat⟩
  · dsimp only at hname hcolumn hparts
    exact tidy_leaf hparts (hcolumn ▸ hlabel a ha) fun hstar => by rw [hname, ← hcolumn, hstar]

/-- **The columns of a derived table are as tidy** as those of its sources. -/
theorem tidy_properties {s : Select} {ps : List (String × Property)}
    (hs : ∀ x ∈ s.facts.sources.toList, x.Tidy embedded)
    (hlabels : ∀ f ∈ s.fields, ∀ a, f.label = some a → Text.Plain a) (h : properties s = .ok ps) :
    PropertiesTidy embedded ps := by
  refine .of_forall fun x hx => ?_
  cases origin_of_mem h x hx with
  | copied _ _ hmem _ hps hx =>
    intro path p hdecl
    exact hs _ hmem path p ⟨_, hps, hdecl.mono (List.cons_subset.mpr ⟨hx, List.nil_subset _⟩)⟩
  | read hmem hwild hprop => exact tidy_property hs (hlabels _ hmem) hwild hprop

end Derived

/-! ## Names beside links -/

namespace Lookup

section

variable {f g : Facts} {new : List (Option String × Source)}
  (hnew : g.sources.entries = f.sources.entries ++ new) (hraw : ∀ x ∈ new, x.2.isRaw = true)

include hnew

theorem scopedSource?_beside {q : String} {s : Source} (h : scopedSource? [f] q = some s) :
    scopedSource? [g] q = some s := by
  simp only [scopedSource?, List.findSome?_cons, List.findSome?_nil, Sources.byQualifier?, Sources.toList,
    hnew, List.map_append, List.find?_append] at h ⊢
  cases hq : (f.sources.entries.map (·.2)).find? (fun s => s.answersTo q) with
  | none => rw [hq] at h; cases h
  | some s' =>
    rw [hq] at h
    cases h
    rfl

/-- A qualifier that only later means a source means a new one. -/
theorem mem_of_scopedSource?_beside {q : String} {s : Source} (hnone : scopedSource? [f] q = none)
    (h : scopedSource? [g] q = some s) : ∃ x ∈ new, x.2 = s ∧ s.answersTo q = true := by
  obtain ⟨g', hg', hmem, hanswers⟩ := mem_of_scopedSource? h
  cases List.mem_singleton.mp hg'
  rw [Sources.toList, hnew, List.map_append, List.mem_append] at hmem
  rcases hmem with hmem | hmem
  · -- it would have meant the old source before
    simp only [scopedSource?, List.findSome?_cons, List.findSome?_nil, Sources.byQualifier?] at hnone
    cases hq : f.sources.toList.find? (fun s => s.answersTo q) with
    | some s' => rw [hq] at hnone; cases hnone
    | none => exact absurd hanswers (List.find?_eq_none.mp hq s hmem)
  · obtain ⟨x, hx, rfl⟩ := List.mem_map.mp hmem
    exact ⟨x, hx, rfl, hanswers⟩

include hraw

theorem declaring_beside (name : String) : declaring name (sources [g]) = declaring name (sources [f]) := by
  have hnone : (new.map (·.2)).filterMap (fun s => (s.property? name).map fun p => (s, p)) = [] := by
    refine List.filterMap_eq_nil_iff.mpr fun s hs => ?_
    obtain ⟨x, hx, rfl⟩ := List.mem_map.mp hs
    have hprops : x.2.properties = none := Option.isNone_iff_eq_none.mp (hraw x hx)
    rw [Source.property?, hprops]
    rfl
  simp only [declaring, sources, List.flatMap_cons, List.flatMap_nil, List.append_nil, Sources.toList, hnew,
    List.map_append, List.filterMap_append, hnone]

theorem unqualified_beside {value name : String} {part : Option String} {r : Option FieldMatch}
    (h : unqualified value name part [f] = .ok r) : unqualified value name part [g] = .ok r := by
  unfold unqualified at h ⊢
  rw [declaring_beside hnew hraw]
  split at h
  · exact h
  · split at h
    · next hany =>
      have hany' : [g].any (fun f => f.sources.hasRaw) = true := by
        simp only [List.any_cons, List.any_nil, Bool.or_false, Sources.hasRaw, Sources.toList, hnew,
          List.map_append, List.any_append] at hany ⊢
        rw [hany, Bool.true_or]
      rw [if_pos hany']
      exact h
    · split at h <;> cases h
  · cases h

/-- **Names keep their meaning** when raw tables join the sources, unless one of these has the name of a
property with parts. -/
theorem find_beside {value : String} {r : Option FieldMatch}
    (hclear : ∀ x ∈ new, ∀ name, x.2.answersTo name = true → ∀ s ∈ f.sources.toList, ∀ p,
      s.property? name = some p → p.parts = [])
    (h : find value [f] = .ok r) : find value [g] = .ok r := by
  unfold find at h ⊢
  dsimp only at h ⊢
  split at h
  · cases h
  · next hsegments =>
    rw [if_neg hsegments]
    split at h
    · exact unqualified_beside hnew hraw h
    · next first second _ =>
      split at h
      · next s hs =>
        rw [scopedSource?_beside hnew hs]
        exact h
      · next hs =>
        cases hg : scopedSource? [g] first with
        | none => exact unqualified_beside hnew hraw h
        | some s =>
          obtain ⟨x, hx, rfl, hanswers⟩ := mem_of_scopedSource?_beside hnew hs hg
          show qualified value x.2 second none = .ok r
          rw [qualified, if_pos (hraw x hx)]
          cases r with
          | none => rfl
          | some m =>
            -- the name would have been a part of a property before
            unfold unqualified at h
            split at h
            · next s p hdecl =>
              obtain ⟨hmem, hp⟩ := mem_declaring.mp (hdecl ▸ List.mem_cons_self)
              have hmem' : s ∈ f.sources.toList := by simpa [sources] using hmem
              have hparts := hclear x hx first hanswers s hmem' p hp
              rw [matchPart, Property.isEmbedded, hparts] at h
              cases h
            · split at h
              · cases h
              · split at h <;> cases h
            · cases h
    · split at h
      · next s hs =>
        rw [scopedSource?_beside hnew hs]
        exact h
      · cases h
    · cases h

end

end Lookup

/-! ## Through the first two passes -/

/-- Names are fresh, aliases plain, and the sources tidy, each under its own key. -/
def Checks.tidy (embedded : Bool) : Checks where
  ident i := i.resolution = none
  label a := Text.Plain a
  sources ss := ss.Keyed ∧ ∀ s ∈ ss.toList, s.Tidy embedded

/-- The aliases in a query, as it is read. -/
def Query.aliases (q : Query) : List String :=
  q.parts.filterMap fun
    | .label a => some a
    | _ => none

theorem Query.mem_aliases {q : Query} {a : String} (h : .label a ∈ q.parts) : a ∈ q.aliases :=
  List.mem_filterMap.mpr ⟨_, h, rfl⟩

theorem Vocabulary.meets_tidy (embedded : Bool) :
    Vocabulary.all.Meets (fun x => ∀ a, x = .label a → Text.Plain a) (.tidy embedded) where
  ident _ := rfl
  label _ h := h _ rfl
  sources := ⟨.nil, List.forall_mem_nil _⟩

/-- The columns of entities are plain, and none is `*`. -/
def Schema.PlainColumns (schema : Schema) : Prop :=
  ∀ e ∈ schema.entities, ∀ c ∈ partColumns e.properties, Text.Plain c ∧ c ≠ "*"

instance (schema : Schema) : Decidable schema.PlainColumns :=
  inferInstanceAs (Decidable (∀ e ∈ schema.entities, ∀ c ∈ partColumns e.properties, Text.Plain c ∧ c ≠ "*"))

/-- No entity embeds properties. -/
def Schema.Flat (schema : Schema) : Prop := ∀ e ∈ schema.entities, ∀ x ∈ e.properties, x.2.parts = []

instance (schema : Schema) : Decidable schema.Flat :=
  inferInstanceAs (Decidable (∀ e ∈ schema.entities, ∀ x ∈ e.properties, x.2.parts = []))

section

variable {embedded : Bool} {n : Naming}

theorem Schema.Flat.parts_eq {schema : Schema} (h : schema.Flat) {e : Entity} (he : e ∈ schema.entities)
    {path : String} {p : Property} (hdecl : Declared e.properties path p) : p.parts = [] := by
  induction hdecl with
  | own hmem => exact h e he _ hmem
  | part _ hpart ih =>
    rw [ih] at hpart
    cases hpart

theorem Naming.Maps.tidy (hcolumns : n.schema.PlainColumns) (hflat : embedded = false → n.schema.Flat)
    {t : Table} {s : Source} (h : n.Maps t s) : s.Tidy embedded := by
  cases h with
  | entity label he =>
    rintro path p ⟨ps, hps, hdecl⟩
    cases hps
    obtain ⟨hplain, hstar⟩ := hcolumns _ he _ (hdecl.columns_subset p.column_mem_columns)
    exact ⟨hplain, fun h => absurd h hstar, fun hf => (hflat hf).parts_eq he hdecl⟩
  | raw =>
    rintro path p ⟨ps, hps, -⟩
    cases hps

theorem Naming.carries_tidy (hcolumns : n.schema.PlainColumns) (hflat : embedded = false → n.schema.Flat) :
    n.edit.Carries (.tidy embedded) (.tidy embedded) where
  table {joined name label name' label'} h _ hlabel := by
    refine ⟨trivial, fun a ha => ?_⟩
    cases h with
    | entity _ _ | raw _ => exact hlabel a ha
    | path hpath _ =>
      cases hl : label with
      | some l =>
        rw [hl] at ha
        cases ha
        exact hlabel _ hl
      | none =>
        rw [hl] at ha
        cases ha
        exact (RelationPath.ofName?_eq_some hpath).2
  sources hf _ hs :=
    ⟨hf.keyed hs.1, hf.forall_mem hs.2 fun _ ⟨_, _, hmaps⟩ => hmaps.tidy hcolumns hflat⟩

theorem Select.Formed.labels {c : Checks} {s : Select} (h : s.Formed c) :
    ∀ f ∈ s.fields, ∀ a, f.label = some a → c.label a := by
  cases s
  obtain ⟨hfields, -⟩ := h
  exact fun f hf => (fieldsFormed_iff.mp hfields f hf).2

theorem Select.Formed.fresh_fields {s : Select} (h : s.Formed (.tidy embedded)) {i : Identifier}
    {label : Option String} (hf : ⟨.ident i, label⟩ ∈ s.fields) : i.resolution = none := by
  cases s
  obtain ⟨hfields, -⟩ := h
  exact (fieldsFormed_iff.mp hfields _ hf).1

theorem Derived.carries_tidy : Derived.edit.Carries (.tidy embedded) (.tidy embedded) where
  sources hf hts hs := by
    refine ⟨hf.gains.keyed hs.1, hf.gains.forall_mem hs.2 ?_⟩
    rintro _ ⟨t, ht, hmaps⟩
    cases hmaps with
    | mk label hprops =>
      obtain ⟨joined, hformed, -⟩ := hts _ ht
      rintro path p ⟨ps, hps, hdecl⟩
      cases hps
      exact tidy_properties hformed.block.sources.2 hformed.labels hprops path p hdecl

end

end EntitySql
