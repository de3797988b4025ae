import Mathlib
import EntitySql.Proofs.References

/-!
# Select lists

A select is read with at least one field, and only wildcards are ever replaced, by the fields of the
sources they mean. A wildcard over a raw table stays, since its columns are unknown. Those of a derived
table are taken to be known, although it may select from raw tables by wildcards itself: it then counts as
a table without columns, and so does an outermost select without tables.

* **`Compiler.fields_eq_nil`**: the select lists that resolution leaves empty.
-/

namespace EntitySql

open Outcome

/-- The fields of all selects of a well-formed query pass its checks. -/
theorem Query.Formed.selects {c : Checks} {q : Query} (h : q.Formed c) :
    ∀ s ∈ q.selects, c.fields s.facts.sources s.fields := by
  intro s hs
  have hformed := h.covers.selects s hs
  cases s
  obtain ⟨-, -, -, -, -, -, -, -, -, -, -, hfields⟩ := hformed
  exact hfields

/-! ## Expansions without fields -/

/-- A list of fields becomes empty only where one of them is replaced by nothing. -/
theorem FieldsEdited.expand_nil {d : Edit} {p : Spot} {fs fs' : List ResultField}
    (h : FieldsEdited d p fs fs') (hnil : fs' = []) (hne : fs ≠ []) : ∃ f ∈ fs, d.expand p f [] := by
  cases h with
  | nil => exact absurd rfl hne
  | keep => cases hnil
  | expand hx hfs =>
    obtain ⟨rfl, -⟩ := List.append_eq_nil_iff.mp hnil
    exact ⟨_, List.mem_cons_self, hx⟩

namespace Results

variable {s : Source} {qualify : Bool}

mutual
theorem leaves_ne_nil : ∀ (p : Property) (path : String), leaves s qualify path p ≠ []
  | ⟨_, _, _, []⟩, _ => List.cons_ne_nil _ _
  | ⟨_, _, _, part :: parts⟩, path => partLeaves_ne_nil (part :: parts) path (List.cons_ne_nil _ _)
theorem partLeaves_ne_nil : ∀ (ps : List (String × Property)) (path : String), ps ≠ [] →
    partLeaves s qualify path ps ≠ []
  | [], _, hne => absurd rfl hne
  | (_, p) :: _, _, _ => fun h => leaves_ne_nil p _ (List.append_eq_nil_iff.mp h).1
end

theorem ofSource_eq_nil (h : ofSource qualify s = []) : s.properties.getD [] = [] := by
  cases hps : s.properties.getD [] with
  | nil => rfl
  | cons np ps =>
    rw [ofSource, hps, List.flatMap_cons] at h
    exact absurd (List.append_eq_nil_iff.mp h).1 (leaves_ne_nil np.2 np.1)

end Results

/-! ## What the lists hold -/

/-- A derived table none of whose columns is known. -/
def Source.IsBare (s : Source) : Prop := s.entity = none ∧ s.properties = some []

/-- Sources of entities with properties have these properties. -/
def Sources.Mapped (ss : Sources) : Prop :=
  ∀ s ∈ ss.toList, ∀ e, s.entity = some e → e.properties ≠ [] ∧ s.properties = some e.properties

/-- What is asked of the selects before wildcards are expanded. -/
def Checks.listed : Checks where
  sources := Sources.Mapped
  fields _ fs := fs ≠ []

/-- What is asked of the selects once wildcards are expanded. -/
def Checks.expanded : Checks where
  sources := Sources.Mapped
  fields ss fs := fs = [] → ss.toList = [] ∨ ∃ s ∈ ss.toList, s.IsBare

theorem Vocabulary.meets_listed : Vocabulary.all.Meets (fun _ => True) .listed where
  sources := List.forall_mem_nil _
  fields h := h

theorem FieldsEdited.ne_nil {d : Edit} {p : Spot} (hd : ∀ f, ¬ d.expand p f []) {fs fs' : List ResultField}
    (h : FieldsEdited d p fs fs') (hne : fs ≠ []) : fs' ≠ [] := by
  intro hnil
  obtain ⟨f, -, hf⟩ := h.expand_nil hnil hne
  exact hd f hf

/-- An expansion to nothing means sources without known columns, or none at all. -/
theorem Results.bare_of_expansion {ss : Sources} (hss : ss.Mapped) {f : ResultField}
    (h : expansion ss f = .ok (some [])) : ss.toList = [] ∨ ∃ s ∈ ss.toList, s.IsBare := by
  obtain ⟨i, means, qualify, -, -, hmeant, hraw, hnil⟩ := expansion_eq_some h
  have hbare : ∀ s ∈ means, s.IsBare := by
    intro s hs
    have hps := ofSource_eq_nil (List.flatMap_eq_nil_iff.mp hnil.symm s hs)
    have hknown : s.isRaw = false := by simpa using List.any_eq_false.mp hraw s hs
    cases hsp : s.properties with
    | none => rw [Source.isRaw, hsp] at hknown; cases hknown
    | some ps =>
      rw [hsp] at hps
      refine ⟨?_, hsp.trans (congrArg some hps)⟩
      cases he : s.entity with
      | none => rfl
      | some e =>
        obtain ⟨hne, heq⟩ := hss s (mem_of_meant hmeant s hs) e he
        rw [hsp, Option.some.injEq] at heq
        exact absurd (heq.symm.trans hps) hne
  obtain ⟨q, s, -, hs, rfl, -⟩ | ⟨-, rfl, -⟩ := meant_eq_ok hmeant
  · exact .inr ⟨s, List.mem_of_find?_eq_some hs, hbare s List.mem_cons_self⟩
  · cases hl : ss.toList with
    | nil => exact .inl rfl
    | cons s _ => exact .inr ⟨s, List.mem_cons_self, hbare s (hl ▸ List.mem_cons_self)⟩

section

variable {n : Naming} (hn : ∀ e ∈ n.schema.entities, e.properties ≠ [])

include hn

theorem Query.stages_expanded :
    Query.Stages n (fun _ => true) .listed .listed .listed .listed .expanded .expanded where
  sources := {
    table := fun _ _ _ => ⟨trivial, fun _ _ => trivial⟩
    sources := fun hf _ hs => hf.forall_mem hs fun s ⟨_, _, hmaps⟩ => by
      cases hmaps with
      | entity label he =>
        rintro _ ⟨⟩
        exact ⟨hn _ he, rfl⟩
      | raw => nofun
    fields := fun _ _ hfs _ hne => hfs.ne_nil (fun _ => id) hne }
  derived := {
    sources := fun hf _ hs => hf.gains.forall_mem hs fun s ⟨_, _, hmaps⟩ => by
      cases hmaps
      nofun
    fields := fun _ _ hfs _ hne => hfs.ne_nil (fun _ => id) hne }
  joins := {
    complete := fun h ht _ => h.formed ht trivial trivial fun _ _ _ _ _ =>
      ⟨fun _ ⟨_, _, _, _⟩ => ⟨trivial, trivial, fun _ => trivial, nofun⟩, fun _ _ _ _ => ⟨trivial, trivial⟩⟩
    sources := fun hf _ hs => hf.forall_mem hs fun s ⟨_, _, hlinks⟩ => by
      cases hlinks
      nofun
    fields := fun _ _ hfs _ hne => hfs.ne_nil (fun _ => id) hne }
  filters _ _ _ h _ := h.formed Vocabulary.meets_listed (fun _ _ _ => trivial)
    fun _ _ _ hx => ⟨Expr.shaped_of_ofDetached hx, fun _ _ => trivial⟩
  columns := {
    ident := fun _ _ _ => trivial
    target := fun _ _ _ => trivial
    sources := fun hf _ hs => (show _ = _ from hf) ▸ hs
    fields := fun _ _ hfs _ hne => hfs.ne_nil (fun _ => id) hne }
  results := {
    expand := fun _ ⟨_, _, _, hx⟩ => Results.formed_expansion (fun _ _ _ _ _ _ => trivial) hx
    sources := fun hf _ hs => (show _ = _ from hf) ▸ hs
    fields := by
      rintro s visible ts f f' fs fs' hf hs hfs hmapped hne rfl
      obtain ⟨field, -, s', around, hscopes, hx⟩ := hfs.expand_nil rfl hne
      cases hscopes
      rw [show f'.sources = f.sources from hf, ← hs]
      exact Results.bare_of_expansion (hs ▸ hmapped) hx }
  parameters := {
    mark := fun _ _ => trivial
    sources := fun hf _ hs => (show _ = _ from hf) ▸ hs
    fields := by
      rintro s visible ts f f' fs fs' hf hs hfs - hlisted rfl
      rw [show f'.sources = f.sources from hf]
      refine hlisted (by_contra fun hne => ?_)
      exact hfs.ne_nil (fun _ => id) hne rfl }

end

/-- **The select lists that resolution leaves empty**: those of selects without tables, or from a derived
table none of whose columns is known. All entities are taken to have properties. -/
theorem Compiler.fields_eq_nil {c : Compiler} (hc : ∀ e ∈ c.schema.entities, e.properties ≠ [])
    {text : String} {q r : Query} (hq : Query.ofText text = .ok q) (hr : q.resolve c.naming = .ok r) :
    ∀ s ∈ r.selects, s.fields = [] →
      s.facts.sources.toList = [] ∨ ∃ x ∈ s.facts.sources.toList, x.entity = none ∧ x.properties = some [] := by
  have hshaped := Query.shaped_of_ofText hq
  have hfinal := (Query.stages_expanded (n := c.naming) hc).resolve_formed (fun _ _ => rfl) (strangers_none q)
    (by rw [hshaped.facts_eq])
    (hshaped.formed Vocabulary.meets_listed (fun _ _ => trivial) fun _ _ => trivial) hr
  exact hfinal.selects

namespace Compiler

/-- All that is logged, through a derived table. -/
def auditText : String := "SELECT * FROM (SELECT * FROM audit_log) d"

/-- The columns of a raw table are lost behind a derived one, and nothing is selected from it. -/
theorem sql_audit :
    (Query.resolved? ⟨staff, false⟩ auditText).map (fun r => r.selects.map (·.fields.length)) = some [0, 1]
      ∧ (compileText ⟨staff, .generic, {}⟩ auditText).map (·.sql)
        = .ok "SELECT  FROM (SELECT * FROM \"audit_log\") \"d\"" := by
  decide +kernel

theorem fields_eq_nil_audit : ∃ q r, Query.ofText auditText = .ok q
    ∧ q.resolve (naming ⟨staff, .generic, {}⟩) = .ok r ∧ (∃ s ∈ r.selects, s.fields = [])
    ∧ ∀ s ∈ r.selects, s.fields = [] →
      s.facts.sources.toList = [] ∨ ∃ x ∈ s.facts.sources.toList, x.entity = none ∧ x.properties = some [] := by
  have hlengths : (Query.resolved? ⟨staff, false⟩ auditText).map (fun r => r.selects.map (·.fields.length))
      = some [0, 1] := by decide +kernel
  obtain ⟨r, hresolved, hlengths⟩ := Option.map_eq_some_iff.mp hlengths
  obtain ⟨q, hq, hr⟩ := Query.resolved?_eq_some hresolved
  obtain ⟨s, hs, hnil⟩ := List.mem_map.mp (hlengths ▸ List.mem_cons_self : 0 ∈ r.selects.map (·.fields.length))
  exact ⟨q, r, hq, hr, ⟨s, hs, List.length_eq_zero_iff.mp hnil⟩,
    fields_eq_nil (c := ⟨staff, .generic, {}⟩) (by decide) hq hr⟩

end Compiler

end EntitySql
