import Mathlib
import EntitySql.Proofs.Expansions
import EntitySql.Proofs.Segments

/-!
# Where names come from

The names that resolution brings into a query are columns of properties, and the qualifiers of visible
sources. This module says which: for a name that is looked up, and for the sources of a wildcard.

* `Lookup.find_eq_some`, `Lookup.find_eq_none`: what a reference can mean.
* `Results.meant_eq_ok`: which sources a wildcard means.
-/

namespace EntitySql

open Outcome

/-! ## Declared properties -/

theorem Source.declares_of_property? {s : Source} {name : String} {p : Property}
    (h : s.property? name = some p) : s.Declares name p := by
  unfold property? at h
  cases hps : s.properties with
  | none => rw [hps] at h; cases h
  | some ps =>
    rw [hps] at h
    exact ⟨ps, hps, .own (Pairs.mem_of_find? h)⟩

/-- The source that a qualifier means is one of the scopes'. -/
theorem mem_of_scopedSource? {scopes : List Facts} {q : String} {s : Source}
    (h : scopedSource? scopes q = some s) : ∃ f ∈ scopes, s ∈ f.sources.toList ∧ s.answersTo q = true := by
  obtain ⟨f, hf, hs⟩ := List.exists_of_findSome?_eq_some h
  rw [Sources.byQualifier?] at hs
  exact ⟨f, hf, List.mem_of_find?_eq_some hs, List.find?_some (p := fun s : Source => s.answersTo q) hs⟩

/-! ## Looking up references -/

namespace Lookup

variable {value name : String} {s : Source} {part : Option String} {scopes : List Facts} {m : FieldMatch}

theorem matchPart_eq_ok {qualified : Bool} {p : Property} (hp : s.Declares name p)
    (h : matchPart value s qualified name p part = .ok m) :
    m.source = s ∧ m.qualified = qualified ∧ s.Declares m.path m.property
      ∧ m.path = Text.join "." (name :: part.toList) := by
  cases part with
  | none =>
    cases h
    exact ⟨rfl, rfl, hp, rfl⟩
  | some part =>
    rw [matchPart] at h
    obtain ⟨ps, hps, hdecl⟩ := hp
    split at h
    · split at h
      · next q hq =>
        cases h
        exact ⟨rfl, rfl, ⟨ps, hps, .part hdecl (Pairs.mem_of_find? hq)⟩, rfl⟩
      · cases h
    · cases h

theorem qualified_eq_some (h : qualified value s name part = .ok (some m)) :
    m.source = s ∧ m.qualified = true ∧ s.Declares m.path m.property
      ∧ m.path = Text.join "." (name :: part.toList) := by
  unfold qualified at h
  split at h
  · cases h
  · split at h
    · next p hp =>
      cases hm : matchPart value s true name p part with
      | error e => rw [hm] at h; cases h
      | ok m' =>
        rw [hm] at h
        cases h
        exact matchPart_eq_ok (Source.declares_of_property? hp) hm
    · cases h

theorem qualified_eq_none (h : qualified value s name part = .ok none) : s.isRaw = true := by
  unfold qualified at h
  split at h
  · assumption
  · split at h
    · next p hp =>
      cases hm : matchPart value s true name p part <;> rw [hm] at h <;> cases h
    · cases h

theorem mem_declaring {ss : List Source} {p : Property} :
    (s, p) ∈ declaring name ss ↔ s ∈ ss ∧ s.property? name = some p := by
  simp only [declaring, List.mem_filterMap, Option.map_eq_some_iff, Prod.mk.injEq]
  constructor
  · rintro ⟨s', hs', p', hp', rfl, rfl⟩
    exact ⟨hs', hp'⟩
  · rintro ⟨hs, hp⟩
    exact ⟨s, hs, p, hp, rfl, rfl⟩

theorem unqualified_eq_some (h : unqualified value name part scopes = .ok (some m)) :
    m.source ∈ sources scopes ∧ m.qualified = false ∧ m.source.Declares m.path m.property
      ∧ m.path = Text.join "." (name :: part.toList) := by
  unfold unqualified at h
  split at h
  · next s p hdecl =>
    obtain ⟨hs, hp⟩ := mem_declaring.mp (hdecl ▸ List.mem_cons_self)
    cases hm : matchPart value s false name p part with
    | error e => rw [hm] at h; cases h
    | ok m' =>
      rw [hm] at h
      cases h
      obtain ⟨rfl, hq, hd, hpath⟩ := matchPart_eq_ok (Source.declares_of_property? hp) hm
      exact ⟨hs, hq, hd, hpath⟩
  · split at h
    · cases h
    · split at h <;> cases h
  · cases h

theorem unqualified_eq_none (h : unqualified value name part scopes = .ok none) :
    (∀ s ∈ sources scopes, s.property? name = none) ∧ ∃ s ∈ sources scopes, s.isRaw = true := by
  unfold unqualified at h
  split at h
  · next s p _ => cases hm : matchPart value s false name p part <;> rw [hm] at h <;> cases h
  · next hdecl =>
    split at h
    · next hraw =>
      refine ⟨fun s hs => ?_, ?_⟩
      · cases hp : s.property? name with
        | none => rfl
        | some p => exact absurd (mem_declaring.mpr ⟨hs, hp⟩) (hdecl ▸ List.not_mem_nil)
      · obtain ⟨f, hf, hany⟩ := List.any_eq_true.mp hraw
        obtain ⟨s, hs, hr⟩ := List.any_eq_true.mp hany
        exact ⟨s, List.mem_flatMap.mpr ⟨f, hf, hs⟩, hr⟩
    · split at h <;> cases h
  · cases h

/-- A field is found as it is written: under a qualifier of its source, or without one. -/
theorem find_eq_some (h : find value scopes = .ok (some m)) :
    m.source.Declares m.path m.property
      ∧ ((m.qualified = true ∧ ∃ q, value = q ++ "." ++ m.path ∧ scopedSource? scopes q = some m.source)
        ∨ (m.qualified = false ∧ value = m.path ∧ m.source ∈ sources scopes)) := by
  have hvalue := Text.join_segments value
  unfold find at h
  dsimp only at h
  split at h
  · cases h
  · split at h
    · next hseg =>
      obtain ⟨hs, hq, hd, hpath⟩ := unqualified_eq_some h
      exact ⟨hd, .inr ⟨hq, by rw [hpath, ← hvalue, hseg]; rfl, hs⟩⟩
    · next first second hseg =>
      split at h
      · next s hs =>
        obtain ⟨rfl, hq, hd, hpath⟩ := qualified_eq_some h
        exact ⟨hd, .inl ⟨hq, first, by rw [hpath, ← hvalue, hseg]; rfl, hs⟩⟩
      · obtain ⟨hs, hq, hd, hpath⟩ := unqualified_eq_some h
        exact ⟨hd, .inr ⟨hq, by rw [hpath, ← hvalue, hseg]; rfl, hs⟩⟩
    · next first second third hseg =>
      split at h
      · next s hs =>
        obtain ⟨rfl, hq, hd, hpath⟩ := qualified_eq_some h
        exact ⟨hd, .inl ⟨hq, first, by rw [hpath, ← hvalue, hseg]; rfl, hs⟩⟩
      · cases h
    · cases h

theorem mem_sources_of_find (h : find value scopes = .ok (some m)) : m.source ∈ sources scopes := by
  rcases (find_eq_some h).2 with ⟨-, q, -, hscoped⟩ | ⟨-, -, hmem⟩
  · obtain ⟨f, hf, hmem, -⟩ := mem_of_scopedSource? hscoped
    exact List.mem_flatMap.mpr ⟨f, hf, hmem⟩
  · exact hmem

/-- A reference is left open if its qualifier means a raw table, or if it could name a column of one. -/
theorem find_eq_none (h : find value scopes = .ok none) :
    ∃ first rest, Text.segments value = first :: rest
      ∧ ((rest ≠ [] ∧ ∃ s, scopedSource? scopes first = some s ∧ s.isRaw = true)
        ∨ ((rest = [] ∨ scopedSource? scopes first = none)
          ∧ (∀ s ∈ sources scopes, s.property? first = none) ∧ ∃ s ∈ sources scopes, s.isRaw = true)) := by
  unfold find at h
  dsimp only at h
  split at h
  · cases h
  · split at h
    · next first hseg => exact ⟨first, [], hseg, .inr ⟨.inl rfl, unqualified_eq_none h⟩⟩
    · next first second hseg =>
      split at h
      · next s hs =>
        exact ⟨first, [second], hseg, .inl ⟨List.cons_ne_nil _ _, s, hs, qualified_eq_none h⟩⟩
      · next hs => exact ⟨first, [second], hseg, .inr ⟨.inr hs, unqualified_eq_none h⟩⟩
    · next first second third hseg =>
      split at h
      · next s hs =>
        exact ⟨first, [second, third], hseg, .inl ⟨List.cons_ne_nil _ _, s, hs, qualified_eq_none h⟩⟩
      · cases h
    · cases h

end Lookup

/-! ## Expanding wildcards -/

namespace Results

variable {qualify : Bool}

/-- The sources that a wildcard means: the one of its qualifier, or all. -/
theorem meant_eq_ok {sources : Sources} {i : Identifier} {ss : List Source}
    (h : meant sources i = .ok (ss, qualify)) :
    (∃ q s, i.qualifier? = some q ∧ sources.byQualifier? q = some s ∧ ss = [s] ∧ qualify = true)
      ∨ (i.qualifier? = none ∧ ss = sources.toList ∧ qualify = decide (1 < sources.size)) := by
  unfold meant at h
  split at h
  · next q hq =>
    split at h
    · next s hs =>
      cases h
      exact .inl ⟨q, s, hq, hs, rfl, rfl⟩
    · cases h
  · next hq =>
    cases h
    exact .inr ⟨hq, rfl, rfl⟩

theorem mem_of_meant {sources : Sources} {i : Identifier} {ss : List Source}
    (h : meant sources i = .ok (ss, qualify)) : ∀ s ∈ ss, s ∈ sources.toList := by
  obtain ⟨q, s, -, hs, rfl, -⟩ | ⟨-, rfl, -⟩ := meant_eq_ok h
  · intro s' hs'
    cases List.mem_singleton.mp hs'
    exact List.mem_of_find?_eq_some hs
  · exact fun _ hs => hs

end Results

end EntitySql
