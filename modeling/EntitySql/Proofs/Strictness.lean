import Mathlib
import EntitySql.Proofs.Blocks

/-!
# Strict naming

Where unknown tables are refused, the tables that a text names are entities. The other sources of a query
are its derived tables, and the links that joins along relations bring in. Of a link nothing is known but
its table, so it is as raw as an unknown table would have been: beside it, names that nothing declares are
let through, and wildcards stay.

* **`Query.resolve_settles`**: what names and wildcards can be left by strict naming.
-/

namespace EntitySql

open Outcome

/-! ## Known sources -/

/-- The link table of a relation that an entity declares. -/
inductive Source.IsLink (schema : Schema) : Source → Prop
  | mk {e rel table a b} (path : RelationPath) : e ∈ schema.entities →
    e.relation? path.relation = some rel → rel.link = .junction table a b →
    IsLink schema (.raw (some (path.source ++ "_" ++ path.relation)) table)

/-- The sources that strict naming admits. -/
inductive Source.Known (schema : Schema) : Source → Prop
  | entity {e} (label) : e ∈ schema.entities → Known schema (.mapped label e)
  | derived (label ps) : Known schema (.derived label ps)
  | link {s} : s.IsLink schema → Known schema s

theorem Source.Known.isLink {schema : Schema} {s : Source} (h : s.Known schema) (hraw : s.isRaw = true) :
    s.IsLink schema := by
  cases h with
  | entity | derived => cases hraw
  | link h => exact h

def Sources.Known (schema : Schema) (ss : Sources) : Prop := ∀ s ∈ ss.toList, s.Known schema

/-- All sources are known. -/
def Checks.known (schema : Schema) : Checks where
  sources ss := ss.Known schema

theorem Vocabulary.meets_known (schema : Schema) : Vocabulary.all.Meets (fun _ => True) (.known schema) where
  sources := List.forall_mem_nil _

theorem Naming.Maps.known {n : Naming} (hn : n.strict = true) {t : Table} {s : Source} (h : n.Maps t s) :
    s.Known n.schema := by
  cases h with
  | entity label he => exact .entity label he
  | raw _ _ hloose =>
    rw [hn] at hloose
    cases hloose

theorem Derived.Maps.known {schema : Schema} {t : Table} {s : Source} (h : Derived.Maps t s) :
    s.Known schema := by
  cases h
  exact .derived _ _

theorem Joins.Links.known {schema : Schema} {t : Table} {s : Source}
    (h : Joins.Links (fun e => decide (e ∈ schema.entities)) t s) : s.Known schema := by
  cases h with
  | mk path he hrel hlink => exact .link (.mk path (of_decide_eq_true he) hrel hlink)

/-- The sources of a strictly named query stay known through all passes. -/
theorem Query.stages_known {n : Naming} (hn : n.strict = true) :
    Query.Stages n (fun e => decide (e ∈ n.schema.entities)) (.known n.schema) (.known n.schema)
      (.known n.schema) (.known n.schema) (.known n.schema) (.known n.schema) where
  sources := {
    table := fun _ _ _ => ⟨trivial, fun _ _ => trivial⟩
    sources := fun hf _ hs => hf.forall_mem hs fun _ ⟨_, _, hmaps⟩ => hmaps.known hn }
  derived := {
    sources := fun hf _ hs => hf.gains.forall_mem hs fun _ ⟨_, _, hmaps⟩ => hmaps.known }
  joins := {
    complete := fun h ht _ => h.formed ht trivial trivial fun _ _ _ _ _ =>
      ⟨fun _ ⟨_, _, _, _⟩ => ⟨trivial, trivial, fun _ => trivial, nofun⟩, fun _ _ _ _ => ⟨trivial, trivial⟩⟩
    sources := fun hf _ hs => hf.forall_mem hs fun _ ⟨_, _, hlinks⟩ => hlinks.known }
  filters _ _ _ h _ := h.formed (Vocabulary.meets_known _) (fun _ _ _ => trivial)
    fun _ _ _ hx => ⟨Expr.shaped_of_ofDetached hx, fun _ _ => trivial⟩
  columns := {
    ident := fun _ _ _ => trivial
    target := fun _ _ _ => trivial
    sources := fun hf _ hs => (show _ = _ from hf) ▸ hs }
  results := {
    expand := fun _ ⟨_, _, _, hx⟩ => Results.formed_expansion (fun _ _ _ _ _ _ => trivial) hx
    sources := fun hf _ hs => (show _ = _ from hf) ▸ hs }
  parameters := {
    mark := fun _ _ => trivial
    sources := fun hf _ hs => (show _ = _ from hf) ▸ hs }

/-! ## Names -/

/-- What a name of a resolved query is that was made from the name `a`. -/
inductive Reference.Settles (schema : Schema) (a b : Reference) : Prop
  /-- A field that a source in sight declares, or a part of one. -/
  | field {s path f} : s ∈ a.spot.sources → s.Declares path f →
    b.ident.resolution = some ⟨f.ty, f.nullable, s.entity.map (·.name), some path⟩ →
    b.ident.value = f.column ∨ b.ident.value = s.qualifier ++ "." ++ f.column → Settles schema a b
  /-- A result alias where these may be named. -/
  | label : a.ident.qualifier? = none → a.ident.value ∈ a.spot.labels → b.ident = a.ident → Settles schema a b
  | wildcard : a.ident.isWildcard = true → b.ident = a.ident → Settles schema a b
  /-- A column of a link, with the alias of the link. -/
  | linked {q s} {rest : List String} : Text.segments a.ident.value = q :: rest → rest ≠ [] →
    Binds q a.spot.scopes s → s.IsLink schema → b.ident = a.ident → Settles schema a b
  /-- A name that no source declares, with a link in sight. -/
  | stray {first s} {rest : List String} : Text.segments a.ident.value = first :: rest →
    (rest = [] ∨ ∀ x, ¬ Binds first a.spot.scopes x) → (∀ x ∈ a.spot.sources, x.property? first = none) →
    s ∈ a.spot.sources → s.IsLink schema → b.ident = a.ident → Settles schema a b

section

variable {schema : Schema} {a : Reference} (hknown : ∀ s ∈ a.spot.sources, s.Known schema)

include hknown

theorem Denotes.settles {p : Spot} {i : Identifier} (h : Denotes a.spot a.ident i) :
    a.Settles schema ⟨p, i⟩ := by
  cases h with
  | qualified hbinds hdecl _ => exact .field (hbinds.mem _) hdecl rfl (.inr rfl)
  | bare hs hdecl _ => exact .field hs hdecl rfl (.inl rfl)
  | wildcard hw => exact .wildcard hw rfl
  | label hbare hlabel => exact .label hbare hlabel rfl
  | raw hseg hne hbinds hraw => exact .linked hseg hne hbinds ((hknown _ (hbinds.mem _)).isLink hraw) rfl
  | unknown hseg hunbound hundeclared hs hraw =>
    exact .stray hseg hunbound hundeclared hs ((hknown _ hs).isLink hraw) rfl

theorem Reference.Becomes.settles {bs : List Reference} (h : a.Becomes bs) :
    ∀ b ∈ bs, a.spot.Alike b.spot ∧ a.Settles schema b := by
  intro b hb
  cases h with
  | single hp hdenotes =>
    cases List.mem_singleton.mp hb
    exact ⟨hp, hdenotes.settles hknown⟩
  | several _ hexpands =>
    obtain ⟨-, v, around, hscopes, hall⟩ := hexpands
    obtain ⟨hp, s, hs, -, path, f, hdecl, hident⟩ := hall b hb
    have hmem : s ∈ a.spot.sources := by
      rw [Spot.sources, hscopes]
      exact List.mem_append_left _ hs
    refine ⟨hp, .field hmem hdecl (by rw [hident]) ?_⟩
    rw [hident]
    split
    · exact .inr rfl
    · exact .inl rfl

end

theorem Query.known_of_mem {schema : Schema} {q : Query} (h : ∀ b ∈ q.blocks, b.facts.sources.Known schema)
    {a : Reference} (ha : a ∈ q.references) : ∀ s ∈ a.spot.sources, s.Known schema := by
  intro s hs
  obtain ⟨v, hv, hs⟩ := List.mem_flatMap.mp hs
  obtain ⟨b, hb, heq⟩ := Query.sources_of_view ha hv
  exact h b hb s (heq ▸ hs)

/-! ## Wildcards -/

theorem Parameters.mem_fields {p : Spot} {i : Identifier} {label : Option String} {fs fs' : List ResultField}
    (h : FieldsEdited Parameters.edit p fs fs') (hmem : ⟨.ident i, label⟩ ∈ fs') : ⟨.ident i, label⟩ ∈ fs := by
  induction fs generalizing fs' with
  | nil =>
    cases h
    exact hmem
  | cons f fs ih =>
    cases h with
    | keep _ he hfs =>
      rcases List.mem_cons.mp hmem with heq | hmem
      · cases heq
        cases he with
        | ident hi =>
          cases hi
          exact List.mem_cons_self
      · exact List.mem_cons_of_mem _ (ih hfs hmem)
    | expand hx => exact hx.elim

/-- **What strict naming leaves.** All sources are known. Each name is a field of one in sight, a result
alias, a wildcard, or belongs to a link as far as can be told; and a select list keeps the wildcards that
cover a link, and no others. Without relations through links there are none of the latter. -/
theorem Query.resolve_settles {n : Naming} (hn : n.strict = true) {text : String} {q r : Query}
    (hq : Query.ofText text = .ok q) (hr : q.resolve n = .ok r) :
    (∀ b ∈ r.blocks, ∀ s ∈ b.facts.sources.toList, s.Known n.schema)
    ∧ (∃ j, q.Joined n j ∧ ∀ b ∈ r.references, ∃ a ∈ j.references, a.spot.Alike b.spot ∧ a.Settles n.schema b)
    ∧ ∀ b ∈ r.blocks, ∀ i label, ⟨.ident i, label⟩ ∈ b.fields → i.isWildcard = true → i.resolution = none →
      ∃ s ∈ b.facts.sources.toList, s.IsLink n.schema
        ∧ ∀ x, i.qualifier? = some x → b.facts.sources.byQualifier? x = some s := by
  have hshaped := Query.shaped_of_ofText hq
  have hread : q.Formed (.known n.schema) :=
    hshaped.formed (Vocabulary.meets_known _) (fun _ _ => trivial) fun _ _ => trivial
  have hstages := Query.stages_known hn
  have hA : ∀ e ∈ n.schema.entities, decide (e ∈ n.schema.entities) = true := fun _ => decide_eq_true
  have hfamiliar : q.collect (strangers fun e => decide (e ∈ n.schema.entities)) = [] :=
    (Query.collect_related collect_strangers q).trans hshaped.covers.facts.strangers
  have hfinal : ∀ b ∈ r.blocks, b.facts.sources.Known n.schema := fun b hb =>
    ((hstages.resolve_formed hA hfamiliar (by rw [hshaped.facts_eq]) hread hr).blocks b hb).sources
  obtain ⟨j, hj, k, hk, l, hl, hr⟩ := resolve_joined hr
  have hjoined : ∀ b ∈ j.blocks, b.facts.sources.Known n.schema := fun b hb =>
    ((hstages.joined_formed hA hfamiliar hread hj).blocks b hb).sources
  refine ⟨hfinal, ⟨j, hj, fun b hb => ?_⟩, fun b hb i label hmem hwild hnone => ?_⟩
  · obtain ⟨a, ha, bs, hbecomes, hb⟩ := (becomes_of_joined hshaped hj hk hl hr).exists_mem hb
    exact ⟨a, ha, hbecomes.settles (known_of_mem hjoined ha) b hb⟩
  · -- the wildcard stood there once results were mapped, and covers a raw table
    obtain ⟨b', hb', hedit⟩ | ⟨s, hs, -⟩ := (Parameters.edited hr).blocks Parameters.edit_inserts b hb
    · obtain ⟨v, around, -, hfields⟩ := hedit.fields
      obtain ⟨ss, qualify, hmeant, s, hs, hraw⟩ :=
        (Results.query_mapped hl b' hb').raw i label (Parameters.mem_fields hfields hmem) hwild hnone
      have hsources : b.facts.sources = b'.facts.sources := hedit.facts
      have hs' := Results.mem_of_meant hmeant s hs
      rw [← hsources] at hs'
      refine ⟨s, hs', (hfinal b hb s hs').isLink hraw, fun x hx => ?_⟩
      obtain ⟨x', s', hx', hs', rfl, -⟩ | ⟨hbare, -, -⟩ := Results.meant_eq_ok hmeant
      · cases hx.symm.trans hx'
        cases List.mem_singleton.mp hs
        rwa [hsources]
      · rw [hbare] at hx
        cases hx
    · exact hs.elim

/-- Books and their tags, which a table of its own links. -/
def library : Schema where
  entities :=
    [{ name := "Tag", table := "tags", properties := [("id", { column := "id", ty := .int })]
       identifier := ["id"] },
     { name := "Book", table := "books"
       properties := [("id", { column := "id", ty := .int }), ("title", { column := "title", ty := .string })]
       relations := [("tags", { target := "Tag", link := .junction "book_tags" "book_id" "tag_id" })]
       identifier := ["id"] }]

/-- All of the books with tags, and a field that is none. -/
def taggedText : String := "SELECT *, titel FROM Book b JOIN b.tags t"

/-- The link lets a wildcard stay, and a name that is misspelt. -/
theorem Query.unresolved_tagged :
    (Query.resolved? ⟨library, true⟩ taggedText).map (fun r => (r.selects.map (·.fields.length),
        (r.references.filter fun a => a.ident.resolution.isNone).map (·.ident.value)))
      = some ([2], ["*", "titel", "b_tags.book_id", "b_tags.tag_id"]) := by
  decide +kernel

theorem Query.resolve_settles_tagged : ∃ q r, Query.ofText taggedText = .ok q
    ∧ q.resolve ⟨library, true⟩ = .ok r
    ∧ (∀ b ∈ r.blocks, ∀ s ∈ b.facts.sources.toList, s.Known library)
    ∧ (∃ j, q.Joined ⟨library, true⟩ j
      ∧ ∀ b ∈ r.references, ∃ a ∈ j.references, a.spot.Alike b.spot ∧ a.Settles library b)
    ∧ ∀ b ∈ r.blocks, ∀ i label, ⟨.ident i, label⟩ ∈ b.fields → i.isWildcard = true → i.resolution = none →
      ∃ s ∈ b.facts.sources.toList, s.IsLink library
        ∧ ∀ x, i.qualifier? = some x → b.facts.sources.byQualifier? x = some s := by
  have hsome : (resolved? ⟨library, true⟩ taggedText).isSome = true := by decide +kernel
  obtain ⟨r, hresolved⟩ := Option.isSome_iff_exists.mp hsome
  obtain ⟨q, hq, hr⟩ := resolved?_eq_some hresolved
  exact ⟨q, r, hq, hr, resolve_settles rfl hq hr⟩

end EntitySql
