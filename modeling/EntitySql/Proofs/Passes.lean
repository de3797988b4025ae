import Mathlib
import EntitySql.Proofs.Collector
import EntitySql.Proofs.Outcome
import EntitySql.Resolution

/-!
# Insertions, entities and fields

What is needed to follow a collector through the passes: lists with elements inserted (`Grown`), the
collectors that do not look at what passes note (`Collector.Steady`), the entities of a schema, and the
fields in place of a wildcard, which hold nothing to gather (`Results.collect_expansion`).
-/

namespace EntitySql

open Outcome

variable {α : Type}

/-! ## Insertions -/

/-- The second list is the first with elements inserted, all of which satisfy `K`. -/
inductive Grown (K : α → Prop) : List α → List α → Prop where
  | nil : Grown K [] []
  | keep (a : α) {xs ys : List α} : Grown K xs ys → Grown K (a :: xs) (a :: ys)
  | insert {a : α} {xs ys : List α} : K a → Grown K xs ys → Grown K xs (a :: ys)

namespace Grown

variable {K : α → Prop} {xs ys zs ws : List α}

theorem refl : ∀ xs : List α, Grown K xs xs
  | [] => .nil
  | a :: xs => .keep a (refl xs)

theorem of_eq (h : ys = xs) : Grown K xs ys := h ▸ refl ys

theorem append (h : Grown K xs ys) (g : Grown K zs ws) : Grown K (xs ++ zs) (ys ++ ws) := by
  induction h with
  | nil => exact g
  | keep a _ ih => exact .keep a ih
  | insert ha _ ih => exact .insert ha ih

theorem of_forall : ∀ {ys : List α}, (∀ a ∈ ys, K a) → Grown K [] ys
  | [], _ => .nil
  | _ :: _, h =>
    .insert (h _ List.mem_cons_self) (of_forall fun b hb => h b (List.mem_cons_of_mem _ hb))

theorem trans (h : Grown K xs ys) (g : Grown K ys zs) : Grown K xs zs := by
  induction g generalizing xs with
  | nil => exact h
  | keep a _ ih =>
    cases h with
    | keep _ h => exact .keep a (ih h)
    | insert ha h => exact .insert ha (ih h)
  | insert ha _ ih => exact .insert ha (ih h)

/-- What holds of the first list and of everything inserted holds of the second. -/
theorem forall_mem {P : α → Prop} (h : Grown K xs ys) (hK : ∀ a, K a → P a) (hxs : ∀ a ∈ xs, P a) :
    ∀ a ∈ ys, P a := by
  induction h with
  | nil => exact hxs
  | keep a _ ih =>
    obtain ⟨ha, hxs⟩ := List.forall_mem_cons.mp hxs
    exact List.forall_mem_cons.mpr ⟨ha, ih hxs⟩
  | insert ha _ ih => exact List.forall_mem_cons.mpr ⟨hK _ ha, ih hxs⟩

/-- Where nothing can be inserted, nothing is. -/
theorem eq_of_none (h : Grown K xs ys) (hK : ∀ a, ¬ K a) : ys = xs := by
  induction h with
  | nil => rfl
  | keep a _ ih => rw [ih]
  | insert ha _ _ => exact absurd ha (hK _)

end Grown

/-! ## Collectors that do not look at what passes note -/

/-- The collector sees nothing of the sources, labels and results of facts, as far as the entities of
the sources are among `A`, and gathers in the order of the text. -/
structure Collector.Steady (A : Entity → Bool) (k : Collector α) : Prop where
  source : ∀ {f s f'}, (∀ e, s.entity = some e → A e) → Facts.addSource f s = .ok f' →
    k.facts f' = k.facts f
  labels : ∀ f ls, k.facts { f with labels := ls } = k.facts f
  results : ∀ f rs, k.facts { f with results := rs } = k.facts f
  paging : ∀ l o, k.paging l o = l ++ o
  returned : ∀ l, k.returned l = l

/-! ## Entities of schemas -/

theorem Pairs.mem_of_find? {β : Type} {name : String} : ∀ {ps : List (String × β)} {b : β},
    Pairs.find? name ps = some b → (name, b) ∈ ps
  | (k, v) :: ps, b, h => by
    rw [find?] at h
    split at h
    · next hk =>
      cases h
      rw [hk]
      exact List.mem_cons_self
    · exact List.mem_cons_of_mem _ (mem_of_find? h)

/-- The filter of a relation that a registered entity declares is a filter of the schema. -/
theorem Schema.mem_filters {s : Schema} {e : Entity} {name text : String} {rel : Relation}
    (he : e ∈ s.entities) (hrel : e.relation? name = some rel) (htext : rel.filter = some text) :
    text ∈ s.filters := by
  exact List.mem_flatMap.mpr
    ⟨e, he, List.mem_filterMap.mpr ⟨(name, rel), Pairs.mem_of_find? hrel, htext⟩⟩

/-- Whether a schema has the entity. -/
def Schema.has (s : Schema) (e : Entity) : Bool := decide (e ∈ s.entities)

theorem Schema.mem_of_named? {s : Schema} {name : String} {e : Entity} (h : s.named? name = some e) :
    e ∈ s.entities := List.mem_of_find?_eq_some h

theorem Schema.mem_of_entity? {s : Schema} {name : String} {e : Entity} (h : s.entity? name = some e) :
    e ∈ s.entities := by
  unfold entity? at h
  split at h
  · next hn =>
    cases h
    exact mem_of_named? hn
  · split at h
    · exact mem_of_named? h
    · cases h

/-! ## Result columns -/

/-- A property among those given, or among the parts of one at any depth, with its path. -/
inductive Declared (ps : List (String × Property)) : String → Property → Prop
  | own {name p} : (name, p) ∈ ps → Declared ps name p
  | part {path q name p} : Declared ps path q → (name, p) ∈ q.parts → Declared ps (path ++ "." ++ name) p

/-- The source has a property, or a part of one, with that path. -/
def Source.Declares (s : Source) (path : String) (p : Property) : Prop :=
  ∃ ps, s.properties = some ps ∧ Declared ps path p

theorem Expr.eq_ident {i : Identifier} (e : Expr) (h : e.asIdentifier? = some i) : e = .ident i := by
  cases e <;> cases h
  rfl

namespace Results

variable {s : Source} {qualify : Bool} {ps : List (String × Property)}

mutual
theorem mem_leaves : ∀ (p : Property) {path : String} {x : ResultField}, Declared ps path p →
    x ∈ leaves s qualify path p → ∃ path' p', Declared ps path' p' ∧ x = leaf s qualify path' p'
  | ⟨_, _, _, []⟩, path, _, hp, hx => ⟨path, _, hp, List.mem_singleton.mp hx⟩
  | ⟨_, _, _, part :: parts⟩, _, _, hp, hx => mem_partLeaves (part :: parts) hp (fun _ h => h) hx
theorem mem_partLeaves : ∀ (parts : List (String × Property)) {path : String} {q : Property} {x : ResultField},
    Declared ps path q → (∀ np ∈ parts, np ∈ q.parts) → x ∈ partLeaves s qualify path parts →
    ∃ path' p', Declared ps path' p' ∧ x = leaf s qualify path' p'
  | [], _, _, _, _, _, hx => by cases hx
  | (name, p) :: parts, path, q, x, hq, hsub, hx => by
    obtain ⟨hp, hparts⟩ := List.forall_mem_cons.mp hsub
    rcases List.mem_append.mp hx with hx | hx
    · exact mem_leaves p (.part hq hp) hx
    · exact mem_partLeaves parts hq hparts hx
end

theorem mem_ofSource {x : ResultField} (hx : x ∈ ofSource qualify s) :
    ∃ path p, s.Declares path p ∧ x = leaf s qualify path p := by
  obtain ⟨⟨name, p⟩, hp, hx⟩ := List.mem_flatMap.mp hx
  cases hps : s.properties with
  | none => rw [hps] at hp; cases hp
  | some ps =>
    rw [hps] at hp
    obtain ⟨path, p', hdecl, rfl⟩ := mem_leaves p (.own hp) hx
    exact ⟨path, p', ⟨ps, hps, hdecl⟩, rfl⟩

/-- A wildcard is expanded to all fields of what it means, none of which is a raw table. -/
theorem expansion_eq_some {sources : Sources} {f : ResultField} {xs : List ResultField}
    (h : expansion sources f = .ok (some xs)) :
    ∃ i ss qualify, f.expr = .ident i ∧ i.isWildcard = true ∧ meant sources i = .ok (ss, qualify)
      ∧ ss.any Source.isRaw = false ∧ xs = ss.flatMap (ofSource qualify) := by
  unfold expansion at h
  split at h
  · cases h
  · next i hi =>
    split at h
    · next hw =>
      simp only [bind_eq_ok, pure_eq_ok] at h
      obtain ⟨⟨ss, qualify⟩, hmeant, h⟩ := h
      split at h
      · cases h
      · next hraw =>
        cases h
        exact ⟨i, ss, qualify, f.expr.eq_ident hi, hw, hmeant, Bool.eq_false_iff.mpr hraw, rfl⟩
    · cases h

/-- A field that is expanded is a name, and so are the fields in its place. -/
theorem names_of_expansion {sources : Sources} {f : ResultField} {xs : List ResultField}
    (h : expansion sources f = .ok (some xs)) :
    (∃ i, f.expr = .ident i) ∧ ∀ x ∈ xs, ∃ i, x.expr = .ident i := by
  obtain ⟨i, ss, qualify, hf, -, -, -, rfl⟩ := expansion_eq_some h
  refine ⟨⟨i, hf⟩, fun x hx => ?_⟩
  obtain ⟨s, -, hx⟩ := List.mem_flatMap.mp hx
  obtain ⟨path, p, -, rfl⟩ := mem_ofSource hx
  exact ⟨_, rfl⟩

theorem collect_expansion {k : Collector α} {sources : Sources} {f : ResultField} {fs : List ResultField}
    (h : expansion sources f = .ok (some fs)) : f.expr.collect k = [] ∧ collectFields k fs = [] := by
  obtain ⟨⟨i, hf⟩, hfs⟩ := names_of_expansion h
  refine ⟨by rw [hf]; rfl, ?_⟩
  rw [collectFields_eq, List.flatMap_eq_nil_iff]
  intro x hx
  obtain ⟨i, hi⟩ := hfs x hx
  rw [hi]
  rfl

end Results

end EntitySql
