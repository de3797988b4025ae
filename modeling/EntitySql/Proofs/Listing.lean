import Mathlib
import EntitySql.Compiler
import EntitySql.Proofs.DerivedTables
import EntitySql.Proofs.Isolation

/-!
# Wildcards written out

A wildcard `a.*` over an entity and the list of all its properties `a.p` are resolved in different passes:
names become columns in the fourth, and the wildcard is expanded in the fifth. Both lead to the same fields.
Until then the passes treat two queries that differ in these fields alike, so that they also fail alike.

* `Agree`: two outcomes fail for the same cause, or give related results.
* `Select.Swapped`: two selects have the same clauses but for some of the fields.
* `Columns.fields_listing`: the listed names become the leaves of the entity.
* `Results.select_listed`: these are what the wildcard is expanded to.
* **`Compiler.compile_listing`**: the two queries are compiled to the same, or fail alike.
* `Compiler.unlisted_table`: not so where the qualifier is a table's name with a dot in it.
-/

namespace EntitySql

open Outcome

/-! ## Outcomes that agree -/

/-- Both outcomes are failures for the same cause, or give what is related by `R`. -/
inductive Agree {ε α β : Type} (R : α → β → Prop) : Except ε α → Except ε β → Prop where
  | error (e : ε) : Agree R (.error e) (.error e)
  | ok {a : α} {b : β} : R a b → Agree R (.ok a) (.ok b)

namespace Agree

variable {ε α β γ δ : Type} {R : α → β → Prop} {S : γ → δ → Prop}

theorem bind {x : Except ε α} {y : Except ε β} {f : α → Except ε γ} {g : β → Except ε δ} (h : Agree R x y)
    (hfg : ∀ a b, x = .ok a → R a b → Agree S (f a) (g b)) : Agree S (x >>= f) (y >>= g) := by
  cases h with
  | error e => exact .error e
  | ok hR => exact hfg _ _ rfl hR

/-- A step that both have in common. -/
theorem same (x : Except ε α) {f : α → Except ε γ} {g : α → Except ε δ} (hfg : ∀ a, Agree S (f a) (g a)) :
    Agree S (x >>= f) (x >>= g) := by
  cases x with
  | error e => exact .error e
  | ok a => exact hfg a

theorem map {x : Except ε α} {y : Except ε β} {f : α → γ} {g : β → δ} (h : Agree R x y)
    (hfg : ∀ a b, R a b → S (f a) (g b)) : Agree S (f <$> x) (g <$> y) := by
  cases h with
  | error e => exact .error e
  | ok hR => exact .ok (hfg _ _ hR)

theorem lift {x : Except QueryError α} {y : Except QueryError β} (h : Agree R x y) :
    Agree R (QueryError.lift x) (QueryError.lift y) := by
  cases h with
  | error e => exact .error _
  | ok hR => exact .ok hR

theorem exists_of_eq_ok {x : Except ε α} {y : Except ε β} {a : α} (h : Agree R x y) (hx : x = .ok a) :
    ∃ b, y = .ok b ∧ R a b := by
  subst hx
  cases h with
  | ok hR => exact ⟨_, rfl, hR⟩

theorem refl (x : Except ε α) : Agree (· = ·) x x := by
  cases x with
  | error e => exact .error e
  | ok a => exact .ok rfl

theorem eq {x y : Except ε α} (h : Agree (· = ·) x y) : x = y := by
  cases h with
  | error e => rfl
  | ok heq => rw [heq]

end Agree

/-! ## Fields in the place of others -/

/-- The second select has the fields `Y` where the first has the fields `X`, and is the same otherwise. -/
def Select.Swapped (X Y : List ResultField) (s t : Select) : Prop :=
  ∃ before after, s.fields = before ++ X ++ after ∧ t = { s with fields := before ++ Y ++ after }

def Query.Swapped (X Y : List ResultField) (q r : Query) : Prop :=
  ∃ s t, q = .select s ∧ r = .select t ∧ s.Swapped X Y t

theorem Query.Swapped.select {X Y : List ResultField} {q r : Query} (h : q.Swapped X Y r) :
    ∃ s, q = .select s := by
  obtain ⟨s, t, hq, -⟩ := h
  exact ⟨s, hq⟩

/-- The fields are names without aliases. -/
def Bare (fs : List ResultField) : Prop := ∀ f ∈ fs, ∃ i, f = ⟨.ident i, none⟩

namespace Sweep

variable {w : Sweep} {p : Place}

theorem fields_append (xs ys : List ResultField) :
    w.fields p (xs ++ ys) = (do return (← w.fields p xs) ++ (← w.fields p ys)) := by
  induction xs with
  | nil => simp [fields]
  | cons x xs ih =>
    obtain ⟨e, label⟩ := x
    simp [fields, ih]

theorem fields_flatMap {α : Type} {f g : α → List ResultField} : ∀ {xs : List α},
    (∀ x ∈ xs, w.fields p (f x) = .ok (g x)) → w.fields p (xs.flatMap f) = .ok (xs.flatMap g)
  | [], _ => rfl
  | x :: xs, h => by
    obtain ⟨hx, hxs⟩ := List.forall_mem_cons.mp h
    rw [List.flatMap_cons, fields_append, hx, fields_flatMap hxs, List.flatMap_cons]
    rfl

theorem fields_bare (hw : ∀ p i, w.ident p i = .ok i) : ∀ {X : List ResultField}, Bare X → w.fields p X = .ok X
  | [], _ => rfl
  | x :: X, h => by
    obtain ⟨⟨i, rfl⟩, hX⟩ := List.forall_mem_cons.mp h
    rw [fields, expr, hw, fields_bare hw hX]
    rfl

/-- A sweep that takes `X` to `X'` and `Y` to `Y'` treats selects alike that differ in these fields. -/
theorem agree_select {X Y X' Y' : List ResultField} {s t : Select} (h : s.Swapped X Y t)
    (hopening : w.opening t.fields s.facts = w.opening s.fields s.facts)
    (hX : w.fields ⟨[w.opening s.fields s.facts], false⟩ X = .ok X')
    (hY : w.fields ⟨[w.opening s.fields s.facts], false⟩ Y = .ok Y') :
    Agree (Select.Swapped X' Y') (w.select [] s) (w.select [] t) := by
  obtain ⟨_, fs, source, js, c, gs, hv, os, l, o, us, f⟩ := s
  obtain ⟨before, after, rfl, rfl⟩ := h
  change w.fields _ X = pure X' at hX
  change w.fields _ Y = pure Y' at hY
  dsimp only at hopening hX hY
  rw [select, select, hopening]
  simp only [fields_append, hX, hY, bind_assoc, pure_bind]
  refine .same _ fun before' => .same _ fun after' => .same _ ?_
  rintro ⟨source', f₁⟩
  refine .same _ ?_
  rintro ⟨js', f₂⟩
  refine .same _ fun c' => .same _ fun gs' => .same _ fun hv' => .same _ fun os' => .same _ fun l' =>
    .same _ fun o' => .same _ fun us' => .ok ?_
  exact ⟨before', after', rfl, rfl⟩

end Sweep

namespace Joins

variable {schema : Schema} {filter : List Facts → Expr → Except CompileError Expr} {scopes : List Facts}

theorem fields_append (xs ys : List ResultField) : fields schema filter scopes (xs ++ ys)
    = (do return (← fields schema filter scopes xs) ++ (← fields schema filter scopes ys)) := by
  induction xs with
  | nil => simp [fields]
  | cons x xs ih =>
    obtain ⟨e, label⟩ := x
    simp [fields, ih]

theorem fields_bare : ∀ {X : List ResultField}, Bare X → fields schema filter scopes X = pure X
  | [], _ => rfl
  | x :: X, h => by
    obtain ⟨⟨i, rfl⟩, hX⟩ := List.forall_mem_cons.mp h
    rw [fields, expr, fields_bare hX]
    rfl

theorem agree_select {X Y : List ResultField} (hX : Bare X) (hY : Bare Y) {s t : Select} (h : s.Swapped X Y t) :
    Agree (Select.Swapped X Y) (select schema filter [] false s) (select schema filter [] false t) := by
  obtain ⟨_, fs, source, js, c, gs, hv, os, l, o, us, f⟩ := s
  obtain ⟨before, after, rfl, rfl⟩ := h
  rw [select, select]
  simp only [fields_append, fields_bare hX, fields_bare hY, bind_assoc, pure_bind]
  refine .same _ ?_
  rintro ⟨cs, f'⟩
  refine .same _ fun before' => .same _ fun after' => .same _ fun source' => .same _ fun js' =>
    .same _ fun c' => .same _ fun gs' => .same _ fun hv' => .same _ fun os' => .same _ fun l' =>
    .same _ fun o' => .same _ fun us' => .ok ?_
  exact ⟨before', after', rfl, rfl⟩

end Joins

/-! ## Listed properties -/

/-- A word: a name of one segment that is neither empty nor `*`. -/
def Text.Word (s : String) : Prop := Single s ∧ s ≠ ""

instance : DecidablePred Text.Word := fun s => inferInstanceAs (Decidable (Text.Single s ∧ s ≠ ""))

/-- The column does not read like a wildcard. -/
def Property.Starless (p : Property) : Prop := Text.lastSegment p.column ≠ "*"

instance : DecidablePred Property.Starless :=
  fun p => inferInstanceAs (Decidable (Text.lastSegment p.column ≠ "*"))

/-- Properties under words, each of which is used once. -/
structure Worded (ps : List (String × Property)) : Prop where
  distinct : (Pairs.keys ps).Nodup
  words : ∀ name ∈ Pairs.keys ps, Text.Word name

instance (ps : List (String × Property)) : Decidable (Worded ps) :=
  decidable_of_iff ((Pairs.keys ps).Nodup ∧ ∀ name ∈ Pairs.keys ps, Text.Word name)
    ⟨fun h => ⟨h.1, h.2⟩, fun h => ⟨h.distinct, h.words⟩⟩

/-- An entity whose properties can be listed by name: names are words, parts have no parts, and no column
of a leaf reads like a wildcard. -/
structure Entity.Listable (e : Entity) : Prop where
  properties : Worded e.properties
  parts : ∀ np ∈ e.properties, Worded np.2.parts
  flat : ∀ np ∈ e.properties, ∀ part ∈ np.2.parts, part.2.parts = [] ∧ part.2.Starless
  leaves : ∀ np ∈ e.properties, np.2.parts = [] → np.2.Starless

/-- A name as a field without an alias. -/
def ResultField.bare (name : String) : ResultField := ⟨.name name, none⟩

/-- The fields that name a property at a path: its parts where it has some, else itself. -/
def Property.listing (path : String) (p : Property) : List ResultField :=
  match p.parts with
  | [] => [.bare path]
  | part :: parts => (part :: parts).map fun np => .bare (path ++ "." ++ np.1)

/-- The fields that name all properties of an entity behind a qualifier, in order of declaration. -/
def Entity.listing (e : Entity) (a : String) : List ResultField :=
  e.properties.flatMap fun np => np.2.listing (a ++ "." ++ np.1)

theorem Pairs.find?_of_mem {α : Type} {name : String} {v : α} : ∀ {m : List (String × α)}, (keys m).Nodup →
    (name, v) ∈ m → find? name m = some v
  | (k, w) :: m, hdistinct, h => by
    rw [keys, List.map_cons, List.nodup_cons] at hdistinct
    rcases List.mem_cons.mp h with heq | h
    · cases heq
      exact if_pos rfl
    · have hne : k ≠ name := by
        rintro rfl
        exact hdistinct.1 (List.mem_map.mpr ⟨_, h, rfl⟩)
      rw [find?, if_neg hne, find?_of_mem hdistinct.2 h]

section

variable {f : Facts} {a : String} {label : Option String} {e : Entity}
  (ha : Text.Plain a ∧ a ≠ "") (hs : f.sources.byQualifier? a = some (.mapped label e))

include ha hs

theorem Lookup.find_listed {name : String} {p : Property} (hname : Text.Word name)
    (hp : Pairs.find? name e.properties = some p) :
    Lookup.find (a ++ "." ++ name) [f] = .ok (some ⟨.mapped label e, true, name, p⟩) := by
  have hsegments : Text.segments (a ++ "." ++ name) = [a, name] := by
    rw [Text.segments_append, Text.segments_plain ha.1, Text.segments_plain hname.1.1]
    rfl
  have hscoped : scopedSource? [f] a = some (.mapped label e) := by simp [scopedSource?, hs]
  have hfull : [a, name].any String.isEmpty = false := by simp [ha.2, hname.2]
  have hproperty : (Source.mapped label e).property? name = some p := hp
  simp only [find, hsegments, hfull, hscoped, qualified, hproperty]
  rfl

theorem Lookup.find_listed_part {name part : String} {p q : Property} (hname : Text.Word name)
    (hpart : Text.Word part) (hp : Pairs.find? name e.properties = some p)
    (hq : Pairs.find? part p.parts = some q) : Lookup.find (a ++ "." ++ name ++ "." ++ part) [f]
      = .ok (some ⟨.mapped label e, true, name ++ "." ++ part, q⟩) := by
  have hsegments : Text.segments (a ++ "." ++ name ++ "." ++ part) = [a, name, part] := by
    rw [Text.segments_append, Text.segments_append, Text.segments_plain ha.1, Text.segments_plain hname.1.1,
      Text.segments_plain hpart.1.1]
    rfl
  have hscoped : scopedSource? [f] a = some (.mapped label e) := by simp [scopedSource?, hs]
  have hfull : [a, name, part].any String.isEmpty = false := by simp [ha.2, hname.2, hpart.2]
  have hproperty : (Source.mapped label e).property? name = some p := hp
  have hembedded : p.isEmbedded = true := by
    cases hparts : p.parts with
    | nil =>
      rw [hparts] at hq
      cases hq
    | cons => simp [Property.isEmbedded, hparts]
  simp only [find, hsegments, hfull, hscoped, qualified, hproperty, matchPart, hembedded, hq]
  rfl

end

namespace Columns

/-- A name that is found becomes the field of what it means. -/
theorem fields_found {f : Facts} {value : String} {m : FieldMatch} (hstar : Text.lastSegment value ≠ "*")
    (hfind : Lookup.find value [f] = .ok (some m)) : Columns.sweep.fields ⟨[f], false⟩ [.bare value]
      = .ok [Results.leaf m.source m.qualified m.path m.property] := by
  have hwildcard : Identifier.isWildcard { value } = false := Identifier.not_isWildcard_of_name hstar
  have hlabel : isLabel ⟨[f], false⟩ { value } = false := by simp [isLabel]
  have hresolve : resolve ⟨[f], false⟩ { value } = .ok ⟨m.column, some m.resolution⟩ := by
    rw [resolve, hwildcard, hlabel]
    simp only [Identifier.isResolved, hfind]
    rfl
  rw [ResultField.bare, Sweep.fields, Expr.name, Sweep.expr]
  simp only [sweep, hresolve]
  rfl

theorem partLeaves_eq {s : Source} {qualify : Bool} {path : String} : ∀ {ps : List (String × Property)},
    (∀ np ∈ ps, np.2.parts = []) →
    Results.partLeaves s qualify path ps = ps.flatMap fun np => [Results.leaf s qualify (path ++ "." ++ np.1) np.2]
  | [], _ => rfl
  | (name, ⟨column, ty, nullable, parts⟩) :: ps, h => by
    obtain ⟨hp, hps⟩ := List.forall_mem_cons.mp h
    cases hp
    rw [Results.partLeaves, partLeaves_eq hps, List.flatMap_cons, Results.leaves]

/-- **Listed names become the leaves of the entity.** -/
theorem fields_listing {f : Facts} {a : String} {label : Option String} {e : Entity}
    (ha : Text.Plain a ∧ a ≠ "") (hs : f.sources.byQualifier? a = some (.mapped label e)) (he : e.Listable) :
    Columns.sweep.fields ⟨[f], false⟩ (e.listing a) = .ok (Results.ofSource true (.mapped label e)) := by
  refine Sweep.fields_flatMap fun np hnp => ?_
  obtain ⟨name, column, ty, nullable, parts⟩ := np
  have hword : Text.Word name := he.properties.words name (List.mem_map.mpr ⟨_, hnp, rfl⟩)
  have hfind := Pairs.find?_of_mem he.properties.distinct hnp
  cases parts with
  | nil =>
    refine fields_found ?_ (Lookup.find_listed ha hs hword hfind)
    rw [Text.lastSegment_append hword.1.1]
    exact hword.1.2
  | cons part parts =>
    have hparts := he.parts _ hnp
    have hflat := he.flat _ hnp
    have hlisting : Property.listing (a ++ "." ++ name) ⟨column, ty, nullable, part :: parts⟩
        = (part :: parts).flatMap fun np => [.bare (a ++ "." ++ name ++ "." ++ np.1)] := List.map_eq_flatMap
    dsimp only at hparts hflat ⊢
    rw [Results.leaves, partLeaves_eq fun np hnp => (hflat np hnp).1, hlisting]
    refine Sweep.fields_flatMap fun np hnp => ?_
    have hword' : Text.Word np.1 := hparts.words np.1 (List.mem_map_of_mem hnp)
    refine fields_found ?_ (Lookup.find_listed_part ha hs hword hword' hfind (Pairs.find?_of_mem hparts.distinct hnp))
    rw [Text.lastSegment_append hword'.1.1]
    exact hword'.1.2

end Columns

/-! ## Expanded wildcards -/

namespace Results

/-- The fields that read a listable entity are names, none of which reads like a wildcard. -/
theorem bare_ofSource {e : Entity} (he : e.Listable) (label : Option String) :
    ∀ x ∈ ofSource true (.mapped label e), ∃ i, x = ⟨.ident i, none⟩ ∧ i.isWildcard = false := by
  intro x hx
  obtain ⟨⟨name, column, ty, nullable, parts⟩, hnp, hx⟩ := List.mem_flatMap.mp hx
  have hleaf : ∀ path (p : Property), p.Starless →
      ∃ i, leaf (.mapped label e) true path p = ⟨.ident i, none⟩ ∧ i.isWildcard = false := by
    intro path p hp
    refine ⟨_, rfl, Identifier.not_isWildcard_of_name ?_⟩
    rw [Identifier.name, if_pos rfl, Text.lastSegment_qualified]
    exact hp
  cases parts with
  | nil =>
    cases List.mem_singleton.mp hx
    exact hleaf _ _ (he.leaves (name, ⟨column, ty, nullable, []⟩) hnp rfl)
  | cons part parts =>
    have hflat := he.flat _ hnp
    dsimp only at hx hflat
    rw [leaves, Columns.partLeaves_eq fun np hnp => (hflat np hnp).1] at hx
    obtain ⟨np, hmem, hx⟩ := List.mem_flatMap.mp hx
    cases List.mem_singleton.mp hx
    exact hleaf _ _ (hflat np hmem).2

theorem expansions_append (ss : Sources) (fs gs : List ResultField) :
    expansions ss (fs ++ gs) = (do return (← expansions ss fs) ++ (← expansions ss gs)) := by
  induction fs with
  | nil => simp [expansions]
  | cons f fs ih => simp [expansions, ih]

theorem length_expansions {ss : Sources} {fs : List ResultField} {xs : List (Option (List ResultField))}
    (h : expansions ss fs = .ok xs) : xs.length = fs.length := (expansions_eq_ok h).length_eq.symm

theorem fields_append {visible : List Facts} : ∀ {fs : List ResultField} {xs : List (Option (List ResultField))},
    xs.length = fs.length → ∀ (f : Facts) (gs : List ResultField) (ys : List (Option (List ResultField))),
    fields visible f (fs ++ gs) (xs ++ ys) = (do
      let (fs, f) ← fields visible f fs xs
      let (gs, f) ← fields visible f gs ys
      return (fs ++ gs, f))
  | [], [], _, f, gs, ys => by simp [fields]
  | ⟨e, label⟩ :: fs, some expanded :: xs, h, f, gs, ys => by
    simp only [List.cons_append, fields, bind_assoc, pure_bind, fields_append (Nat.succ.inj h), List.append_assoc]
  | ⟨e, label⟩ :: fs, none :: xs, h, f, gs, ys => by
    simp only [List.cons_append, fields, bind_assoc, pure_bind, fields_append (Nat.succ.inj h), List.tail_cons]

/-- Names that are no wildcards are registered one after the other. -/
theorem fields_bare {visible : List Facts} : ∀ {L : List ResultField},
    (∀ x ∈ L, ∃ i, x = ⟨.ident i, none⟩ ∧ i.isWildcard = false) → ∀ f : Facts,
    fields visible f L (L.map fun _ => none) = (do return (L, ← registerAll visible f L))
  | [], _, f => rfl
  | x :: L, h, f => by
    obtain ⟨⟨i, rfl, -⟩, hL⟩ := List.forall_mem_cons.mp h
    simp only [List.map_cons, fields, expr, pure_bind, List.tail_cons, fields_bare hL, registerAll, bind_assoc]

theorem expansions_bare {ss : Sources} : ∀ {L : List ResultField},
    (∀ x ∈ L, ∃ i, x = ⟨.ident i, none⟩ ∧ i.isWildcard = false) →
    expansions ss L = pure (L.map fun _ => none)
  | [], _ => rfl
  | x :: L, h => by
    obtain ⟨⟨i, rfl, hi⟩, hL⟩ := List.forall_mem_cons.mp h
    have hnone : expansion ss ⟨.ident i, none⟩ = pure none := by
      simp only [expansion, Expr.asIdentifier?, hi]
      rfl
    rw [expansions, hnone, expansions_bare hL]
    rfl

theorem expansion_wildcard {ss : Sources} {a : String} {label : Option String} {e : Entity}
    (ha : Text.Plain a) (hs : ss.byQualifier? a = some (.mapped label e)) :
    expansion ss (.bare (a ++ "." ++ "*")) = pure (some (ofSource true (.mapped label e))) := by
  have hqualifier : Identifier.qualifier? { value := a ++ "." ++ "*" } = some a := by
    have hsegments : Text.segments (a ++ "." ++ "*") = [a, "*"] := by
      rw [Text.segments_append, Text.segments_plain ha]
      rfl
    rw [Identifier.qualifier?, Text.qualifier?, Text.splitLast?, hsegments]
    rfl
  have hwildcard : Identifier.isWildcard { value := a ++ "." ++ "*" } = true := Identifier.isWildcard_append rfl
  have hmeant : meant ss { value := a ++ "." ++ "*" } = pure ([.mapped label e], true) := by
    simp only [meant, hqualifier, hs]
    rfl
  simp only [expansion, ResultField.bare, Expr.name, Expr.asIdentifier?, hwildcard, hmeant]
  exact congrArg (fun fs => Except.ok (some fs)) (List.append_nil _)

theorem fields_expanded (visible : List Facts) (f : Facts) (x : ResultField) (L : List ResultField) :
    fields visible f [x] [some L] = (do return (L, ← registerAll visible f L)) := by
  simp [fields]

/-- **A wildcard is expanded to the leaves of its entity**, as if these had been written. -/
theorem select_listed {a : String} {label : Option String} {e : Entity} {s t : Select} (ha : Text.Plain a)
    (he : e.Listable) (hs : s.facts.sources.byQualifier? a = some (.mapped label e))
    (h : s.Swapped [.bare (a ++ "." ++ "*")] (ofSource true (.mapped label e)) t) :
    select [] s = select [] t := by
  obtain ⟨_, fs, source, js, c, gs, hv, os, l, o, us, f⟩ := s
  obtain ⟨before, after, rfl, rfl⟩ := h
  have hbare := bare_ofSource he label
  have hexpanded : expansions f.sources [.bare (a ++ "." ++ "*")] = pure [some (ofSource true (.mapped label e))] := by
    rw [expansions, expansion_wildcard ha hs]
    rfl
  rw [select, select]
  simp only [expansions_append, hexpanded, expansions_bare hbare, bind_assoc, pure_bind]
  cases hbefore : expansions f.sources before with
  | error e => rfl
  | ok xs =>
    have hlength : (xs ++ [some (ofSource true (.mapped label e))]).length
        = (before ++ [ResultField.bare (a ++ "." ++ "*")]).length := by
      simp [length_expansions hbefore]
    have hlength' : (xs ++ (ofSource true (.mapped label e)).map fun _ => none).length
        = (before ++ ofSource true (.mapped label e)).length := by
      simp [length_expansions hbefore]
    refine congrArg (expansions f.sources after >>= ·) (funext fun ys => ?_)
    rw [fields_append hlength, fields_append hlength', fields_append (length_expansions hbefore),
      fields_append (length_expansions hbefore)]
    simp only [fields_expanded, fields_bare hbare, bind_assoc, pure_bind]

end Results

/-! ## All passes -/

section

variable {X Y : List ResultField} {q r : Query}

theorem Sweep.agree_query {w : Sweep} (hident : ∀ p i, w.ident p i = .ok i) (hopening : ∀ fs f, w.opening fs f = f)
    (hX : Bare X) (hY : Bare Y) (h : q.Swapped X Y r) : Agree (Query.Swapped X Y) (w.query q) (w.query r) := by
  obtain ⟨s, t, rfl, rfl, h⟩ := h
  have hselect := Sweep.agree_select h ((hopening _ _).trans (hopening _ _).symm) (fields_bare hident hX)
    (fields_bare hident hY)
  exact hselect.map fun _ _ h => ⟨_, _, rfl, rfl, h⟩

theorem Joins.agree_query {schema : Schema} (hX : Bare X) (hY : Bare Y) (h : q.Swapped X Y r) :
    Agree (Query.Swapped X Y) (Joins.query schema q) (Joins.query schema r) := by
  obtain ⟨s, t, rfl, rfl, h⟩ := h
  exact (agree_select hX hY h).map fun _ _ h => ⟨_, _, rfl, rfl, h⟩

/-- Sources that a qualifier means are not lost by the completion of joins. -/
theorem Joins.byQualifier?_query {schema : Schema} {a : String} {x : Source} (hq : ∃ s, q = .select s)
    (h : Joins.query schema q = .ok r) (hs : q.facts.sources.byQualifier? a = some x) :
    r.facts.sources.byQualifier? a = some x := by
  obtain ⟨s, rfl⟩ := hq
  obtain ⟨s', hs', rfl⟩ := map_eq_ok.mp h
  obtain ⟨_, fs, t, js, c, gs, hv, os, l, o, us, f⟩ := s
  simp only [select, bind_eq_ok, pure_eq_ok] at hs'
  obtain ⟨⟨cs, f'⟩, hcs, _, -, _, -, _, -, _, -, _, -, _, -, _, -, _, -, _, -, _, -, rfl⟩ := hs'
  have hfamiliar : Familiar (fun _ => true) [f] := fun g _ => by simp [Facts.strangers]
  exact (plan_completeAll hfamiliar hcs).2.1.byQualifier? hs

variable {a : String} {label : Option String} {e : Entity}

theorem Entity.bare_listing : Bare (e.listing a) := by
  intro x hx
  obtain ⟨⟨name, column, ty, nullable, parts⟩, -, hx⟩ := List.mem_flatMap.mp hx
  cases parts with
  | nil =>
    cases List.mem_singleton.mp hx
    exact ⟨_, rfl⟩
  | cons part parts =>
    obtain ⟨np, -, rfl⟩ := List.mem_map.mp hx
    exact ⟨_, rfl⟩

theorem Select.Swapped.labels {s t : Select} (hX : Bare X) (hY : Bare Y) (h : s.Swapped X Y t) :
    t.fields.filterMap (·.label) = s.fields.filterMap (·.label) := by
  have hnone : ∀ {Z : List ResultField}, Bare Z → Z.filterMap (·.label) = [] := by
    intro Z hZ
    refine List.filterMap_eq_nil_iff.mpr fun x hx => ?_
    obtain ⟨i, rfl⟩ := hZ x hx
    rfl
  obtain ⟨before, after, hfields, rfl⟩ := h
  simp only [hfields, List.filterMap_append, hnone hX, hnone hY]

/-- The fourth pass leaves the wildcard as it is, and makes leaves of the listed names. -/
theorem Columns.agree_query (ha : Text.Plain a ∧ a ≠ "") (he : e.Listable)
    (hs : q.facts.sources.byQualifier? a = some (.mapped label e))
    (h : q.Swapped [.bare (a ++ "." ++ "*")] (e.listing a) r) :
    Agree (Query.Swapped [.bare (a ++ "." ++ "*")] (Results.ofSource true (.mapped label e)))
      (Columns.sweep.query q) (Columns.sweep.query r) := by
  obtain ⟨s, t, rfl, rfl, h⟩ := h
  have hwildcard : Bare [.bare (a ++ "." ++ "*")] := List.forall_mem_singleton.mpr ⟨_, rfl⟩
  have hopening : Columns.sweep.opening t.fields s.facts = Columns.sweep.opening s.fields s.facts :=
    congrArg (fun labels => { s.facts with labels }) (h.labels hwildcard Entity.bare_listing)
  have hkept : Columns.sweep.fields ⟨[Columns.sweep.opening s.fields s.facts], false⟩ [.bare (a ++ "." ++ "*")]
      = .ok [.bare (a ++ "." ++ "*")] := by
    have hresolve : ∀ p, resolve p { value := a ++ "." ++ "*" } = .ok { value := a ++ "." ++ "*" } := by
      intro p
      rw [resolve, Identifier.isWildcard_append rfl, Bool.or_true, Bool.true_or, if_pos rfl]
    rw [ResultField.bare, Sweep.fields, Expr.name, Sweep.expr]
    simp only [sweep, hresolve]
    rfl
  exact (Sweep.agree_select h hopening hkept (fields_listing ha hs he)).map fun _ _ h => ⟨_, _, rfl, rfl, h⟩

theorem Columns.sources_query (hq : ∃ s, q = .select s) (h : Columns.sweep.query q = .ok r) :
    r.facts.sources = q.facts.sources := by
  obtain ⟨s, rfl⟩ := hq
  obtain ⟨s', hs', rfl⟩ := map_eq_ok.mp h
  obtain ⟨-, -, -, -, -, -, -, -, -, -, hf⟩ := Sweep.Makes.select Columns.makes s .nil hs'
  exact hf

theorem Results.query_listed (ha : Text.Plain a) (he : e.Listable)
    (hs : q.facts.sources.byQualifier? a = some (.mapped label e))
    (h : q.Swapped [.bare (a ++ "." ++ "*")] (ofSource true (.mapped label e)) r) :
    Results.query q = Results.query r := by
  obtain ⟨s, t, rfl, rfl, h⟩ := h
  rw [query, query, select_listed ha he hs h]

end

theorem Query.resolve_eq (n : Naming) (q : Query) : q.resolve n = (do
    let q₁ ← Pass.sources.run n q
    let q₂ ← Pass.derived.run n q₁
    let q₃ ← Pass.joins.run n q₂
    let q₄ ← Pass.columns.run n q₃
    let q₅ ← Pass.results.run n q₄
    Pass.parameters.run n q₅) := by
  simp [resolve, Pass.all]

/-- The select with a wildcard behind a qualifier among its fields. -/
def Select.withWildcard (s : Select) (before : List ResultField) (a : String) (after : List ResultField) : Select :=
  { s with fields := before ++ [.bare (a ++ "." ++ "*")] ++ after }

/-- The select with all properties of an entity behind a qualifier among its fields. -/
def Select.withListing (s : Select) (before : List ResultField) (e : Entity) (a : String)
    (after : List ResultField) : Select :=
  { s with fields := before ++ e.listing a ++ after }

namespace Compiler

/-- **A wildcard over an entity says what the list of its properties says**: with one in the place of the
other, a query is compiled to the same or fails for the same cause. -/
theorem compile_listing {c : Compiler} {s : Select} {before after : List ResultField} {a : String}
    {label : Option String} {e : Entity} {q₁ q₂ : Query} (ha : Text.Plain a ∧ a ≠ "") (he : e.Listable)
    (h₁ : Pass.sources.run c.naming (.select (s.withWildcard before a after)) = .ok q₁)
    (h₂ : Pass.derived.run c.naming q₁ = .ok q₂)
    (hs : q₂.facts.sources.byQualifier? a = some (.mapped label e)) :
    c.compile (.select (s.withWildcard before a after)) = c.compile (.select (s.withListing before e a after)) := by
  have hwildcard : Bare [.bare (a ++ "." ++ "*")] := List.forall_mem_singleton.mpr ⟨_, rfl⟩
  have hlisting : Bare (e.listing a) := Entity.bare_listing
  have hswapped : Query.Swapped [.bare (a ++ "." ++ "*")] (e.listing a) (.select (s.withWildcard before a after))
      (.select (s.withListing before e a after)) := ⟨_, _, rfl, rfl, before, after, rfl, rfl⟩
  obtain ⟨r₁, hr₁, hswapped⟩ := (Sweep.agree_query (w := c.naming.sweep) (fun _ _ => rfl) (fun _ _ => rfl)
    hwildcard hlisting hswapped).lift.exists_of_eq_ok h₁
  obtain ⟨r₂, hr₂, hswapped⟩ := (Sweep.agree_query (w := Derived.sweep) (fun _ _ => rfl) (fun _ _ => rfl)
    hwildcard hlisting hswapped).lift.exists_of_eq_ok h₂
  have hselect := hswapped.select
  have hresolve : Query.resolve c.naming (.select (s.withWildcard before a after))
      = Query.resolve c.naming (.select (s.withListing before e a after)) := by
    have hr₁ : Pass.sources.run c.naming (.select (s.withListing before e a after)) = .ok r₁ := hr₁
    have hr₂ : Pass.derived.run c.naming r₁ = .ok r₂ := hr₂
    refine Agree.eq ?_
    rw [Query.resolve_eq, Query.resolve_eq, h₁, hr₁]
    change Agree _ (Pass.derived.run c.naming q₁ >>= _) (Pass.derived.run c.naming r₁ >>= _)
    rw [h₂, hr₂]
    refine (Joins.agree_query hwildcard hlisting hswapped).bind fun q₃ r₃ hq₃ hswapped => ?_
    have hs₃ := Joins.byQualifier?_query hselect hq₃ hs
    refine (Columns.agree_query ha he hs₃ hswapped).lift.bind fun q₄ r₄ hq₄ hleaves => ?_
    have hs₄ := Columns.sources_query hswapped.select (Joins.lift_query_eq_ok.mp hq₄)
    have hresults : Pass.results.run c.naming q₄ = Pass.results.run c.naming r₄ :=
      congrArg QueryError.lift (Results.query_listed ha.1 he (hs₄ ▸ hs₃) hleaves)
    rw [hresults]
    exact .refl _
  rw [compile, compile, trace, trace, hresolve]
  cases Query.resolve c.naming (.select (s.withListing before e a after)) <;> rfl

/-- A buyer with an address in two parts. -/
def buyer : Entity where
  name := "Buyer"
  table := "crm.buyers"
  properties :=
    [("id", { column := "id", ty := .int }), ("fullName", { column := "full_name", ty := .string }),
      ("address", { column := "address", ty := .json
                    parts := [("city", { column := "addr_city", ty := .string }),
                      ("zip", { column := "addr_zip", ty := .string, nullable := true })] })]
  identifier := ["id"]

/-- Buyers and what they ordered. -/
def market : Schema where
  entities :=
    [buyer,
      { name := "Purchase", table := "purchases"
        properties := [("id", { column := "id", ty := .int }), ("buyerId", { column := "buyer_id", ty := .int })]
        relations := [("buyer", { target := "Buyer", link := .forward "buyerId" })]
        identifier := ["id"] }]

/-- Purchases with their buyers, without fields. -/
def purchases : Select where
  distinct := false
  fields := []
  source := some (.named "Purchase" (some "p"))
  joins := [⟨.inner, .named "p.buyer" (some "b"), none, some ⟨"p", "buyer"⟩⟩]
  criteria := some (.compare .eq (.name "b.address.city") (.named { name := "city" }))
  grouping := []
  having := none
  ordering := []
  limit := none
  offset := none
  unions := []
  facts := {}

theorem listable_buyer : buyer.Listable where
  properties := by decide +kernel
  parts := by decide +kernel
  flat := by decide +kernel
  leaves := by decide +kernel

theorem compile_listing_purchases : ∃ a, compile ⟨market, .postgres, {}⟩
      (.select (purchases.withWildcard [⟨.name "p.id", some "purchase"⟩] "b" [⟨.literal (.int 1), some "one"⟩])) = .ok a
    ∧ a.resultNames = ["purchase", "id", "fullName", "address.city", "address.zip", "one"]
    ∧ compile ⟨market, .postgres, {}⟩ (.select (purchases.withListing [⟨.name "p.id", some "purchase"⟩] buyer "b"
      [⟨.literal (.int 1), some "one"⟩])) = .ok a := by
  obtain ⟨a, ha, hnames⟩ := map_eq_ok.mp (show Artifact.resultNames <$> compile ⟨market, .postgres, {}⟩
      (.select (purchases.withWildcard [⟨.name "p.id", some "purchase"⟩] "b" [⟨.literal (.int 1), some "one"⟩]))
    = .ok ["purchase", "id", "fullName", "address.city", "address.zip", "one"] by decide +kernel)
  obtain ⟨q₁, h₁, h⟩ := bind_eq_ok.mp (show (Pass.sources.run ⟨market, false⟩
      (.select (purchases.withWildcard [⟨.name "p.id", some "purchase"⟩] "b" [⟨.literal (.int 1), some "one"⟩]))
    >>= fun q₁ => (fun q₂ => q₂.facts.sources.byQualifier? "b") <$> Pass.derived.run ⟨market, false⟩ q₁)
    = .ok (some (.mapped (some "b") buyer)) by decide +kernel)
  obtain ⟨q₂, h₂, hs⟩ := map_eq_ok.mp h
  refine ⟨a, ha, hnames, ?_⟩
  rw [← ha]
  exact (compile_listing (c := ⟨market, .postgres, {}⟩) (by decide +kernel) listable_buyer h₁ h₂ hs).symm

/-- **A table's name with a dot in it** is a qualifier of wildcards, but not of names: the wildcard over the
entity is compiled, and the list of its properties is not. -/
theorem unlisted_table : (∃ a, compileText ⟨market, .generic, {}⟩ "SELECT crm.buyers.* FROM Buyer" = .ok a
      ∧ a.resultNames = ["id", "fullName", "address.city", "address.zip"])
    ∧ compileText ⟨market, .generic, {}⟩
      "SELECT crm.buyers.id, crm.buyers.fullName, crm.buyers.address.city, crm.buyers.address.zip FROM Buyer"
      = .error (.query (.unknownAlias "crm")) :=
  ⟨map_eq_ok.mp (by decide +kernel), by decide +kernel⟩

end Compiler

end EntitySql
