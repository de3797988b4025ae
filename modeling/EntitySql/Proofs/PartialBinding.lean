import Mathlib
import EntitySql.Proofs.Counterparts
import EntitySql.Proofs.Slots

/-!
# Values supplied before compilation

A query can be given values before it is compiled. What is compiled then is the query with some of its slots
filled: binding the others later gives the values that one binding of all of them gives, in the same order
and with the same failures. Only names cannot wait: each has to have its value when the query is compiled.

* `Slot.supply`: what becomes of a slot.
* `Compiler.compile_withLiterals`: a query with values is compiled to the filled slots.
* **`Compiler.bind_withLiterals`**: early and late values together are bound as one.
-/

namespace EntitySql

open Outcome Parameters

/-! ## Early and late values -/

/-- The values of `b`, and behind its last position those of `b'`. The names are those of `b`. -/
def Bindings.followedBy (b b' : Bindings) : Bindings where
  positional := b.positional ++ b'.positional.drop b.positional.length
  named := b.named

theorem Bindings.get?_followedBy_of_some {b : Bindings} (b' : Bindings) {key : ParameterKey} {v : Value}
    (h : b.get? key = some v) : (b.followedBy b').get? key = some v := by
  cases key with
  | name n => exact h
  | position i =>
    have hi : i < b.positional.length := (List.getElem?_eq_some_iff.mp h).1
    exact (List.getElem?_append_left hi).trans h

theorem Bindings.get?_followedBy_of_none {b : Bindings} (b' : Bindings) {i : Nat}
    (h : b.get? (.position i) = none) : (b.followedBy b').get? (.position i) = b'.get? (.position i) := by
  have hi : b.positional.length ≤ i := List.getElem?_eq_none_iff.mp h
  simp only [get?, followedBy, List.getElem?_append_right hi, List.getElem?_drop, Nat.add_sub_cancel' hi]

namespace Slot

/-- A slot where the values of `b` are known: it is filled, or stays if it has a number without a value. -/
def supply (b : Bindings) : Slot → Except QueryError Slot
  | fixed v ty => .ok (fixed v ty)
  | required key ty =>
    match b.get? key, key with
    | some v, _ => .ok (fixed v (ty.or (some (.ofValue v))))
    | none, .name n => .error (.unmatchedNamedParameter n)
    | none, .position i => .ok (required (.position i) ty)

variable {b b' : Bindings} {s s' : Slot}

theorem supply_eq_ok (h : s.supply b = .ok s') : (∃ v ty, s = fixed v ty ∧ s' = fixed v ty)
    ∨ (∃ key ty v, b.get? key = some v ∧ s = required key ty ∧ s' = fixed v (ty.or (some (.ofValue v))))
    ∨ ∃ i ty, b.get? (.position i) = none ∧ s = required (.position i) ty
      ∧ s' = required (.position i) ty := by
  unfold supply at h
  split at h
  · next v ty =>
    cases h
    exact .inl ⟨v, ty, rfl, rfl⟩
  · next key ty =>
    split at h
    · next v hv =>
      cases h
      exact .inr (.inl ⟨_, ty, v, hv, rfl, rfl⟩)
    · cases h
    · next i hv =>
      cases h
      exact .inr (.inr ⟨i, ty, hv, rfl, rfl⟩)

theorem supply_of_missing {n : String} (hkey : s.key? = some (.name n)) (h : b.get? (.name n) = none) :
    s.supply b = .error (.unmatchedNamedParameter n) := by
  cases s with
  | fixed v ty => cases hkey
  | required key ty =>
    cases hkey
    simp only [supply, h]

theorem supply_eq_error {e : QueryError} (h : s.supply b = .error e) :
    ∃ n, s.key? = some (.name n) ∧ b.get? (.name n) = none ∧ e = .unmatchedNamedParameter n := by
  unfold supply at h
  split at h
  · cases h
  · split at h
    · cases h
    · next n hv =>
      cases h
      exact ⟨n, rfl, hv, rfl⟩
    · cases h

/-- The rest of the values may come later. -/
theorem bind_of_supply (h : s.supply b = .ok s') : s'.bind b' = s.bind (b.followedBy b') := by
  obtain ⟨v, ty, rfl, rfl⟩ | ⟨key, ty, v, hv, rfl, rfl⟩ | ⟨i, ty, hv, rfl, rfl⟩ := supply_eq_ok h
  · rfl
  · simp only [bind, Bindings.get?_followedBy_of_some b' hv]
  · simp only [bind, Bindings.get?_followedBy_of_none b' hv]

/-- The type that a value has by itself changes it nowhere but where booleans are written as numbers. -/
theorem toDatabase_ofValue {d : Dialect} (hd : d ≠ .mysql) (v : Value) :
    d.toDatabase v (some (.ofValue v)) = d.toDatabase v none := by
  cases v with
  | bool x =>
    cases d with
    | mysql => exact absurd rfl hd
    | generic | postgres => rfl
  | _ => rfl

theorem toDatabase_of_supply {d : Dialect} (hd : d ≠ .mysql) (h : s.supply b = .ok s') {v : Value}
    (hv : s'.bind b' = .ok v) : d.toDatabase v s'.ty = d.toDatabase v s.ty := by
  obtain ⟨w, ty, rfl, rfl⟩ | ⟨key, ty, w, -, rfl, rfl⟩ | ⟨i, ty, -, rfl, rfl⟩ := supply_eq_ok h
  · rfl
  · cases hv
    cases ty with
    | none => exact toDatabase_ofValue hd v
    | some t => rfl
  · rfl

variable {slots slots' : List Slot}

theorem bindAll_of_supply (h : slots.Forall₂ (fun s s' => s.supply b = .ok s') slots') :
    bindAll b' slots' = bindAll (b.followedBy b') slots := by
  induction h with
  | nil => rfl
  | cons hs _ ih =>
    unfold bindAll at ih ⊢
    rw [List.mapM_cons, List.mapM_cons, ih, bind_of_supply hs]

theorem mapM_toDatabase_of_supply {d : Dialect} (hd : d ≠ .mysql)
    (h : slots.Forall₂ (fun s s' => s.supply b = .ok s') slots') {values : List Value}
    (hvalues : slots'.Forall₂ (fun s v => s.bind b' = .ok v) values) :
    (slots'.zip values).mapM (fun sv => d.toDatabase sv.2 sv.1.ty)
      = (slots.zip values).mapM fun sv => d.toDatabase sv.2 sv.1.ty := by
  induction h generalizing values with
  | nil => rfl
  | cons hs _ ih =>
    cases hvalues with
    | cons hv hvalues =>
      rw [List.zip_cons_cons, List.zip_cons_cons, List.mapM_cons, List.mapM_cons, ih hvalues,
        toDatabase_of_supply hd hs hv]

theorem bindFor_of_supply {d : Dialect} (hd : d ≠ .mysql)
    (h : slots.Forall₂ (fun s s' => s.supply b = .ok s') slots') :
    bindFor d b' slots' = bindFor d (b.followedBy b') slots := by
  unfold bindFor
  rw [← bindAll_of_supply h]
  cases hvalues : bindAll b' slots' with
  | error e => rfl
  | ok values => exact mapM_toDatabase_of_supply hd h (mapM_eq_ok.mp hvalues)

end Slot

/-! ## Markers -/

/-- A query without the values it was given. -/
def Recast.bare : Recast where
  literals _ := none

theorem Recast.hidden_bare : bare.Hidden where
  typed _ _ := rfl
  named _ := rfl
  unsupplied := rfl

/-- The slot of a marker whose value may be known is that of one which nothing is known of, supplied. -/
theorem Parameters.slotOf_some (b : Bindings) (m : Marker) :
    slotOf (some b) m = slotOf none m >>= Slot.supply b := by
  obtain ⟨position, replaces, ty, nullable, value, ordinal⟩ := m
  cases value with
  | some v => rfl
  | none =>
    -- the key decides whether a value is looked up, and whether it may be missing
    cases replaces with
    | some n =>
      show _ = Slot.supply b (.required (.name n) ty)
      simp only [slotOf, Marker.fill, Marker.known, Marker.key?, Slot.supply]
      cases b.get? (.name n) <;> rfl
    | none =>
      cases position with
      | none => rfl
      | some i =>
        show _ = Slot.supply b (.required (.position i) ty)
        simp only [slotOf, Marker.fill, Marker.known, Marker.key?, Slot.supply]
        cases b.get? (.position i) <;> rfl

/-- What is given in a query that has the values `b` or none. -/
def Given.SuppliedBy (b : Bindings) : Given → Prop
  | .mark _ => True
  | .literals b' => b' = none ∨ b' = some b

theorem Given.SuppliedBy.of_fresh {b : Bindings} {g : Given} (h : g.Fresh) : g.SuppliedBy b := by
  cases g with
  | mark m => trivial
  | literals b' => exact .inl h

theorem mirrored_bare {b : Bindings} {g : Given} (h : g.SuppliedBy b) :
    Mirrored (Slot.supply b) .bare {} none (some b) g := by
  cases g with
  | mark m => exact fun hint => mirrors_number rfl (slotOf_some b _)
  | literals b' =>
    obtain rfl | rfl := h
    · exact ⟨rfl, rfl⟩
    · exact ⟨rfl, rfl⟩

/-! ## Queries -/

namespace Query

variable {q : Query} {b : Bindings}

theorem recast_withLiterals : (q.withLiterals b).recast .bare = q.recast .bare := by
  cases q with
  | select s =>
    cases s
    rfl
  | insert | update | delete => rfl

theorem facts_withLiterals : (q.withLiterals b).facts = { q.facts with literals := some b } :=
  Parameters.facts_withFacts _ _

/-- Other facts contribute what they contribute, and the rest of the query what it did. -/
theorem mem_collect_withFacts {α : Type} {k : Collector α} {f : Facts} {x : α}
    (h : x ∈ (q.withFacts f).collect k) : x ∈ k.facts f ∨ x ∈ q.collect k := by
  cases q with
  | select s =>
    cases s
    simp only [withFacts, collect, Select.collect, List.mem_append] at h ⊢
    tauto
  | insert i =>
    simp only [withFacts, collect, Insert.collect, List.mem_append] at h ⊢
    tauto
  | update u =>
    simp only [withFacts, collect, Update.collect, List.mem_append] at h ⊢
    tauto
  | delete d =>
    simp only [withFacts, collect, Delete.collect, List.mem_append] at h ⊢
    tauto

theorem suppliedBy_withLiterals (h : ∀ g ∈ q.collect givens, g.Fresh) :
    ∀ g ∈ (q.withLiterals b).collect givens, g.SuppliedBy b := by
  intro g hg
  obtain hown | hg := mem_collect_withFacts hg
  · obtain rfl := List.mem_singleton.mp hown
    exact .inr rfl
  · exact .of_fresh (h g hg)

end Query

namespace Compiler

variable {c : Compiler} {text : String} {q : Query} {a : Artifact}

/-- **Values given to a query fill its slots**, and change nothing else of what is compiled. -/
theorem compile_withLiterals (hq : Query.ofText text = .ok q) (h : c.compile q = .ok a) (b : Bindings) :
    match a.slots.mapM (Slot.supply b) with
    | .error e => c.compile (q.withLiterals b) = .error (.query e)
    | .ok slots => c.compile (q.withLiterals b) = .ok { a with slots } := by
  have hfresh := Query.fresh_givens hq
  have hbare : (q.withLiterals b).recast .bare = q := by
    rw [Query.recast_withLiterals]
    refine Query.recast_eq_self fun g hg => ?_
    cases g with
    | mark m => rfl
    | literals b' => exact (hfresh _ hg).symm
  obtain ⟨r, hr, hra⟩ := prepares_of_compile h
  rw [← hbare] at hr
  obtain ⟨p, hp, rfl⟩ := Query.prepares_of_recast Recast.hidden_bare hr
  have hslots : p.facts.slots = [] := by
    rw [hp.slots, Query.facts_withLiterals, Query.facts_ofText hq]
  have hliterals : p.facts.literals = some b := by rw [hp.literals, Query.facts_withLiterals]
  have hgiven := hp.forall_given (fun g hg => Given.SuppliedBy.of_fresh (Given.fresh_of_spliced hg))
    (Query.suppliedBy_withLiterals hfresh)
  have hmirror := c.mirrors_conclude (κ := Slot.supply b) (σ := .bare) (τ := {}) hslots (by
    rw [hliterals]
    exact fun g hg => mirrored_bare (hgiven g hg))
  rw [hra, Query.recast_id] at hmirror
  rw [compile_of_prepares hp]
  exact hmirror

/-- **Values given to a query are bound early**: where every name has one, the values that are given later
make up for the rest, as if all had been given then. What is prepared for the database is the same too, save
for a dialect that has no booleans. Where a name has no value, nothing is compiled. -/
theorem bind_withLiterals (hq : Query.ofText text = .ok q) (h : c.compile q = .ok a) (b : Bindings) :
    ((∀ n, .name n ∈ a.required → (b.get? (.name n)).isSome) →
      ∃ a', c.compile (q.withLiterals b) = .ok a' ∧ a'.sql = a.sql ∧ a'.results = a.results
        ∧ a'.generated = a.generated ∧ (∀ b', a'.bind b' = a.bind (b.followedBy b'))
        ∧ ∀ d, d ≠ .mysql → ∀ b', a'.bindFor d b' = a.bindFor d (b.followedBy b'))
    ∧ ((∃ n, .name n ∈ a.required ∧ b.get? (.name n) = none) →
      ∃ n, .name n ∈ a.required ∧ b.get? (.name n) = none
        ∧ c.compile (q.withLiterals b) = .error (.query (.unmatchedNamedParameter n))) := by
  have hcompile := compile_withLiterals hq h b
  cases hsupply : a.slots.mapM (Slot.supply b) with
  | error e =>
    rw [hsupply] at hcompile
    obtain ⟨s, hs, he⟩ := exists_of_mapM_error hsupply
    obtain ⟨n, hkey, hmissing, rfl⟩ := Slot.supply_eq_error he
    have hn : .name n ∈ a.required := List.mem_filterMap.mpr ⟨s, hs, hkey⟩
    refine ⟨fun hall => ?_, fun _ => ⟨n, hn, hmissing, hcompile⟩⟩
    have := hall n hn
    rw [hmissing] at this
    cases this
  | ok slots =>
    rw [hsupply] at hcompile
    have hslots := mapM_eq_ok.mp hsupply
    refine ⟨fun _ => ⟨_, hcompile, rfl, rfl, rfl, fun b' => Slot.bindAll_of_supply hslots,
      fun d hd b' => Slot.bindFor_of_supply hd hslots⟩, ?_⟩
    rintro ⟨n, hn, hmissing⟩
    obtain ⟨s, hs, hkey⟩ := List.mem_filterMap.mp hn
    have hfilled : ∀ s ∈ a.slots, ∃ s', s.supply b = .ok s' :=
      ((List.forall₂_and_left _ _).mp (hslots.imp fun _ s' hs' => ⟨⟨s', hs'⟩, hs'⟩)).1
    obtain ⟨s', hs'⟩ := hfilled s hs
    rw [Slot.supply_of_missing hkey hmissing] at hs'
    cases hs'

/-- A number with a field beside it, a name that comes twice, and a number by itself. -/
def reportsText : String :=
  "SELECT p.id FROM Person p WHERE p.active = ? AND (p.boss_id = :boss OR p.id = :boss) LIMIT ?"

def reports : Artifact where
  sql := "SELECT \"p\".\"id\" FROM \"people\" \"p\" WHERE \"p\".\"active\" = $1 AND (\"p\".\"boss_id\" = $2 OR \"p\".\"id\" = $3) LIMIT $4"
  slots := [.required (.position 0) (some .bool), .required (.name "boss") (some .int),
    .required (.name "boss") (some .int), .required (.position 1) none]
  results := [("id", ⟨"id", some .int, false, some "Person.id"⟩)]

theorem reports_name {n : String} (h : .name n ∈ reports.required) : n = "boss" := by
  simpa [Artifact.required, reports, Slot.key?] using h

theorem bind_withLiterals_reports : ∃ q, Query.ofText reportsText = .ok q
    ∧ compile ⟨staff, .postgres, {}⟩ q = .ok reports
    ∧ (∃ a', compile ⟨staff, .postgres, {}⟩ (q.withLiterals ⟨[.string "t"], [("boss", .null)]⟩) = .ok a'
      ∧ a'.sql = reports.sql
      ∧ a'.bind ⟨[.int 0, .bool false], []⟩ = .ok [.string "t", .null, .null, .bool false]
      ∧ a'.bindFor .postgres ⟨[.int 0, .bool false], []⟩ = .ok [.bool true, .null, .null, .bool false]
      ∧ a'.bind ⟨[.int 0], []⟩ = .error (.missingParameter "at position 1"))
    ∧ compile ⟨staff, .postgres, {}⟩ (q.withLiterals ⟨[.bool true], [("bos", .null)]⟩)
      = .error (.query (.unmatchedNamedParameter "boss")) := by
  have hcompile : compileText ⟨staff, .postgres, {}⟩ reportsText = .ok reports := by
    rw [compileText_eq, reportsText, Query.ofText_ofList]
    decide +kernel
  obtain ⟨q, hq, ha⟩ := compileText_eq_ok hcompile
  refine ⟨q, hq, ha, ?_, ?_⟩
  · obtain ⟨a', ha', hsql, -, -, hbind, hfor⟩ := (bind_withLiterals hq ha ⟨[.string "t"], [("boss", .null)]⟩).1
      (by rintro n hn; rw [reports_name hn]; rfl)
    exact ⟨a', ha', hsql, hbind _, (hfor .postgres (by decide) _).trans (by decide +kernel), hbind _⟩
  · obtain ⟨n, hn, -, h⟩ := (bind_withLiterals hq ha ⟨[.bool true], [("bos", .null)]⟩).2
      ⟨"boss", by decide, by decide⟩
    rwa [reports_name hn] at h

end Compiler

end EntitySql
