import Mathlib
import EntitySql.Facts

/-!
# Sources and their qualifiers

The sources of a query are kept apart by key. The key of a source is its qualifier, with one exception: the
first source without an alias has the empty key, so its table is not among the keys. Registration therefore
tells all sources apart but that one.

* `Sources.Indexed`: what the keys of a map are, and `Sources.Indexed.offered`: every sequence of registrations
  gives such a map.
* **`Sources.qualifiers_offered`**: all sources but the first without an alias have different qualifiers, and
  exactly these are guarded by registration.
-/

namespace EntitySql

/-- A source without an alias. -/
def Source.isUnnamed (s : Source) : Bool := s.label.isNone

@[simp] theorem Source.isUnnamed_iff {s : Source} : s.isUnnamed = true ↔ s.label = none :=
  Option.isNone_iff_eq_none

namespace Sources

/-- The sources after one more is registered, if it is not refused. -/
def offer (m : Sources) (s : Source) : Sources :=
  match m.register s with
  | .ok m' => m'
  | .error _ => m

/-- The sources after some are registered one after the other, beginning with none. -/
def offered (ss : List Source) : Sources := ss.foldl offer {}

/-- The first source without an alias. -/
def unnamed? (m : Sources) : Option Source := m.toList.find? Source.isUnnamed

/-- All sources but the first without an alias. -/
def guarded (m : Sources) : List Source := m.toList.eraseP Source.isUnnamed

/-- A source that comes into conflict with those registered: it has the qualifier of a guarded one and is not
itself the first without an alias. -/
def Conflict (m : Sources) (s : Source) : Prop :=
  (s.label ≠ none ∨ m.unnamed? ≠ none) ∧ s.qualifier ∈ m.guarded.map Source.qualifier

instance (m : Sources) (s : Source) : Decidable (m.Conflict s) := inferInstanceAs (Decidable (_ ∧ _))

/-- The keys of a map: the empty one is that of the first source without an alias, the others are the
qualifiers of the others, each once. -/
structure Indexed (m : Sources) : Prop where
  empty : m.hasKey none = true ↔ m.unnamed? ≠ none
  others : m.entries.filterMap Prod.fst = m.guarded.map Source.qualifier
  nodup : (m.guarded.map Source.qualifier).Nodup

variable {m : Sources} {s : Source}

/-! ## Keys -/

theorem Indexed.nil : Indexed {} := ⟨by decide, rfl, List.nodup_nil⟩

theorem hasKey_some (m : Sources) (k : String) :
    m.hasKey (some k) = true ↔ k ∈ m.entries.filterMap Prod.fst := by
  simp only [hasKey, List.any_eq_true, beq_iff_eq, List.mem_filterMap]

/-- The key of a source, by whether it is the first without an alias. -/
theorem Indexed.keyOf_eq (h : m.Indexed) (s : Source) :
    m.keyOf s = if s.label ≠ none ∨ m.unnamed? ≠ none then some s.qualifier else none := by
  unfold keyOf Source.qualifier
  cases hs : s.label with
  | some a => simp
  | none =>
    simp only [h.empty, ne_eq, not_true_eq_false, false_or, Option.getD_none]

/-- **A key is taken exactly where sources conflict.** -/
theorem Indexed.hasKey_keyOf (h : m.Indexed) (s : Source) : m.hasKey (m.keyOf s) = true ↔ m.Conflict s := by
  rw [h.keyOf_eq, Conflict]
  split
  · next hkey => rw [hasKey_some, h.others, and_iff_right hkey]
  · next hkey =>
    have hempty : ¬ m.hasKey none = true := fun hnone => hkey (.inr (h.empty.mp hnone))
    exact iff_of_false hempty fun hconflict => hkey hconflict.1

theorem Indexed.register_of_conflict (h : m.Indexed) (hs : m.Conflict s) :
    m.register s = .error (.duplicateAlias s.qualifier) := if_pos ((h.hasKey_keyOf s).mpr hs)

theorem Indexed.register_of_not_conflict (h : m.Indexed) (hs : ¬ m.Conflict s) :
    m.register s = .ok ⟨m.entries ++ [(m.keyOf s, s)]⟩ := if_neg fun hkey => hs ((h.hasKey_keyOf s).mp hkey)

/-! ## One more source -/

theorem toList_append (m : Sources) (key : Option String) (s : Source) :
    (⟨m.entries ++ [(key, s)]⟩ : Sources).toList = m.toList ++ [s] := List.map_append

/-- The first without an alias stays the first. -/
theorem unnamed?_append (m : Sources) (key : Option String) (s : Source) :
    (⟨m.entries ++ [(key, s)]⟩ : Sources).unnamed? ≠ none ↔ m.unnamed? ≠ none ∨ s.label = none := by
  rw [unnamed?, toList_append, unnamed?, ne_eq, List.find?_eq_none, ne_eq, List.find?_eq_none]
  simp only [List.forall_mem_append, List.forall_mem_singleton, Source.isUnnamed_iff, not_and_or, not_not]

/-- A source that is not the first without an alias is guarded from then on. -/
theorem guarded_append (m : Sources) (key : Option String) (s : Source) :
    (⟨m.entries ++ [(key, s)]⟩ : Sources).guarded
      = if s.label ≠ none ∨ m.unnamed? ≠ none then m.guarded ++ [s] else m.guarded := by
  rw [guarded, toList_append, guarded]
  cases hu : m.unnamed? with
  | some u =>
    rw [if_pos (.inr nofun), List.eraseP_append_left (List.find?_some hu) _ (List.mem_of_find?_eq_some hu)]
  | none =>
    have hno : ∀ x ∈ m.toList, ¬ x.isUnnamed = true := List.find?_eq_none.mp hu
    rw [List.eraseP_append_right _ hno, List.eraseP_of_forall_not hno]
    by_cases hs : s.label = none <;> simp [hs]

/-- **Registration keeps the keys in order.** -/
theorem Indexed.register (h : m.Indexed) (hs : ¬ m.Conflict s) : Indexed ⟨m.entries ++ [(m.keyOf s, s)]⟩ := by
  refine ⟨?_, ?_, ?_⟩
  · -- the empty key is given to the first source without an alias, and to no other
    have happ : hasKey ⟨m.entries ++ [(m.keyOf s, s)]⟩ none = true
        ↔ m.hasKey none = true ∨ m.keyOf s = none := by
      simp [hasKey]
    rw [unnamed?_append, happ, h.empty, h.keyOf_eq]
    by_cases hu : m.unnamed? = none <;> simp [hu]
  · rw [guarded_append, List.filterMap_append, h.others, h.keyOf_eq]
    split
    · rw [List.map_append]
      rfl
    · exact List.append_nil _
  · rw [guarded_append]
    split
    · next hguard =>
      have hfresh : s.qualifier ∉ m.guarded.map Source.qualifier := fun hmem => hs ⟨hguard, hmem⟩
      rw [List.map_append]
      exact h.nodup.append (List.nodup_singleton _) (List.disjoint_singleton.mpr hfresh)
    · exact h.nodup

theorem Indexed.offer (h : m.Indexed) (s : Source) : (m.offer s).Indexed := by
  rw [Sources.offer]
  by_cases hs : m.Conflict s
  · rw [h.register_of_conflict hs]
    exact h
  · rw [h.register_of_not_conflict hs]
    exact h.register hs

/-- **Every sequence of registrations keeps the keys in order.** -/
theorem Indexed.offered (ss : List Source) : (offered ss).Indexed :=
  List.foldlRecOn ss Sources.offer Indexed.nil fun _ h s _ => h.offer s

/-! ## All sources -/

/-- The sources are the guarded ones and the first without an alias, at some place among them. -/
theorem perm_guarded {u : Source} (hu : m.unnamed? = some u) : m.toList.Perm (u :: m.guarded) := by
  obtain ⟨hu, before, after, hlist, hbefore⟩ := List.find?_eq_some_iff_append.mp hu
  have hno : ∀ x ∈ before, ¬ x.isUnnamed = true := fun x hx =>
    Bool.eq_false_iff.mp (by simpa using hbefore x hx)
  rw [guarded, hlist, List.eraseP_append_right _ hno, List.eraseP_cons_of_pos hu]
  exact List.perm_middle

theorem guarded_eq_toList (hu : m.unnamed? = none) : m.guarded = m.toList :=
  List.eraseP_of_forall_not (List.find?_eq_none.mp hu)

theorem qualifier_of_unnamed {u : Source} (hu : m.unnamed? = some u) : u.qualifier = u.table := by
  rw [Source.qualifier, Source.isUnnamed_iff.mp (List.find?_some hu)]
  rfl

/-- All sources are told apart exactly if the table of the first without an alias qualifies no other. -/
theorem Indexed.nodup_iff (h : m.Indexed) : (m.toList.map Source.qualifier).Nodup
    ↔ ∀ u, m.unnamed? = some u → u.table ∉ m.guarded.map Source.qualifier := by
  cases hu : m.unnamed? with
  | none =>
    rw [← guarded_eq_toList hu]
    exact iff_of_true h.nodup nofun
  | some u =>
    have hperm := (perm_guarded hu).map Source.qualifier
    rw [hperm.nodup_iff, List.map_cons, List.nodup_cons, and_iff_left h.nodup, qualifier_of_unnamed hu]
    simp

theorem offered_concat (ss : List Source) (s : Source) : offered (ss ++ [s]) = (offered ss).offer s :=
  List.foldl_concat ..

/-- **Registration tells sources apart, the first without an alias excepted.** After every sequence of
registrations the others have different qualifiers. A further source is refused, with its qualifier and
nothing changed, exactly if it conflicts with one of these; else it comes last. So all sources have different
qualifiers exactly if none has the table of the first without an alias for its qualifier. -/
theorem qualifiers_offered (ss : List Source) :
    ((offered ss).guarded.map Source.qualifier).Nodup
      ∧ (∀ s, (offered ss).Conflict s → (offered ss).register s = .error (.duplicateAlias s.qualifier)
        ∧ offered (ss ++ [s]) = offered ss)
      ∧ (∀ s, ¬ (offered ss).Conflict s → (offered ss).register s = .ok (offered (ss ++ [s]))
        ∧ (offered (ss ++ [s])).toList = (offered ss).toList ++ [s])
      ∧ (((offered ss).toList.map Source.qualifier).Nodup
        ↔ ∀ u, (offered ss).unnamed? = some u → u.table ∉ (offered ss).guarded.map Source.qualifier) := by
  have h := Indexed.offered ss
  refine ⟨h.nodup, fun s hs => ?_, fun s hs => ?_, h.nodup_iff⟩
  · rw [offered_concat, offer, h.register_of_conflict hs]
    exact ⟨rfl, rfl⟩
  · rw [offered_concat, offer, h.register_of_not_conflict hs]
    exact ⟨rfl, toList_append ..⟩

/-- A table that is joined with itself without an alias is not told apart, and neither is one that has the
alias of another for its name. Where a further table comes first, both are refused. -/
theorem undistinguished_tables :
    ¬ ((offered [.raw none "users", .raw none "users"]).toList.map Source.qualifier).Nodup
      ∧ ¬ ((offered [.raw none "orders", .raw (some "orders") "archive"]).toList.map Source.qualifier).Nodup
      ∧ (offered [.raw none "logs", .raw none "users"]).register (.raw none "users")
        = .error (.duplicateAlias "users")
      ∧ (offered [.raw none "logs", .raw none "orders"]).register (.raw (some "orders") "archive")
        = .error (.duplicateAlias "orders") := by
  decide

end Sources

end EntitySql
