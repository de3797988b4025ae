import Mathlib
import EntitySql.Proofs.Completion
import EntitySql.Proofs.Origins

/-!
# The scopes of a reference

A reference with a qualifier belongs to the innermost scope that knows the qualifier, and what lies further out
does not matter. A name without one belongs to all scopes together: neither their order nor that of their
sources matters, and a further source can make the name ambiguous but never gives it another meaning.

* `Lookup.Sole`: the one source that declares a name.
* `Lookup.Rearranged`, `Lookup.Equivalent`: scopes up to order, and outcomes up to the order of what an error lists.
* **`Lookup.find_scoped`**: what a reference means, and on which scopes that depends.
-/

namespace EntitySql.Lookup

/-! ## Sources that declare a name -/

/-- The source declares a property of that name. -/
def declares (name : String) (s : Source) : Bool := (s.property? name).isSome

theorem declares_eq_false {name : String} {s : Source} : declares name s = false ↔ s.property? name = none :=
  Option.isSome_eq_false_iff.trans Option.isNone_iff_eq_none

/-- `s` is the only one of the sources that declares the name, as the property `p`. -/
def Sole (name : String) (ss : List Source) (s : Source) (p : Property) : Prop :=
  ∃ before after, ss = before ++ s :: after ∧ s.property? name = some p
    ∧ ∀ x ∈ before ++ after, x.property? name = none

variable {name : String} {ss : List Source} {scopes scopes' : List Facts}

theorem declaring_eq_nil : declaring name ss = [] ↔ ∀ s ∈ ss, s.property? name = none := by
  simp only [declaring, List.filterMap_eq_nil_iff, Option.map_eq_none_iff]

theorem declaring_eq_singleton {s : Source} {p : Property} : declaring name ss = [(s, p)] ↔ Sole name ss s p := by
  unfold declaring Sole
  rw [List.filterMap_eq_cons_iff]
  constructor
  · rintro ⟨before, s', after, hss, hbefore, hs, hafter⟩
    obtain ⟨p', hp, heq⟩ := Option.map_eq_some_iff.mp hs
    cases heq
    refine ⟨before, after, hss, hp, List.forall_mem_append.mpr ⟨fun x hx => ?_, declaring_eq_nil.mp hafter⟩⟩
    exact Option.map_eq_none_iff.mp (hbefore x hx)
  · rintro ⟨before, after, hss, hp, hnone⟩
    obtain ⟨hbefore, hafter⟩ := List.forall_mem_append.mp hnone
    exact ⟨before, s, after, hss, fun x hx => Option.map_eq_none_iff.mpr (hbefore x hx),
      Option.map_eq_some_iff.mpr ⟨p, hp, rfl⟩, declaring_eq_nil.mpr hafter⟩

theorem length_declaring : (declaring name ss).length = ss.countP (declares name) := by
  rw [declaring, List.length_filterMap_eq_countP]
  simp only [Option.isSome_map]
  rfl

theorem any_hasRaw : (scopes.any fun f => f.sources.hasRaw) = true ↔ ∃ s ∈ sources scopes, s.isRaw = true := by
  simp only [Sources.hasRaw, sources, List.any_eq_true, List.mem_flatMap]
  constructor
  · rintro ⟨f, hf, s, hs, hraw⟩
    exact ⟨s, ⟨f, hf, hs⟩, hraw⟩
  · rintro ⟨s, ⟨f, hf, hs⟩, hraw⟩
    exact ⟨f, hf, s, hs, hraw⟩

/-! ## Names without a qualifier -/

/-- The names by which an error lists the sources that declare a name. -/
def clashes (name : String) (ss : List Source) : List String :=
  (declaring name ss).map fun sp => sp.1.qualifier ++ "." ++ name

/-- What can become of a name of one segment. -/
inductive Means (name : String) (scopes : List Facts) : Except QueryError (Option FieldMatch) → Prop
  | found {s p} : Sole name (sources scopes) s p → Means name scopes (.ok (some ⟨s, false, name, p⟩))
  | ambiguous : 2 ≤ (sources scopes).countP (declares name) →
    Means name scopes (.error (.ambiguousIdentifier name (clashes name (sources scopes))))
  | raw : (∀ s ∈ sources scopes, s.property? name = none) → (∃ s ∈ sources scopes, s.isRaw = true) →
    Means name scopes (.ok none)
  | unknown : (∀ s ∈ sources scopes, s.property? name = none) → (¬ ∃ s ∈ sources scopes, s.isRaw = true) →
    Means name scopes (.error (.unknownField name (candidates (sources scopes))))

theorem means_unqualified (name : String) (scopes : List Facts) :
    Means name scopes (unqualified name name none scopes) := by
  unfold unqualified
  split
  · next s p hdecl => exact .found (declaring_eq_singleton.mp hdecl)
  · next hdecl =>
    have hnone := declaring_eq_nil.mp hdecl
    split
    · next hraw => exact .raw hnone (any_hasRaw.mp hraw)
    · next hraw => exact .unknown hnone fun hex => hraw (any_hasRaw.mpr hex)
  · next hone hnil =>
    refine .ambiguous ?_
    rw [← length_declaring]
    cases hdecl : declaring name (sources scopes) with
    | nil => exact absurd hdecl hnil
    | cons x found =>
      cases found with
      | nil => exact absurd hdecl (hone x.1 x.2)
      | cons => simp

theorem Means.eq_unqualified {r : Except QueryError (Option FieldMatch)} (h : Means name scopes r) :
    unqualified name name none scopes = r := by
  unfold unqualified
  cases h with
  | found hsole =>
    rw [declaring_eq_singleton.mpr hsole]
    rfl
  | ambiguous hmany =>
    rw [← length_declaring] at hmany
    unfold clashes
    cases hdecl : declaring name (sources scopes) with
    | nil => simp [hdecl] at hmany
    | cons x found =>
      cases found with
      | nil => simp [hdecl] at hmany
      | cons => rfl
  | raw hnone hraw =>
    rw [declaring_eq_nil.mpr hnone]
    exact if_pos (any_hasRaw.mpr hraw)
  | unknown hnone hraw =>
    rw [declaring_eq_nil.mpr hnone]
    exact if_neg fun hany => hraw (any_hasRaw.mp hany)

/-- **A name of one segment means what the sources of all scopes together make of it.** -/
theorem find_eq_iff (hname : Text.Plain name) (hempty : name ≠ "") {r : Except QueryError (Option FieldMatch)} :
    find name scopes = r ↔ Means name scopes r := by
  have hfind : find name scopes = unqualified name name none scopes := by
    have hfull : [name].any String.isEmpty = false := by simp [hempty]
    simp only [find, Text.segments_plain hname, hfull]
    rfl
  rw [hfind]
  constructor
  · rintro rfl
    exact means_unqualified name scopes
  · exact Means.eq_unqualified

/-! ## The order of scopes and sources -/

/-- The same sources, with the scopes and the sources of each of them in any order. -/
def Rearranged (scopes scopes' : List Facts) : Prop :=
  ∃ mid, scopes.Perm mid ∧ List.Forall₂ (fun f g => f.sources.toList.Perm g.sources.toList) mid scopes'

theorem Rearranged.sources (h : Rearranged scopes scopes') : (sources scopes).Perm (sources scopes') := by
  obtain ⟨mid, hscopes, hmid⟩ := h
  have hsources : (Lookup.sources mid).Perm (Lookup.sources scopes') := by
    clear hscopes
    induction hmid with
    | nil => exact .nil
    | cons hf _ ih => exact hf.append ih
  exact (hscopes.flatMap_right _).trans hsources

/-- Two outcomes that differ at most in the order of what an error lists. -/
inductive Equivalent : Except QueryError (Option FieldMatch) → Except QueryError (Option FieldMatch) → Prop
  | refl (r) : Equivalent r r
  | ambiguous {value found found'} : found.Perm found' →
    Equivalent (.error (.ambiguousIdentifier value found)) (.error (.ambiguousIdentifier value found'))
  | unknown {value offered offered'} : offered.Perm offered' →
    Equivalent (.error (.unknownField value offered)) (.error (.unknownField value offered'))

theorem declaring_perm (name : String) {ss' : List Source} (h : ss.Perm ss') :
    (declaring name ss).Perm (declaring name ss') := h.filterMap _

theorem Sole.perm {ss' : List Source} {s : Source} {p : Property} (hsole : Sole name ss s p)
    (h : ss.Perm ss') : Sole name ss' s p := by
  have hperm := (declaring_perm name h).symm
  rw [declaring_eq_singleton.mpr hsole] at hperm
  exact declaring_eq_singleton.mp (List.perm_singleton.mp hperm)

/-- **The order of sources does not matter** to what a name means. -/
theorem Means.perm {r : Except QueryError (Option FieldMatch)} (hr : Means name scopes r)
    (h : (sources scopes).Perm (sources scopes')) : ∃ r', Means name scopes' r' ∧ Equivalent r r' := by
  have hmem : ∀ {P : Source → Prop}, (∀ s ∈ sources scopes, P s) → ∀ s ∈ sources scopes', P s :=
    fun hall s hs => hall s (h.mem_iff.mpr hs)
  have hraw : (∃ s ∈ sources scopes, s.isRaw = true) ↔ ∃ s ∈ sources scopes', s.isRaw = true :=
    exists_congr fun s => and_congr_left fun _ => h.mem_iff
  cases hr with
  | found hsole => exact ⟨_, .found (hsole.perm h), .refl _⟩
  | ambiguous hmany =>
    rw [h.countP_eq] at hmany
    exact ⟨_, .ambiguous hmany, .ambiguous ((declaring_perm name h).map _)⟩
  | raw hnone hex => exact ⟨_, .raw (hmem hnone) (hraw.mp hex), .refl _⟩
  | unknown hnone hex =>
    exact ⟨_, .unknown (hmem hnone) (mt hraw.mpr hex), .unknown (h.flatMap_right _)⟩

/-! ## A further source -/

theorem sources_addSource (inner outer : List Facts) {f f' : Facts} {s : Source} (h : f.addSource s = .ok f') :
    (sources (inner ++ f' :: outer)).Perm (s :: sources (inner ++ f :: outer)) := by
  have hlist : f'.sources.toList = f.sources.toList ++ [s] := by
    obtain ⟨rfl, -⟩ := Facts.addSource_eq_ok h
    exact List.map_append
  simp only [sources, List.flatMap_append, List.flatMap_cons, hlist, List.append_assoc, List.singleton_append]
  rw [← List.append_assoc, ← List.append_assoc]
  exact List.perm_middle

theorem Sole.cons {s x : Source} {p : Property} (h : Sole name ss s p) (hx : x.property? name = none) :
    Sole name (x :: ss) s p := by
  obtain ⟨before, after, rfl, hp, hnone⟩ := h
  exact ⟨x :: before, after, rfl, hp, List.forall_mem_cons.mpr ⟨hx, hnone⟩⟩

theorem Sole.countP_pos {s : Source} {p : Property} (h : Sole name ss s p) : 0 < ss.countP (declares name) := by
  obtain ⟨before, after, rfl, hp, -⟩ := h
  exact List.countP_pos_iff.mpr
    ⟨s, List.mem_append_right _ List.mem_cons_self, Option.isSome_iff_exists.mpr ⟨p, hp⟩⟩

/-- **A further source keeps the meaning of a name or makes it ambiguous**, by whether it declares the name. -/
theorem Means.addSource {inner outer : List Facts} {f f' : Facts} {s : Source} {m : FieldMatch}
    (hm : Means name (inner ++ f :: outer) (.ok (some m))) (h : f.addSource s = .ok f') :
    (s.property? name = none → Means name (inner ++ f' :: outer) (.ok (some m)))
      ∧ (s.property? name ≠ none → ∃ found,
        Means name (inner ++ f' :: outer) (.error (.ambiguousIdentifier name found))) := by
  have hperm := (sources_addSource inner outer h).symm
  cases hm with
  | found hsole =>
    refine ⟨fun hs => .found ((hsole.cons hs).perm hperm), fun hs => ⟨_, .ambiguous ?_⟩⟩
    have hdeclares : declares name s = true := Option.isSome_iff_ne_none.mpr hs
    rw [← hperm.countP_eq, List.countP_cons_of_pos hdeclares]
    exact Nat.succ_le_succ hsole.countP_pos

/-! ## Names with a qualifier -/

theorem scopedSource?_append {q : String} {s : Source} (h : scopedSource? scopes q = some s)
    (outer : List Facts) : scopedSource? (scopes ++ outer) q = some s := by
  rw [scopedSource?] at h
  rw [scopedSource?, List.findSome?_append, h, Option.some_or]

/-- A qualifier is taken to mean the same source where one is known. -/
theorem find_congr {value first : String} {rest : List String} {s : Source}
    (hvalue : Text.segments value = first :: rest) (hrest : rest ≠ []) (h : scopedSource? scopes first = some s)
    (h' : scopedSource? scopes' first = some s) : find value scopes = find value scopes' := by
  unfold find
  rw [hvalue]
  cases rest with
  | nil => exact absurd rfl hrest
  | cons second rest =>
    cases rest with
    | nil => simp only [h, h']
    | cons third rest =>
      cases rest with
      | nil => simp only [h, h']
      | cons => rfl

theorem find_source {value first : String} {rest : List String} {s : Source} {m : FieldMatch}
    (hvalue : Text.segments value = first :: rest) (hrest : rest ≠ []) (h : scopedSource? scopes first = some s)
    (hm : find value scopes = .ok (some m)) : m.source = s := by
  unfold find at hm
  rw [hvalue] at hm
  dsimp only at hm
  split at hm
  · cases hm
  · cases rest with
    | nil => exact absurd rfl hrest
    | cons second rest =>
      cases rest with
      | nil =>
        simp only [h] at hm
        exact (qualified_eq_some hm).1
      | cons third rest =>
        cases rest with
        | nil =>
          simp only [h] at hm
          exact (qualified_eq_some hm).1
        | cons => cases hm

/-! ## References and scopes -/

/-- **References are lexically scoped, and names without a qualifier blind to order.**

A name of one segment is a field exactly if one source of all scopes declares it, ambiguous exactly if two or more
do, and left open exactly if none does and some source is raw. Its meaning does not depend on the order of scopes or
of sources. A source registered in any scope leaves a field that was found as it is or makes its name ambiguous.

A dotted reference whose first segment a scope knows does not depend on the scopes further out, and a field
found belongs to the innermost scope that knows the segment. -/
theorem find_scoped (scopes : List Facts) :
    (∀ name, Text.Plain name → name ≠ "" →
      (∀ s p, find name scopes = .ok (some ⟨s, false, name, p⟩) ↔ Sole name (sources scopes) s p)
      ∧ (∀ m, find name scopes = .ok (some m) → m.qualified = false ∧ m.path = name)
      ∧ ((∃ found, find name scopes = .error (.ambiguousIdentifier name found))
        ↔ 2 ≤ (sources scopes).countP (declares name))
      ∧ (find name scopes = .ok none
        ↔ (∀ s ∈ sources scopes, declares name s = false) ∧ ∃ s ∈ sources scopes, s.isRaw = true)
      ∧ (∀ scopes', Rearranged scopes scopes' → Equivalent (find name scopes) (find name scopes'))
      ∧ (∀ inner f outer s f' m, scopes = inner ++ f :: outer → f.addSource s = .ok f' →
        find name scopes = .ok (some m) →
          (declares name s = false → find name (inner ++ f' :: outer) = .ok (some m))
          ∧ (declares name s = true → ∃ found,
            find name (inner ++ f' :: outer) = .error (.ambiguousIdentifier name found))))
    ∧ (∀ value first rest, Text.segments value = first :: rest → rest ≠ [] →
      (∃ f ∈ scopes, f.sources.byQualifier? first ≠ none) →
      (∀ outer, find value (scopes ++ outer) = find value scopes)
      ∧ (∀ m, find value scopes = .ok (some m) → ∃ inner f outer, scopes = inner ++ f :: outer
        ∧ (∀ g ∈ inner, g.sources.byQualifier? first = none)
        ∧ f.sources.byQualifier? first = some m.source)) := by
  refine ⟨fun name hname hempty => ?_, fun value first rest hvalue hrest hknown => ?_⟩
  · simp only [find_eq_iff hname hempty, declares_eq_false]
    refine ⟨fun s p => ⟨?_, .found⟩, ?_, ⟨?_, fun hmany => ⟨_, .ambiguous hmany⟩⟩, ⟨?_, fun h => .raw h.1 h.2⟩,
      fun scopes' h => ?_, ?_⟩
    · rintro ⟨⟩
      assumption
    · rintro m ⟨⟩
      exact ⟨rfl, rfl⟩
    · rintro ⟨found, ⟨⟩⟩
      assumption
    · rintro ⟨⟩
      exact ⟨‹_›, ‹_›⟩
    · obtain ⟨r, hr, hequiv⟩ := ((find_eq_iff hname hempty).mp rfl).perm h.sources
      rwa [(find_eq_iff hname hempty).mpr hr]
    · rintro inner f outer s f' m rfl hadd hm
      obtain ⟨hsame, hambiguous⟩ := hm.addSource hadd
      exact ⟨hsame, fun hs => hambiguous (Option.isSome_iff_ne_none.mp hs)⟩
  · obtain ⟨s, hs⟩ : ∃ s, scopedSource? scopes first = some s := by
      rw [← Option.isSome_iff_exists, scopedSource?, List.findSome?_isSome_iff]
      obtain ⟨f, hf, hsome⟩ := hknown
      exact ⟨f, hf, Option.isSome_iff_ne_none.mpr hsome⟩
    refine ⟨fun outer => find_congr hvalue hrest (scopedSource?_append hs outer) hs, fun m hm => ?_⟩
    obtain rfl := find_source hvalue hrest hs hm
    obtain ⟨inner, f, outer, hscopes, hf, hinner⟩ := List.findSome?_eq_some_iff.mp hs
    exact ⟨inner, f, outer, hscopes, hinner, hf⟩

/-- The sources of a subquery and of the query around it. -/
def nestedScopes : List Facts :=
  [{ sources := ⟨[(some "c", .mapped (some "c")
      { name := "Customer", table := "customers", properties := [("id", ⟨"id", .int, false, []⟩),
        ("name", ⟨"name", .string, false, []⟩)] }), (some "l", .raw (some "l") "audit_log")]⟩ },
    { sources := ⟨[(some "u", .mapped (some "u")
      { name := "User", table := "users", properties := [("id", ⟨"id", .int, false, []⟩),
        ("email", ⟨"email_address", .string, true, []⟩)] })]⟩ }]

theorem find_scoped_nestedScopes :
    (Text.Plain "email" ∧ "email" ≠ "" ∧ Rearranged nestedScopes nestedScopes.reverse)
      ∧ Equivalent (find "email" nestedScopes) (find "email" nestedScopes.reverse)
      ∧ (∃ found, find "id" nestedScopes = .error (.ambiguousIdentifier "id" found))
      ∧ find "nickname" nestedScopes = .ok none
      ∧ (∀ outer, find "c.name" (nestedScopes ++ outer) = find "c.name" nestedScopes) := by
  have hrearranged : Rearranged nestedScopes nestedScopes.reverse :=
    ⟨_, (List.reverse_perm _).symm, List.forall₂_same.mpr fun f _ => .refl _⟩
  obtain ⟨hnames, hqualified⟩ := find_scoped nestedScopes
  refine ⟨⟨by decide, by decide, hrearranged⟩, ?_, ?_, ?_, ?_⟩
  · exact (hnames "email" (by decide) (by decide)).2.2.2.2.1 _ hrearranged
  · exact (hnames "id" (by decide) (by decide)).2.2.1.mpr (by decide)
  · exact (hnames "nickname" (by decide) (by decide)).2.2.2.1.mpr ⟨by decide, by decide⟩
  · exact (hqualified "c.name" "c" ["name"] (by decide) (by decide) (by decide)).1

end EntitySql.Lookup
