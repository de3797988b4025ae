import Mathlib
import EntitySql.Entity
import EntitySql.Identifier

/-!
# Dotted names and their segments

A dotted name is taken apart at its dots and put together again. `Text.Plain` says that a name is one
segment, `Text.Single` that it is no `*` besides, and `Text.Leads` that its first segment is none.

* `Text.join_segments`: a name is its segments with dots between them.
* `Text.segments_append`: the segments of a qualified name.
* `RelationPath.ofName?_eq_some`: which names are paths.
* `Identifier.not_isWildcard`, `Identifier.name_ne_star`: which names are wildcards.
-/

namespace EntitySql

/-! ## Taking names apart -/

namespace Text

theorem splitChars_ne_nil (sep : Char) : ∀ cs : List Char, splitChars sep cs ≠ []
  | [] => List.cons_ne_nil _ _
  | c :: cs => by
    unfold splitChars
    split
    · exact List.cons_ne_nil _ _
    · split <;> exact List.cons_ne_nil _ _

theorem join_cons_of_ne_nil {sep s : String} {ss : List String} (h : ss ≠ []) :
    join sep (s :: ss) = s ++ sep ++ join sep ss := by
  cases ss with
  | nil => exact absurd rfl h
  | cons => rfl

theorem join_concat {sep s : String} {ss : List String} (h : ss ≠ []) :
    join sep (ss ++ [s]) = join sep ss ++ sep ++ s := by
  induction ss with
  | nil => exact absurd rfl h
  | cons t ts ih =>
    by_cases hts : ts = []
    · rw [hts]
      rfl
    · rw [List.cons_append, join_cons_of_ne_nil (by simp), join_cons_of_ne_nil hts, ih hts]
      simp only [String.append_assoc]

theorem join_splitChars : ∀ cs : List Char,
    (join "." ((splitChars '.' cs).map String.ofList)).toList = cs
  | [] => rfl
  | c :: cs => by
    have hne : (splitChars '.' cs).map String.ofList ≠ [] :=
      fun h => splitChars_ne_nil '.' cs (List.map_eq_nil_iff.mp h)
    have ih := join_splitChars cs
    by_cases hc : c = '.'
    · rw [splitChars, if_pos hc, List.map_cons, join_cons_of_ne_nil hne]
      simp only [String.toList_append, ih, hc]
      rfl
    · rw [splitChars, if_neg hc]
      cases hcs : splitChars '.' cs with
      | nil => exact absurd hcs (splitChars_ne_nil '.' cs)
      | cons piece pieces =>
        rw [hcs] at ih
        cases pieces with
        | nil => simpa [join] using congrArg (c :: ·) ih
        | cons second rest => simpa [join] using congrArg (c :: ·) ih

/-- A dotted name is its segments with dots between them. -/
theorem join_segments (name : String) : join "." (segments name) = name :=
  String.toList_inj.mp (join_splitChars name.toList)

theorem segments_ne_nil (name : String) : segments name ≠ [] :=
  fun h => splitChars_ne_nil '.' _ (List.map_eq_nil_iff.mp h)

/-- A name with a dot is what stands before its last dot, and what stands after it. -/
theorem splitLast?_eq_some {name q last : String} (h : splitLast? name = some (q, last)) :
    name = q ++ "." ++ last := by
  unfold splitLast? at h
  split at h
  · next p ps hrev =>
    cases h
    have hsegments : segments name = (p :: ps).reverse ++ [last] := by
      rw [← List.reverse_cons]
      exact List.reverse_eq_iff.mp hrev
    rw [← join_concat (by simp), ← hsegments, join_segments]
  · cases h

/-! ## Names of one segment -/

/-- A name of one segment. -/
def Plain (s : String) : Prop := '.' ∉ s.toList

/-- A name of one segment that is no wildcard. -/
def Single (s : String) : Prop := Plain s ∧ s ≠ "*"

/-- A name whose first segment is no wildcard. -/
def Leads (s : String) : Prop := (segments s).head? ≠ some "*"

instance : DecidablePred Plain := fun s => inferInstanceAs (Decidable ('.' ∉ s.toList))

instance : DecidablePred Single := fun s => inferInstanceAs (Decidable (Plain s ∧ s ≠ "*"))

instance : DecidablePred Leads := fun s => inferInstanceAs (Decidable ((segments s).head? ≠ some "*"))

theorem splitChars_append (a b : List Char) :
    splitChars '.' (a ++ '.' :: b) = splitChars '.' a ++ splitChars '.' b := by
  induction a with
  | nil => rfl
  | cons c a ih =>
    rw [List.cons_append, splitChars, splitChars, ih]
    by_cases hc : c = '.'
    · rw [if_pos hc, if_pos hc, List.cons_append]
    · rw [if_neg hc, if_neg hc]
      cases ha : splitChars '.' a with
      | nil => exact absurd ha (splitChars_ne_nil '.' a)
      | cons piece pieces => rfl

theorem splitChars_plain {a : List Char} (h : '.' ∉ a) : splitChars '.' a = [a] := by
  induction a with
  | nil => rfl
  | cons c a ih =>
    rw [List.mem_cons, not_or] at h
    rw [splitChars, if_neg (Ne.symm h.1), ih h.2]

/-- No piece holds what separates them. -/
theorem not_mem_splitChars : ∀ (a : List Char), ∀ piece ∈ splitChars '.' a, '.' ∉ piece
  | [] => by simp [splitChars]
  | c :: a => by
    have ih := not_mem_splitChars a
    rw [splitChars]
    by_cases hc : c = '.'
    · rw [if_pos hc]
      exact List.forall_mem_cons.mpr ⟨List.not_mem_nil, ih⟩
    · rw [if_neg hc]
      cases ha : splitChars '.' a with
      | nil => exact absurd ha (splitChars_ne_nil '.' a)
      | cons piece pieces =>
        rw [ha] at ih
        obtain ⟨hpiece, hpieces⟩ := List.forall_mem_cons.mp ih
        refine List.forall_mem_cons.mpr ⟨fun hmem => ?_, hpieces⟩
        rcases List.mem_cons.mp hmem with heq | hmem
        · exact hc heq.symm
        · exact hpiece hmem

theorem segments_append (a b : String) : segments (a ++ "." ++ b) = segments a ++ segments b := by
  have hlist : (a ++ "." ++ b).toList = a.toList ++ '.' :: b.toList := by simp
  rw [segments, hlist, splitChars_append, List.map_append]
  rfl

theorem segments_plain {a : String} (h : Plain a) : segments a = [a] := by
  rw [segments, splitChars_plain h, List.map_singleton, String.ofList_toList]

theorem plain_of_mem_segments {a s : String} (h : s ∈ segments a) : Plain s := by
  obtain ⟨piece, hpiece, rfl⟩ := List.mem_map.mp h
  rw [Plain, String.toList_ofList]
  exact not_mem_splitChars _ piece hpiece

theorem lastSegment_plain {a : String} (h : Plain a) : lastSegment a = a := by
  rw [lastSegment, splitLast?, segments_plain h]
  rfl

theorem lastSegment_append {a b : String} (h : Plain b) : lastSegment (a ++ "." ++ b) = b := by
  rw [lastSegment, splitLast?, segments_append, segments_plain h, List.reverse_append, List.reverse_singleton,
    List.singleton_append]
  cases ha : (segments a).reverse with
  | nil => exact absurd (List.reverse_eq_nil_iff.mp ha) (segments_ne_nil a)
  | cons q qs => rfl

theorem splitLast?_plain {a : String} (h : Plain a) : splitLast? a = none := by
  rw [splitLast?, segments_plain h]
  rfl

/-- Only the first of two names has to lead. -/
theorem leads_append {a b : String} : Leads (a ++ "." ++ b) ↔ Leads a := by
  obtain ⟨s, ss, hs⟩ := List.exists_cons_of_ne_nil (segments_ne_nil a)
  rw [Leads, Leads, segments_append, hs]
  rfl

theorem Single.leads {a : String} (h : Single a) : Leads a := by
  rw [Leads, segments_plain h.1]
  exact fun heq => h.2 (Option.some.inj heq)

theorem Leads.first_ne {a s : String} {ss : List String} (h : Leads a) (hs : segments a = s :: ss) :
    s ≠ "*" := by
  rintro rfl
  exact h (by rw [hs]; rfl)

theorem not_leads_star : ¬ Leads "*" := by
  decide

/-- A name that does not lead is a wildcard, alone or with more segments. -/
theorem eq_star_of_not_leads {a : String} (h : ¬ Leads a) : a = "*" ∨ ∃ b, a = "*" ++ "." ++ b := by
  obtain ⟨s, ss, hs⟩ := List.exists_cons_of_ne_nil (segments_ne_nil a)
  have hstar : s = "*" := by
    rw [Leads, hs] at h
    exact Option.some.inj (not_not.mp h)
  have hjoin := join_segments a
  rw [hs, hstar] at hjoin
  cases ss with
  | nil => exact .inl hjoin.symm
  | cons s' ss => exact .inr ⟨_, by rw [← hjoin, join_cons_of_ne_nil (List.cons_ne_nil _ _)]⟩

/-- A name leads if it begins like one that does. -/
theorem Leads.append {a b : String} (h : Leads a) : Leads (a ++ "_" ++ b) := by
  by_contra hnot
  rcases eq_star_of_not_leads hnot with hstar | ⟨c, hc⟩
  · have hmem : '_' ∈ (a ++ "_" ++ b).toList := by simp
    rw [hstar] at hmem
    exact absurd hmem (by decide)
  · -- the two marks at the beginning are both from the first name
    have hlist : a.toList ++ '_' :: b.toList = '*' :: '.' :: c.toList := by
      simpa using congrArg String.toList hc
    match ha : a.toList with
    | [] => simp [ha] at hlist
    | [_] => simp [ha] at hlist
    | c₁ :: c₂ :: cs =>
      rw [ha, List.cons_append, List.cons_append, List.cons.injEq, List.cons.injEq] at hlist
      have heq : a = "*" ++ "." ++ String.ofList cs := String.toList_inj.mp (by simp [ha, hlist.1, hlist.2.1])
      rw [heq] at h
      exact not_leads_star (leads_append.mp h)

theorem plain_of_splitLast? {name q last : String} (h : splitLast? name = some (q, last)) : Plain last := by
  unfold splitLast? at h
  split at h
  · next hrev =>
    cases h
    have hmem : last ∈ segments name := List.mem_reverse.mp (hrev ▸ List.mem_cons_self)
    exact plain_of_mem_segments hmem
  · cases h

theorem plain_lastSegment (name : String) : Plain (lastSegment name) := by
  unfold lastSegment
  split
  · next hlast => exact plain_of_splitLast? hlast
  · next hnone =>
    -- a name that has no last dot is its only segment
    unfold splitLast? at hnone
    split at hnone
    · cases hnone
    · next hshort =>
      cases hrev : (segments name).reverse with
      | nil => exact absurd (List.reverse_eq_nil_iff.mp hrev) (segments_ne_nil name)
      | cons last rest =>
        cases rest with
        | cons q qs => exact absurd hrev (hshort last q qs)
        | nil =>
          have hsegments : segments name = [last] := List.reverse_eq_iff.mp hrev
          have hname := join_segments name
          rw [hsegments] at hname
          have hlast : last ∈ segments name := hsegments ▸ List.mem_singleton_self last
          exact hname ▸ plain_of_mem_segments hlast

/-- The last segment of a qualified name is that of the name. -/
theorem lastSegment_qualified (q c : String) : lastSegment (q ++ "." ++ c) = lastSegment c := by
  cases hsplit : splitLast? c with
  | some split =>
    obtain ⟨q', last⟩ := split
    have hc := splitLast?_eq_some hsplit
    have hlast := plain_of_splitLast? hsplit
    have hassoc : q ++ "." ++ c = (q ++ "." ++ q') ++ "." ++ last := by
      rw [hc]
      simp only [String.append_assoc]
    rw [hassoc, lastSegment_append hlast, hc, lastSegment_append hlast]
  | none =>
    have hlast : lastSegment c = c := by rw [lastSegment, hsplit]
    have hplain := plain_lastSegment c
    rw [hlast] at hplain
    rw [lastSegment_append hplain, hlast]

end Text

namespace RelationPath

/-- A path is the dotted name that it was read from. -/
theorem ofName?_eq_some {name : String} {path : RelationPath} (h : ofName? name = some path) :
    name = path.source ++ "." ++ path.relation ∧ Text.Plain path.relation := by
  unfold ofName? at h
  split at h
  · next hlast =>
    split at h
    · cases h
    · cases h
      exact ⟨Text.splitLast?_eq_some hlast, Text.plain_of_splitLast? hlast⟩
  · cases h

/-- A name of one segment is no path. -/
theorem ofName?_plain {name : String} (h : Text.Plain name) : ofName? name = none := by
  rw [ofName?, Text.splitLast?_plain h]

end RelationPath

namespace Identifier

theorem isWildcard_star {i : Identifier} (h : i.value = "*") : i.isWildcard = true := by
  rw [isWildcard, h]
  rfl

theorem isWildcard_append {i : Identifier} {q : String} (h : i.value = q ++ "." ++ "*") :
    i.isWildcard = true := by
  have hrev : i.value.toList.reverse = '*' :: '.' :: q.toList.reverse := by simp [h]
  rw [isWildcard, hrev]
  exact Bool.or_true _

/-- A plain name other than `*` is no wildcard, with a qualifier or without. -/
theorem not_isWildcard {i : Identifier} {c : String} (hc : Text.Plain c) (hstar : c ≠ "*")
    (h : i.value = c ∨ ∃ q, i.value = q ++ "." ++ c) : i.isWildcard = false := by
  have hne : i.value ≠ "*" := by
    rcases h with rfl | ⟨q, hq⟩
    · exact hstar
    · intro heq
      have hmem : '.' ∈ i.value.toList := by simp [hq]
      rw [heq] at hmem
      exact absurd hmem (by decide)
  have hends : ∀ rest, i.value.toList.reverse ≠ '*' :: '.' :: rest := by
    intro rest heq
    rcases h with hval | ⟨q, hval⟩
    · apply hc
      rw [← hval, ← List.mem_reverse, heq]
      exact List.mem_cons_of_mem _ List.mem_cons_self
    · have hlist : i.value.toList.reverse = c.toList.reverse ++ '.' :: q.toList.reverse := by simp [hval]
      rw [hlist] at heq
      cases hrev : c.toList.reverse with
      | nil =>
        rw [hrev] at heq
        cases heq
      | cons x xs =>
        rw [hrev] at heq
        cases xs with
        | nil =>
          -- the last segment would be the star itself
          obtain ⟨rfl, -⟩ := List.cons.inj heq
          have hsingle : c.toList = ['*'] := List.reverse_eq_iff.mp hrev
          exact hstar (String.toList_inj.mp hsingle)
        | cons y ys =>
          obtain ⟨-, htail⟩ := List.cons.inj heq
          obtain ⟨rfl, -⟩ := List.cons.inj htail
          apply hc
          rw [← List.mem_reverse, hrev]
          exact List.mem_cons_of_mem _ List.mem_cons_self
  rw [isWildcard, beq_eq_false_iff_ne.mpr hne, Bool.false_or]
  split
  · next hrev => exact absurd hrev (hends _)
  · rfl

/-- Only wildcards end in a `*`. -/
theorem name_ne_star {i : Identifier} (h : i.isWildcard = false) : i.name ≠ "*" := by
  intro hstar
  unfold name Text.lastSegment at hstar
  split at hstar
  · next hlast =>
    have hvalue := Text.splitLast?_eq_some hlast
    rw [hstar] at hvalue
    rw [isWildcard_append hvalue] at h
    cases h
  · rw [isWildcard_star hstar] at h
    cases h

/-- A name that does not end in a `*` is no wildcard. -/
theorem not_isWildcard_of_name {i : Identifier} (h : i.name ≠ "*") : i.isWildcard = false := by
  refine not_isWildcard (Text.plain_lastSegment i.value) h ?_
  cases hsplit : Text.splitLast? i.value with
  | some split =>
    have hlast : Text.lastSegment i.value = split.2 := by rw [Text.lastSegment, hsplit]
    rw [hlast]
    exact .inr ⟨split.1, Text.splitLast?_eq_some hsplit⟩
  | none => exact .inl (by rw [Text.lastSegment, hsplit])

end Identifier

end EntitySql
