import Mathlib
import EntitySql.Proofs.Placeholders

/-!
# Slots and the markers of the text

A compiled query has one slot for each marker of its text, in the same order. The caller supplies the
value of a `?` under its number and that of `:name` under its name.

* `Compiler.slots_follow_tokens`: for every text and every schema whose filters have no markers.
-/

namespace EntitySql

/-- The key under which a caller supplies the value of a marker. -/
def Mark.key? : Mark → Option ParameterKey
  | anonymous m => m.key?
  | named m => some (.name m.name)

/-- The value that a marker has from the start. -/
def Mark.value? : Mark → Option Value
  | anonymous m => m.value
  | named _ => none

/-- The name in the text of a marker; `none` for `?`. -/
def Token.markerName? (t : Token) : Option String :=
  match t.text.toList with
  | ':' :: name => some (String.ofList name)
  | _ => none

/-- The keys of the markers among tokens, the next `?` being number `n`. -/
def Token.keysFrom (n : Nat) : List Token → List ParameterKey
  | [] => []
  | t :: ts =>
    if t.kind = .parameter then
      match t.markerName? with
      | some name => .name name :: keysFrom n ts
      | none => .position n :: keysFrom (n + 1) ts
    else keysFrom n ts

theorem Token.keys_marksFrom : ∀ (ts : List Token) (n : Nat),
    (marksFrom n ts).map Mark.key? = (keysFrom n ts).map some
  | [], _ => rfl
  | t :: ts, n => by
    rw [marksFrom, keysFrom, markerName?]
    split
    · generalize t.text.toList = cs
      split
      · simp only [List.map_cons, keys_marksFrom ts n]
        rfl
      · simp only [List.map_cons, keys_marksFrom ts (n + 1)]
        rfl
    · exact keys_marksFrom ts n

theorem Token.values_marksFrom : ∀ (ts : List Token) (n : Nat), ∀ m ∈ marksFrom n ts, m.value? = none
  | [], _ => nofun
  | t :: ts, n => by
    rw [marksFrom]
    split
    · split
      · exact List.forall_mem_cons.mpr ⟨rfl, values_marksFrom ts n⟩
      · exact List.forall_mem_cons.mpr ⟨rfl, values_marksFrom ts (n + 1)⟩
    · exact values_marksFrom ts n

/-- Without literals, the slot of a marker is left to the caller, under the marker's key. -/
theorem Mark.Filed.key? {m : Mark} {slot : Slot} (h : m.Filed (· = none) slot) (hv : m.value? = none) :
    slot.key? = m.key? := by
  obtain ⟨_, hint, filled, rfl, hfill, hslot⟩ := h
  have hvalue : (m.typed hint).value = none := by
    cases m <;> cases hint <;> exact hv
  have hkey : (m.typed hint).key? = m.key? := by
    cases m <;> cases hint <;> rfl
  have hfilled : filled = m.typed hint := by
    unfold Marker.fill at hfill
    rw [hvalue] at hfill
    exact (Except.ok.inj hfill).symm
  subst hfilled
  unfold Marker.slot at hslot
  rw [hvalue, hkey] at hslot
  cases hk : m.key? with
  | none => rw [hk] at hslot; cases hslot
  | some key =>
    rw [hk] at hslot
    cases hslot
    rfl

theorem keys_of_filed {ms : List Mark} {slots : List Slot} (hv : ∀ m ∈ ms, m.value? = none)
    (h : List.Forall₂ (Mark.Filed (· = none)) ms slots) : slots.map Slot.key? = ms.map Mark.key? := by
  induction h with
  | nil => rfl
  | cons hslot _ ih =>
    obtain ⟨hm, hms⟩ := List.forall_mem_cons.mp hv
    rw [List.map_cons, List.map_cons, ih hms, hslot.key? hm]

/-! ## What resolution adds -/

/-- The literals given to the queries of a tree. -/
def literalBags : Collector (Option Bindings) where
  facts f := [f.literals]

theorem literalBags_steady {A : Entity → Bool} : literalBags.Steady A where
  source _ h := by
    obtain ⟨rfl, -⟩ := Facts.addSource_eq_ok h
    rfl
  labels _ _ := rfl
  results _ _ := rfl
  paging _ _ := rfl
  returned _ := rfl

theorem collect_literalBags : scopes.Related (fun fs bs => bs = fs.map Facts.literals) literalBags where
  nil := rfl
  append h g := by rw [h, g, List.map_append]
  marker _ := rfl
  named _ := rfl
  facts _ := rfl
  paging h g := by
    subst h g
    exact (List.map_append ..).symm
  returned h := h

theorem Blank.literals {fs : List Facts} (h : Blank fs) : ∀ b ∈ fs.map Facts.literals, b = none := by
  intro b hb
  obtain ⟨f, hf, rfl⟩ := List.mem_map.mp hb
  rw [h f hf]

/-- Whether no filter of a schema has a marker among its tokens. -/
def Schema.hasQuietFilters (s : Schema) : Bool :=
  s.filters.all fun f => match Token.scan f with
    | .ok ts => ts.all fun t => t.kind != .parameter
    | .error _ => true

theorem Schema.quiet_of_mem_filters {s : Schema} (h : s.hasQuietFilters = true) {f : String}
    (hf : f ∈ s.filters) {ts : List Token} (hts : Token.scan f = .ok ts) : Token.Quiet ts := by
  have hall := List.all_eq_true.mp h f hf
  rw [hts] at hall
  intro t ht
  simpa using List.all_eq_true.mp hall t ht

/-- Filters without markers contribute none. -/
theorem silent_filters {s : Schema} (h : s.hasQuietFilters = true) :
    Joins.FiltersGive s.has (fun _ => False) markers := by
  intro e he name rel hrel text htext x hx m hm
  obtain ⟨ts, -, -, hts, -⟩ := Parse.run_eq_ok hx
  have hquiet := Schema.quiet_of_mem_filters h (Schema.mem_filters (of_decide_eq_true he) hrel htext) hts
  rw [(Expr.ofDetached_shaped hx hts fun t _ => Vocabulary.admits_all t).1, hquiet.marksFrom] at hm
  cases hm

/-- Filters bring no literals. -/
theorem plain_filters {A : Entity → Bool} : Joins.FiltersGive A (· = none) literalBags := by
  intro e _ name rel _ text _ x hx
  rw [Expr.collect_related collect_literalBags]
  exact (Expr.ofDetached_blank hx).literals

/-! ## Slots -/

/-- **Slots follow the markers of the text**: there is one for each marker token, in the order of the
tokens, and the caller supplies its value under the number of the `?` or under the name. -/
theorem Compiler.slots_follow_tokens {c : Compiler} {text : String} {a : Artifact}
    (hfilters : c.schema.hasQuietFilters = true)
    (h : c.compileText text = .ok a) :
    ∃ ts, Token.scan text = .ok ts ∧ a.slots.map Slot.key? = (Token.keysFrom 0 ts).map some := by
  obtain ⟨q, hq, h⟩ := compileText_eq_ok h
  obtain ⟨r, sql, hw⟩ := compile_writes h
  obtain ⟨ts, -, -, hts, -⟩ := Parse.run_eq_ok hq
  obtain ⟨hmarks, hshaped⟩ := Query.ofText_shaped hq hts fun t _ => Vocabulary.admits_all t
  have hstrangers : q.collect (strangers c.schema.has) = [] := by
    rw [Query.collect_related collect_strangers]
    exact hshaped.covers.facts.strangers
  obtain ⟨p, hp, hr⟩ := Query.resolve_eq_ok hw.resolved
  have hmarks' : p.collect markers = Token.marksFrom 0 ts := by
    rw [← hmarks]
    exact (hp.grown markers_steady (silent_filters hfilters) (fun _ he => decide_eq_true he)
      hstrangers).1.eq_of_none fun _ => not_false
  have hbags : ∀ b ∈ p.collect literalBags, b = none := by
    refine (hp.grown literalBags_steady plain_filters (fun _ he => decide_eq_true he)
      hstrangers).1.forall_mem (fun _ h => h) ?_
    rw [Query.collect_related collect_literalBags]
    exact hshaped.covers.facts.literals
  have hsupplied : Supplied (· = none) (p.collect scopes) := by
    intro f hf
    refine hbags _ ?_
    rw [Query.collect_related collect_literalBags]
    exact List.mem_map_of_mem hf
  have hnum := Parameters.numbered_query (A := (· = none)) rfl hsupplied hr
  rw [hmarks', hp.slots, (fresh_ofText hq).2] at hnum
  obtain ⟨new, hnew, hfiled, -⟩ := hnum.fresh (Token.marksFrom_fresh ts 0)
  refine ⟨ts, hts, ?_⟩
  rw [hw.slots, hnew, List.nil_append, ← Token.keys_marksFrom]
  exact keys_of_filed (Token.values_marksFrom ts 0) hfiled

/-- People and their bosses, of whom only the active ones are joined. -/
def staff : Schema where
  entities :=
    [{ name := "Person", table := "people"
       properties := [("id", { column := "id", ty := .int }), ("active", { column := "active", ty := .bool }),
         ("boss_id", { column := "boss_id", ty := .int })]
       relations := [("boss", { target := "Person", link := .forward "boss_id"
                                filter := some "active = TRUE" })]
       identifier := ["id"] }]

theorem Compiler.slots_follow_tokens_staff :
    ∃ ts, Token.scan "SELECT p.id FROM Person p JOIN p.boss b WHERE p.id = :x OR b.id IN (?, :x, ?)" = .ok ts
      ∧ [Slot.required (.name "x") (some .int), .required (.position 0) (some .int),
          .required (.name "x") (some .int), .required (.position 1) (some .int)].map Slot.key?
        = (Token.keysFrom 0 ts).map some :=
  slots_follow_tokens (c := ⟨staff, .generic, {}⟩)
    (a := { sql := "SELECT \"p\".\"id\" FROM \"people\" \"p\" INNER JOIN \"people\" \"b\" ON \"b\".\"id\" = \"p\".\"boss_id\" AND \"b\".\"active\" = TRUE WHERE \"p\".\"id\" = ? OR \"b\".\"id\" IN (?, ?, ?)"
            slots := _
            results := [("id", ⟨"id", some .int, false, some "Person.id"⟩)] })
    (by decide +kernel) (by rw [compileText_eq, Query.ofText_ofList]; decide +kernel)

end EntitySql
