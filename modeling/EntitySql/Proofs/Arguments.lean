import Mathlib
import EntitySql.Proofs.Assembled
import EntitySql.Proofs.Counterparts
import EntitySql.Proofs.Slots

/-!
# Arguments and the slots they fill

A draft hands out positions to its values while it is built, and the slots of the compiled query are numbered
much later, in a walk over a query that passes have rewritten. Still the two agree: what the passes splice in
has no positions, and everything else keeps its order.

* `Given.Placed`: what is given in a part of a query has the positions from one number to another.
* `Draft.Builds.placed`: so does all that is given in a built query, and its values are those supplied.
* `Numbered.positions`: slots have the positions of their markers.
* **`Compiler.required_build`**: the positions that a compiled query requires are those of the arguments.
-/

namespace EntitySql

open Outcome

/-! ## Positions -/

/-- The position of a value that is not supplied by name. -/
def ParameterKey.position? : ParameterKey → Option Nat
  | .name _ => none
  | .position i => some i

/-- The position at which a caller supplies the value of a marker. -/
def Mark.position? (m : Mark) : Option Nat := m.key?.bind ParameterKey.position?

/-- The position at which a caller supplies the value of a slot. -/
def Slot.position? (s : Slot) : Option Nat := s.key?.bind ParameterKey.position?

/-- The literals hold no values by position. -/
def NamesOnly (literals : Option Bindings) : Prop := ∀ b, literals = some b → b.positional = []

namespace Given

def position? : Given → Option Nat
  | mark m => m.position?
  | literals _ => none

/-- Nothing here is supplied by position. -/
def Unplaced : Given → Prop
  | mark m => m.position? = none
  | literals b => NamesOnly b

/-- If a marker here is supplied by position, it is so by the caller and has no slot yet. -/
def Open : Given → Prop
  | mark m => m.position? ≠ none → m.ordinal? = none ∧ m.value? = none
  | literals b => NamesOnly b

theorem Unplaced.position? {g : Given} (h : g.Unplaced) : g.position? = none := by
  cases g with
  | mark m => exact h
  | literals b => rfl

theorem Unplaced.isOpen {g : Given} (h : g.Unplaced) : g.Open := by
  cases g with
  | mark m => exact fun hno => absurd h hno
  | literals b => exact h

theorem Spliced.unplaced {g : Given} (h : g.Spliced) : g.Unplaced := by
  match g with
  | mark (.anonymous m) => exact h.elim
  | mark (.named m) => rfl
  | literals b =>
    cases h
    exact nofun

/-- What is given has the positions from `n` on, up to `n'`, in this order. -/
structure Placed (n : Nat) (gs : List Given) (n' : Nat) : Prop where
  positions : gs.filterMap position? = List.range' n (n' - n)
  le : n ≤ n'
  isOpen : ∀ g ∈ gs, g.Open

namespace Placed

variable {n k n' : Nat} {gs hs : List Given}

theorem append (h : Placed n gs k) (h' : Placed k hs n') : Placed n (gs ++ hs) n' where
  positions := by
    have hle := h.le
    have hle' := h'.le
    have hmeet : List.range' k (n' - k) = List.range' (n + 1 * (k - n)) (n' - k) := by
      congr 1
      omega
    have hsum : k - n + (n' - k) = n' - n := by omega
    rw [List.filterMap_append, h.positions, h'.positions, hmeet, List.range'_append, hsum]
  le := h.le.trans h'.le
  isOpen := List.forall_mem_append.mpr ⟨h.isOpen, h'.isOpen⟩

theorem of_unplaced (n : Nat) (h : ∀ g ∈ gs, g.Unplaced) : Placed n gs n where
  positions := by
    rw [Nat.sub_self]
    exact List.filterMap_eq_nil_iff.mpr fun g hg => (h g hg).position?
  le := le_rfl
  isOpen := fun g hg => (h g hg).isOpen

theorem nil (n : Nat) : Placed n [] n := .of_unplaced n (List.forall_mem_nil _)

theorem arguments (n : Nat) : ∀ k, Placed n (collectExprs givens (Expr.arguments n k)) (n + k)
  | 0 => .nil n
  | k + 1 => by
    have hhead : Placed n ((Expr.argument n).collect givens) (n + 1) :=
      ⟨by simp [Expr.argument, Expr.collect, givens, position?, Mark.position?, Mark.key?, Marker.key?,
        ParameterKey.position?], n.le_succ, List.forall_mem_singleton.mpr fun _ => ⟨rfl, rfl⟩⟩
    rw [Expr.arguments_succ, collectExprs, ← Nat.add_assoc, Nat.add_right_comm]
    exact hhead.append (arguments (n + 1) k)

end Placed

end Given

open Given (Placed)

/-! ## Supplied values -/

mutual
/-- The values that a condition entry supplies: the items that a property is looked for in, or what it is
compared with. A test for null supplies none. -/
def Condition.supplied : Condition → List Value
  | .field key v =>
    match v with
    | .null => []
    | .array items =>
      if (Assembly.operator? (Assembly.splitKey (Text.trim key)).2).any CompareOp.isMembership then items
      else [.array items]
    | v => [v]
  | .group entries => suppliedOf entries
  | .raw _ | .connective _ => []
/-- The values that condition entries supply, in order. -/
def suppliedOf : List Condition → List Value
  | [] => []
  | c :: cs => c.supplied ++ suppliedOf cs
end

mutual
/-- What the expressions of condition entries are given. -/
def Condition.given : Condition → List Given
  | .raw e => e.collect givens
  | .group entries => givenIn entries
  | .field _ _ | .connective _ => []
def givenIn : List Condition → List Given
  | [] => []
  | c :: cs => c.given ++ givenIn cs
end

namespace Draft

/-- The values of a draft in the order of the clauses: for an insert those of its rows, each in the order of
the columns of the first, and otherwise those assigned before those of the filters. -/
def supplied (d : Draft) : List Value :=
  match d.statement with
  | .insert => d.rows.flatMap fun row => (Pairs.keys (d.rows.headD [])).filterMap (Pairs.find? · row)
  | _ => d.assignments.map Prod.snd ++ d.filters.flatMap suppliedOf

/-- The expressions among the filters have nothing that is supplied by position. -/
def Unplaced (d : Draft) : Prop := ∀ cs ∈ d.filters, ∀ g ∈ givenIn cs, g.Unplaced

end Draft

mutual
theorem Condition.supplied_tests (c : Condition) : c.tests.flatMap Condition.supplied = c.supplied := by
  cases c with
  | field key v => exact List.append_nil _
  | raw e => rfl
  | group entries =>
    rw [Condition.tests, Condition.supplied]
    exact supplied_testsOf entries
  | connective op => rfl
theorem supplied_testsOf (cs : List Condition) : (testsOf cs).flatMap Condition.supplied = suppliedOf cs := by
  cases cs with
  | nil => rfl
  | cons c cs => rw [testsOf, List.flatMap_append, Condition.supplied_tests c, supplied_testsOf cs, suppliedOf]
end

mutual
theorem Condition.given_of_tests (c : Condition) {e : Expr} (h : .raw e ∈ c.tests) :
    ∀ g ∈ e.collect givens, g ∈ c.given := by
  cases c with
  | field key v => cases List.mem_singleton.mp h
  | raw e' =>
    cases List.mem_singleton.mp h
    exact fun g hg => hg
  | group entries =>
    rw [Condition.given]
    exact given_of_testsOf entries h
  | connective op => cases h
theorem given_of_testsOf (cs : List Condition) {e : Expr} (h : .raw e ∈ testsOf cs) :
    ∀ g ∈ e.collect givens, g ∈ givenIn cs := by
  cases cs with
  | nil => cases h
  | cons c cs =>
    rw [testsOf] at h
    intro g hg
    rcases List.mem_append.mp h with h | h
    · exact List.mem_append_left _ (Condition.given_of_tests c h g hg)
    · exact List.mem_append_right _ (given_of_testsOf cs h g hg)
end

/-! ## Assembled parts -/

namespace Assembly

variable {α β : Type}

/-- Each part places the values that it supplies. -/
theorem Chain.placed {R : Nat → β → α → List Value → Prop} {collect : α → List Given} {values : β → List Value}
    {vs vs' : List Value} {bs : List β} {as : List α} (h : Chain R vs bs as vs')
    (hR : ∀ b ∈ bs, ∀ n a new, R n b a new → Placed n (collect a) (n + new.length) ∧ new = values b) :
    Placed vs.length (as.flatMap collect) vs'.length ∧ vs' = vs ++ bs.flatMap values := by
  induction h with
  | nil => exact ⟨.nil _, (List.append_nil _).symm⟩
  | cons hb _ ih =>
    obtain ⟨hhead, htail⟩ := List.forall_mem_cons.mp hR
    obtain ⟨hplaced, rfl⟩ := hhead _ _ _ hb
    obtain ⟨hrest, hvalues⟩ := ih htail
    rw [List.length_append] at hrest
    refine ⟨?_, by rw [hvalues, List.flatMap_cons, List.append_assoc]⟩
    rw [List.flatMap_cons]
    exact hplaced.append hrest

theorem Tests.placed {n : Nat} {property key : String} {op : CompareOp} {v : Value} {e : Expr} {new : List Value}
    (hop : operator? (splitKey (Text.trim key)).2 = some op) (h : Tests n property op v e new) :
    Placed n (e.collect givens) (n + new.length) ∧ new = (Condition.field key v).supplied := by
  cases h with
  | member hmember =>
    refine ⟨.arguments n _, ?_⟩
    simp only [Condition.supplied, hop, Option.any_some, hmember, if_true]
  | null | notNull => exact ⟨.nil n, rfl⟩
  | value hmember hnull =>
    refine ⟨.append (.nil n) (.append (.arguments n 1) (.nil _)), ?_⟩
    cases v with
    | null => cases hnull
    | array items => simp [Condition.supplied, hop, hmember]
    | _ => rfl

theorem Means.placed {n : Nat} {c : Condition} {e : Expr} {new : List Value} (h : Means n c e new)
    (hraw : ∀ e, c = .raw e → ∀ g ∈ e.collect givens, g.Unplaced) :
    Placed n (e.collect givens) (n + new.length) ∧ new = c.supplied := by
  cases h with
  | field hop htests => exact htests.placed hop
  | raw e => exact ⟨.of_unplaced n (hraw e rfl), rfl⟩

theorem Joined.collect {es : List Expr} {o : Option Expr} (h : Joined es o) :
    collectOpt givens o = es.flatMap (Expr.collect givens) := by
  induction h with
  | nil => rfl
  | single e => exact (List.append_nil _).symm
  | logic op _ _ ihl ihr =>
    rw [List.flatMap_append, ← ihl, ← ihr]
    rfl

theorem RowMeans.placed {columns : List String} {n : Nat} {row : List (String × Value)} {e : Expr}
    {new : List Value} (h : RowMeans columns n row e new) :
    Placed n (e.collect givens) (n + new.length) ∧ new = columns.filterMap (Pairs.find? · row) := by
  obtain ⟨rfl, hcells, -⟩ := h
  refine ⟨.arguments n _, ?_⟩
  induction hcells with
  | nil => rfl
  | cons hv _ ih => exact (congrArg _ ih).trans (List.filterMap_cons_some (f := (Pairs.find? · row)) hv).symm

theorem AssignmentMeans.placed {n : Nat} {pv : String × Value} {a : Assignment} {new : List Value}
    (h : AssignmentMeans n pv a new) :
    Placed n (a.target.collect givens ++ a.value.collect givens) (n + new.length) ∧ new = [pv.2] := by
  obtain ⟨rfl, rfl⟩ := h
  exact ⟨.append (.nil n) (.append (.arguments n 1) (.nil _)), rfl⟩

end Assembly

/-- What is read from a text that is spliced into another query has nothing that is supplied by position. -/
theorem Parse.unplaced_of_detached {α : Type} {p : Rules → Parse α} {shape : α → Prop} {part : α → Expr}
    {text : String} {a : α} (hp : ∀ n, Parse.Builds .all (p (Rules.upTo n)) (fun a => (part a).collect markers) shape)
    (hshape : ∀ a, shape a → (part a).Shaped .all) (h : Parse.detached p text = .ok a) :
    ∀ g ∈ (part a).collect givens, g.Unplaced :=
  fun g hg => (Parse.spliced_of_detached hp hshape h g hg).unplaced

namespace Draft

open Assembly

variable {d : Draft} {vs vs' : List Value}

theorem unplaced_fields {texts : List String} {fs : List ResultField}
    (h : List.Forall₂ (fun text f => Parse.detached Grammar.field text = .ok f) texts fs) :
    ∀ g ∈ collectFields givens fs, g.Unplaced := by
  rw [collectFields_eq]
  induction h with
  | nil => exact List.forall_mem_nil _
  | cons hf _ ih =>
    rw [List.flatMap_cons]
    refine List.forall_mem_append.mpr ⟨?_, ih⟩
    exact Parse.unplaced_of_detached (fun n => Grammar.builds_field (Rules.sound_upTo n)) (fun _ hf => hf.1) hf

theorem unplaced_orders {texts : List String} {os : List OrderItem}
    (h : List.Forall₂ (fun text o => Parse.detached Grammar.order text = .ok o) texts os) :
    ∀ g ∈ collectOrders givens os, g.Unplaced := by
  rw [collectOrders_eq]
  induction h with
  | nil => exact List.forall_mem_nil _
  | cons ho _ ih =>
    rw [List.flatMap_cons]
    refine List.forall_mem_append.mpr ⟨?_, ih⟩
    exact Parse.unplaced_of_detached (fun n => Grammar.builds_order (Rules.sound_upTo n)) (fun _ ho => ho) ho

theorem Pages.unplaced {ordering : List OrderItem} {limit offset : Option Expr} (h : d.Pages ordering limit offset) :
    ∀ g ∈ collectOrders givens ordering ++ (collectOpt givens limit ++ collectOpt givens offset), g.Unplaced := by
  obtain ⟨hordering, rfl, rfl⟩ := h
  have hlimit : ∀ n : Option Nat, collectOpt givens (n.map Expr.rowCount) = [] := by
    rintro (_ | _) <;> rfl
  rw [hlimit, hlimit]
  exact List.forall_mem_append.mpr ⟨unplaced_orders hordering, List.forall_mem_nil _⟩

theorem unplaced_joins {js : List DraftJoin} {xs : List Join} (h : List.Forall₂ DraftJoin.Means js xs) :
    ∀ g ∈ collectJoins givens xs, g.Unplaced := by
  rw [collectJoins_eq]
  induction h with
  | nil => exact List.forall_mem_nil _
  | cons hj _ ih =>
    rw [List.flatMap_cons]
    refine List.forall_mem_append.mpr ⟨?_, ih⟩
    cases hj with
    | written _ he => exact fun g hg => (Expr.spliced_givens he g hg).unplaced
    | related => exact List.forall_mem_nil _

theorem Restricts.placed {o : Option Expr} (h : d.Restricts vs o vs') (hraw : d.Unplaced) :
    Placed vs.length (collectOpt givens o) vs'.length ∧ vs' = vs ++ d.filters.flatMap suppliedOf := by
  obtain ⟨es, hchain, hjoined⟩ := h
  rw [hjoined.collect]
  have hplaced : Placed vs.length (es.flatMap (Expr.collect givens)) vs'.length
      ∧ vs' = vs ++ (d.filters.flatMap testsOf).flatMap Condition.supplied := by
    refine hchain.placed fun c hc n e new hmeans => hmeans.placed ?_
    rintro e rfl g hg
    obtain ⟨cs, hcs, hc⟩ := List.mem_flatMap.mp hc
    exact hraw cs hcs g (given_of_testsOf cs hc g hg)
  rwa [List.flatMap_assoc, funext supplied_testsOf] at hplaced

end Draft

theorem Select.collect_eq {α : Type} {k : Collector α} (s : Select) : s.collect k =
    k.facts s.facts ++ collectFields k s.fields ++ collectOptTable k s.source ++ collectJoins k s.joins
      ++ collectOpt k s.criteria ++ collectExprs k s.grouping ++ collectOpt k s.having
      ++ collectOrders k s.ordering ++ k.paging (collectOpt k s.limit) (collectOpt k s.offset)
      ++ collectUnions k s.unions := by
  cases s
  rfl

namespace Draft

open Assembly

variable {d : Draft} {vs' : List Value}

theorem Selects.placed {s : Select} (h : d.Selects [] s vs') (hraw : d.Unplaced) :
    Placed 0 (s.collect givens) vs'.length ∧ vs' = d.filters.flatMap suppliedOf := by
  obtain ⟨hcriteria, hvalues⟩ := h.criteria.placed hraw
  obtain ⟨hgrouping, hhaving, hunions, hfacts⟩ := h.rest
  have hbefore : ∀ g ∈ givens.facts s.facts ++ collectFields givens s.fields ++ collectOptTable givens s.source
      ++ collectJoins givens s.joins, g.Unplaced := by
    rw [h.source, hfacts]
    refine List.forall_mem_append.mpr ⟨List.forall_mem_append.mpr ⟨List.forall_mem_append.mpr ⟨?_, ?_⟩, ?_⟩, ?_⟩
    · exact List.forall_mem_singleton.mpr nofun
    · rcases h.fields with ⟨-, hall⟩ | hfields
      · rw [hall]
        exact List.forall_mem_nil _
      · exact unplaced_fields hfields
    · exact List.forall_mem_nil _
    · exact unplaced_joins h.joins
  refine ⟨?_, hvalues⟩
  rw [Select.collect_eq, hgrouping, hhaving, hunions, givens_paging]
  simp only [collectExprs, collectOpt, collectUnions, List.append_nil]
  rw [List.append_assoc (_ ++ collectOpt givens s.criteria)]
  exact ((Placed.of_unplaced 0 hbefore).append hcriteria).append (.of_unplaced _ h.pages.unplaced)

theorem Inserts.placed {x : Insert} (h : d.Inserts [] x vs') :
    Placed 0 (x.collect givens) vs'.length
      ∧ vs' = d.rows.flatMap fun row => (Pairs.keys (d.rows.headD [])).filterMap (Pairs.find? · row) := by
  obtain ⟨first, rest, rows, hrows, hcolumns, hsource, hchain⟩ := h.rows
  obtain ⟨hplaced, hvalues⟩ : Placed 0 (collectExprs givens rows) vs'.length
      ∧ vs' = d.rows.flatMap fun row => (Pairs.keys first).filterMap (Pairs.find? · row) := by
    rw [collectExprs_eq]
    exact hchain.placed fun _ _ _ _ _ hrow => hrow.placed
  have hbefore : ∀ g ∈ givens.facts x.facts ++ x.table.collect givens ++ collectExprs givens x.columns,
      g.Unplaced := by
    have hnames : ∀ names : List String, collectExprs givens (names.map Expr.name) = [] := by
      intro names
      rw [collectExprs_eq]
      exact List.flatMap_eq_nil_iff.mpr fun e he => by
        obtain ⟨name, -, rfl⟩ := List.mem_map.mp he
        rfl
    rw [h.facts, h.table, hcolumns, hnames, List.append_nil]
    exact List.forall_mem_singleton.mpr nofun
  refine ⟨?_, by rw [hvalues, hrows, List.headD_cons]⟩
  rw [Insert.collect, hsource, InsertSource.collect, givens_returned]
  exact ((Placed.of_unplaced 0 hbefore).append hplaced).append (.of_unplaced _ (unplaced_fields h.returning))

theorem Updates.placed {x : Update} (h : d.Updates [] x vs') (hraw : d.Unplaced) :
    Placed 0 (x.collect givens) vs'.length
      ∧ vs' = d.assignments.map Prod.snd ++ d.filters.flatMap suppliedOf := by
  obtain ⟨us, hchain, hcriteria⟩ := h.clauses
  obtain ⟨hassigned, rfl⟩ : Placed 0 (x.assignments.flatMap fun a => a.target.collect givens ++ a.value.collect givens)
      us.length ∧ us = [] ++ d.assignments.flatMap fun pv => [pv.2] :=
    hchain.placed fun _ _ _ _ _ ha => ha.placed
  obtain ⟨hrestricted, hvalues⟩ := hcriteria.placed hraw
  have hbefore : ∀ g ∈ givens.facts x.facts ++ x.table.collect givens, g.Unplaced := by
    rw [h.facts, h.table]
    exact List.forall_mem_singleton.mpr nofun
  refine ⟨?_, by rw [hvalues, List.nil_append, List.map_eq_flatMap]⟩
  rw [Update.collect, collectAssignments_eq, givens_paging, List.append_assoc (_ ++ collectOpt givens x.criteria)]
  exact (((Placed.of_unplaced 0 hbefore).append hassigned).append hrestricted).append
    (.of_unplaced _ h.pages.unplaced)

theorem Deletes.placed {x : Delete} (h : d.Deletes [] x vs') (hraw : d.Unplaced) :
    Placed 0 (x.collect givens) vs'.length ∧ vs' = d.filters.flatMap suppliedOf := by
  obtain ⟨hrestricted, hvalues⟩ := h.criteria.placed hraw
  have hbefore : ∀ g ∈ givens.facts x.facts ++ x.table.collect givens, g.Unplaced := by
    rw [h.facts, h.table]
    exact List.forall_mem_singleton.mpr nofun
  refine ⟨?_, hvalues⟩
  rw [Delete.collect, givens_paging, List.append_assoc (_ ++ collectOpt givens x.criteria)]
  exact ((Placed.of_unplaced 0 hbefore).append hrestricted).append (.of_unplaced _ h.pages.unplaced)

/-- **A built query has the positions of its arguments**, which are the values supplied. -/
theorem Builds.placed {q : Query} (h : d.Builds [] q vs') (hraw : d.Unplaced) :
    Placed 0 (q.collect givens) vs'.length ∧ vs' = d.supplied ∧ q.facts = {} := by
  unfold supplied
  cases h with
  | select hstatement hs =>
    obtain ⟨hplaced, hvalues⟩ := hs.placed hraw
    rw [hstatement, hs.assignments]
    exact ⟨hplaced, hvalues, hs.rest.2.2.2⟩
  | insert hstatement hi =>
    obtain ⟨hplaced, hvalues⟩ := hi.placed
    rw [hstatement]
    exact ⟨hplaced, hvalues, hi.facts⟩
  | update hstatement hu =>
    obtain ⟨hplaced, hvalues⟩ := hu.placed hraw
    rw [hstatement]
    exact ⟨hplaced, hvalues, hu.facts⟩
  | delete hstatement hx =>
    obtain ⟨hplaced, hvalues⟩ := hx.placed hraw
    rw [hstatement, hx.assignments]
    exact ⟨hplaced, hvalues, hx.facts⟩

end Draft

/-! ## Slots -/

theorem Grown.positions {K : Given → Prop} {gs hs : List Given} (h : Grown K gs hs) (hK : ∀ g, K g → g.Unplaced) :
    hs.filterMap Given.position? = gs.filterMap Given.position? := by
  induction h with
  | nil => rfl
  | keep g _ ih => rw [List.filterMap_cons, List.filterMap_cons, ih]
  | insert hg _ ih => rw [List.filterMap_cons_none (hK _ hg).position?, ih]

/-- A slot has the position of its marker, unless literals give the marker a value. -/
theorem Mark.Filed.position? {m : Mark} {slot : Slot} (h : m.Filed NamesOnly slot) (hm : (Given.mark m).Open) :
    slot.position? = m.position? := by
  obtain ⟨literals, hint, filled, hnames, hfill, hslot⟩ := h
  have hvalue : (m.typed hint).value = m.value? := by
    cases m <;> cases hint <;> rfl
  have hkey : (m.typed hint).key? = m.key? := by
    cases m <;> cases hint <;> rfl
  have hfilled : filled.key? = m.key? := by
    unfold Marker.fill at hfill
    split at hfill
    · obtain ⟨v, -, hfill⟩ := bind_eq_ok.mp hfill
      cases pure_eq_ok.mp hfill
      exact hkey
    · cases pure_eq_ok.mp hfill
      exact hkey
  unfold Marker.slot at hslot
  rw [hfilled] at hslot
  cases hposition : m.position? with
  | none =>
    rw [Mark.position?] at hposition
    split at hslot
    · cases hslot
      rfl
    · next hk =>
      cases hslot
      rwa [hk] at hposition
    · cases hslot
  | some i =>
    obtain ⟨-, hnone⟩ := hm (by rw [hposition]; exact Option.some_ne_none i)
    have hk : m.key? = some (.position i) := by
      rw [Mark.position?] at hposition
      match hkey : m.key? with
      | none => rw [hkey] at hposition; cases hposition
      | some (.name _) => rw [hkey] at hposition; cases hposition
      | some (.position j) =>
        rw [hkey] at hposition
        cases hposition
        rfl
    have hempty : filled.value = none := by
      unfold Marker.fill at hfill
      rw [hvalue, hnone] at hfill
      cases literals with
      | none =>
        cases hfill
        rw [hvalue, hnone]
      | some b =>
        simp only [Marker.known, hkey, hk, Bindings.get?, hnames b rfl] at hfill
        cases hfill
        rfl
    rw [hempty, hk] at hslot
    cases hslot
    rfl

/-- **Slots have the positions of their markers.** -/
theorem Numbered.positions {ms ms' : List Mark} {s s' : List Slot} (h : Numbered NamesOnly ms ms' s s')
    (hms : ∀ m ∈ ms, (Given.mark m).Open) :
    s'.filterMap Slot.position? = s.filterMap Slot.position? ++ ms.filterMap Mark.position? := by
  induction h with
  | nil => rw [List.filterMap_nil, List.append_nil]
  | @old m _ _ _ _ _ hm _ _ ih =>
    obtain ⟨hopen, hms⟩ := List.forall_mem_cons.mp hms
    -- a marker that has a slot already has no position
    have hno : m.position? = none := by
      by_contra hno
      rw [(hopen hno).1] at hm
      cases hm
    rw [ih hms, List.filterMap_cons_none hno]
  | @new m _ _ _ _ _ slot _ _ hslot _ ih =>
    obtain ⟨hopen, hms⟩ := List.forall_mem_cons.mp hms
    rw [ih hms, List.filterMap_append, List.append_assoc, List.filterMap_cons, List.filterMap_cons,
      hslot.position? hopen]
    cases m.position? <;> rfl

theorem ParameterKey.describe_name_ne (n : String) (i : Nat) : (name n).describe ≠ (position i).describe := by
  intro h
  have hhead := congrArg (fun s : String => s.toList.head?) h
  simp [describe] at hhead

/-- Binding fails only for want of a value that a slot requires. -/
theorem Artifact.bind_eq_error {a : Artifact} {bs : Bindings} {e : QueryError} (h : a.bind bs = .error e) :
    ∃ key ∈ a.required, bs.get? key = none ∧ e = .missingParameter key.describe := by
  obtain ⟨slot, hslot, hbind⟩ := exists_of_mapM_error h
  cases slot with
  | fixed v ty => cases hbind
  | required key ty =>
    refine ⟨key, List.mem_filterMap.mpr ⟨_, hslot, rfl⟩, ?_⟩
    cases hget : bs.get? key with
    | some v =>
      simp only [Slot.bind, hget] at hbind
      cases hbind
    | none =>
      simp only [Slot.bind, hget] at hbind
      cases hbind
      exact ⟨rfl, rfl⟩

namespace Compiler

/-- **The positions that a compiled query requires are those of the arguments**, in their order, and the
arguments are the values that the draft was supplied with. So only names can be missing when it is bound. -/
theorem required_build {c : Compiler} {d : Draft} {b : Built} {a : Artifact} (hraw : d.Unplaced)
    (hb : d.build = .ok b) (ha : c.compile b.query = .ok a) :
    a.required.filterMap ParameterKey.position? = List.range b.arguments.length ∧ b.arguments = d.supplied
      ∧ ∀ bs : Bindings, bs.positional = b.arguments → ∀ e, a.bind bs = .error e →
        (∃ n, ParameterKey.name n ∈ a.required ∧ bs.get? (.name n) = none
          ∧ e = .missingParameter (ParameterKey.name n).describe)
        ∧ ∀ i, e ≠ .missingParameter (ParameterKey.position i).describe := by
  obtain ⟨hplaced, hvalues, hfacts⟩ := (Draft.build_eq_ok hb).placed hraw
  obtain ⟨r, sql, hw⟩ := compile_writes ha
  obtain ⟨p, hp, hr⟩ := Query.resolve_eq_ok hw.resolved
  have hgrown := (hp.grown givens_steady spliced_filters (fun _ _ => rfl) (strangers_none _)).1
  have hopen : ∀ g ∈ p.collect givens, g.Open :=
    hgrown.forall_mem (fun g hg => hg.unplaced.isOpen) hplaced.isOpen
  have hmarks := Query.collect_related marks_givens p
  have hsupplied : Supplied NamesOnly (p.collect scopes) := by
    intro f hf
    have hmem : f.literals ∈ (p.collect givens).filterMap Given.literals? := by
      rw [Query.collect_related literals_givens p]
      exact List.mem_map_of_mem hf
    obtain ⟨g, hg, hliterals⟩ := List.mem_filterMap.mp hmem
    cases g with
    | mark m => cases hliterals
    | literals bag =>
      cases hliterals
      exact hopen _ hg
  have hpositions : a.slots.filterMap Slot.position? = List.range b.arguments.length := by
    have hnumbered := (Parameters.numbered_query nofun hsupplied hr).positions fun m hm => by
      rw [← hmarks] at hm
      obtain ⟨g, hg, hmark⟩ := List.mem_filterMap.mp hm
      cases g with
      | mark m =>
        cases hmark
        exact hopen _ hg
      | literals bag => cases hmark
    rw [hw.slots, hnumbered, hp.slots, hfacts, ← hmarks, List.filterMap_filterMap]
    have hplain : (fun g : Given => g.mark?.bind Mark.position?) = Given.position? := by
      funext g
      cases g <;> rfl
    rw [hplain, hgrown.positions fun g hg => hg.unplaced, hplaced.positions, Nat.sub_zero, List.range_eq_range']
    rfl
  have hrequired : a.required.filterMap ParameterKey.position? = List.range b.arguments.length := by
    rw [Artifact.required, List.filterMap_filterMap]
    exact hpositions
  refine ⟨hrequired, hvalues, fun bs hbs e he => ?_⟩
  obtain ⟨key, hkey, hnone, rfl⟩ := Artifact.bind_eq_error he
  cases key with
  | name n =>
    refine ⟨⟨n, hkey, hnone, rfl⟩, fun i hi => ?_⟩
    exact ParameterKey.describe_name_ne n i (QueryError.missingParameter.inj hi)
  | position i =>
    -- a position that is required is one of the arguments
    have hmem : i ∈ a.required.filterMap ParameterKey.position? := List.mem_filterMap.mpr ⟨_, hkey, rfl⟩
    rw [hrequired, List.mem_range] at hmem
    rw [Bindings.get?, hbs, List.getElem?_eq_getElem hmem] at hnone
    cases hnone

/-- People and their bosses, found by values, by the lack of one and by an expression. -/
def bossSearch : Draft where
  statement := .select
  entity := "Person"
  label := some "p"
  fields := ["p.id", "b.id AS boss"]
  joins := [⟨.inner, "p.boss", some "b", none⟩]
  filters :=
    [[.field "p.id IN" (.array [.int 4, .int 9]), .connective .or,
        .group [.field "b.boss_id" .null, .raw (.compare .gt (.name "b.id") (.named { name := "least" }))]],
      [.field "p.active" (.bool true)]]
  ordering := ["b.id DESC"]

theorem required_build_bossSearch : ∃ b a, bossSearch.build = .ok b
    ∧ compile ⟨staff, .postgres, {}⟩ b.query = .ok a ∧ b.arguments = [.int 4, .int 9, .bool true]
    ∧ a.required = [.position 0, .position 1, .name "least", .position 2]
    ∧ a.required.filterMap ParameterKey.position? = List.range b.arguments.length
    ∧ b.arguments = bossSearch.supplied := by
  obtain ⟨b, hb, hview⟩ := bind_eq_ok.mp
    (show (bossSearch.build >>= fun b =>
        (fun a => (b.arguments, a.required)) <$> compile ⟨staff, .postgres, {}⟩ b.query)
      = .ok ([.int 4, .int 9, .bool true], [.position 0, .position 1, .name "least", .position 2]) by
      decide +kernel)
  obtain ⟨a, ha, hview⟩ := map_eq_ok.mp hview
  have hraw : bossSearch.Unplaced := by
    simp [Draft.Unplaced, bossSearch, givenIn, Condition.given, Expr.collect, givens, Expr.name, Given.Unplaced,
      Mark.position?, Mark.key?, ParameterKey.position?]
  obtain ⟨hrequired, hsupplied, -⟩ := required_build hraw hb ha
  exact ⟨b, a, hb, ha, congrArg Prod.fst hview, congrArg Prod.snd hview, hrequired, hsupplied⟩

end Compiler

end EntitySql
