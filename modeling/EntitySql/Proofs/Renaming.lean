import Mathlib
import EntitySql.Proofs.Counterparts
import EntitySql.Proofs.Slots

/-!
# Names in the place of numbers

A query whose `?` are given names is compiled as before: only the keys of its slots are other ones. A name
takes a way of its own through the numbering, as it is replaced by an anonymous marker that remembers it,
but the type that it takes from the field beside it, and its place among the slots, are those of the `?`.

* **`Compiler.compile_renamed`**: compilation commutes with the renaming.
-/

namespace EntitySql

open Outcome Parameters

variable (f : Nat → String)

/-! ## Renaming -/

/-- A `?` as the name of its number. What is no `?` as it is read from a text stays. -/
def Mark.renamed : Mark → Mark
  | .anonymous ⟨some i, none, none, none, none, none⟩ => .named { name := f i }
  | m => m

/-- The query with a name in the place of every `?`. -/
def Query.renamed (q : Query) : Query := q.recast { mark := Mark.renamed f }

def ParameterKey.renamed : ParameterKey → ParameterKey
  | position i => name (f i)
  | name n => name n

def Slot.renamed : Slot → Slot
  | required key ty => required (key.renamed f) ty
  | fixed v ty => fixed v ty

/-- The compiled query with other keys: SQL, result columns and the statement for a generated key stay, and
so do number, order and types of the slots. -/
def Artifact.renamed (a : Artifact) : Artifact := { a with slots := a.slots.map (Slot.renamed f) }

/-! ## Markers -/

theorem Mark.typed?_renamed (m : Mark) (scopes : List Facts) :
    (m.renamed f).expr.typed? scopes = m.expr.typed? scopes := by
  unfold renamed
  split <;> rfl

theorem hidden_renamed : Recast.Hidden { mark := Mark.renamed f } where
  typed := Mark.typed?_renamed f
  named _ := rfl
  unsupplied := rfl

/-- A name is typed by the field beside it as a `?` is, and takes the same slot but for the key. -/
theorem mirrored_renamed {g : Given} (h : g.Fresh) :
    Mirrored (fun s => pure (s.renamed f)) {} { mark := Mark.renamed f } none none g := by
  match g with
  | .mark (.anonymous m) =>
    obtain ⟨i, rfl⟩ := h
    intro hint
    cases hint with
    | none => exact mirrors_number rfl rfl
    | some r => exact mirrors_number rfl rfl
  | .mark (.named ⟨name, ty⟩) =>
    intro hint
    cases hint with
    | none => exact mirrors_number rfl rfl
    | some r => exact mirrors_number rfl rfl
  | .literals b =>
    obtain rfl : b = none := h
    exact ⟨rfl, rfl⟩

/-! ## Compilation -/

namespace Compiler

variable {c : Compiler} {f}

/-- A prepared query and the renamed one come to the same end. -/
theorem conclude_renamed {p : Query} (hslots : p.facts.slots = []) (hliterals : p.facts.literals = none)
    (hfresh : ∀ g ∈ p.collect givens, g.Fresh) (a' : Artifact) :
    c.conclude (p.renamed f) = .ok a' ↔ ∃ a, c.conclude p = .ok a ∧ a' = a.renamed f := by
  have hall : AllMirrored (fun s => pure (s.renamed f)) {} { mark := Mark.renamed f } p.facts.literals
      p.facts.literals (p.collect givens) := by
    rw [hliterals]
    exact fun g hg => mirrored_renamed f (hfresh g hg)
  have hmirror := c.mirrors_conclude hslots hall
  rw [Query.recast_id] at hmirror
  cases hp : c.conclude p with
  | error e =>
    rw [hp] at hmirror
    obtain ⟨e', he'⟩ := hmirror
    rw [Query.renamed, he']
    exact ⟨nofun, fun ⟨_, h, _⟩ => nomatch h⟩
  | ok a =>
    rw [hp] at hmirror
    simp only [List.mapM_pure] at hmirror
    replace hmirror : c.conclude (p.renamed f) = .ok (a.renamed f) := hmirror
    rw [hmirror]
    constructor
    · rintro ⟨⟩
      exact ⟨a, rfl, rfl⟩
    · rintro ⟨_, ⟨⟩, rfl⟩
      rfl

/-- **Numbers and names are compiled alike**: renaming the `?` of a query renames the keys of its slots, and
nothing else of what is compiled. Neither does one compile where the other does not. -/
theorem compile_renamed {text : String} {q : Query} (hq : Query.ofText text = .ok q) (a' : Artifact) :
    c.compile (q.renamed f) = .ok a' ↔ ∃ a, c.compile q = .ok a ∧ a' = a.renamed f := by
  have hconclude : ∀ p, q.Prepares c.naming p →
      (c.conclude (p.renamed f) = .ok a' ↔ ∃ a, c.conclude p = .ok a ∧ a' = a.renamed f) := by
    intro p hp
    refine conclude_renamed ?_ ?_ (hp.forall_given (fun _ => Given.fresh_of_spliced) (Query.fresh_givens hq)) a'
    · rw [hp.slots, Query.facts_ofText hq]
    · rw [hp.literals, Query.facts_ofText hq]
  constructor
  · intro h
    obtain ⟨p', hp', hp'a⟩ := prepares_of_compile h
    obtain ⟨p, hp, rfl⟩ := Query.prepares_of_recast (hidden_renamed f) hp'
    rw [compile_of_prepares hp]
    exact (hconclude p hp).mp hp'a
  · rintro ⟨a, h, ha⟩
    obtain ⟨p, hp, hpa⟩ := prepares_of_compile h
    have hp' : (q.renamed f).Prepares c.naming (p.renamed f) := Query.prepares_recast (hidden_renamed f) hp
    rw [compile_of_prepares hp']
    exact (hconclude p hp).mpr ⟨a, hpa, ha⟩

/-- Numbers in a list, below a join with a filter and in a subquery, and a name beside them. -/
def bossesText : String :=
  "SELECT p.id FROM Person p INNER JOIN p.boss b WHERE p.id IN (?, :me) AND b.active = ? AND p.boss_id = (SELECT q.id FROM Person q WHERE q.id > ?)"

def bossesNames : Nat → String
  | 0 => "first"
  | 1 => "state"
  | _ => "least"

def bossesNamedText : String :=
  "SELECT p.id FROM Person p INNER JOIN p.boss b WHERE p.id IN (:first, :me) AND b.active = :state AND p.boss_id = (SELECT q.id FROM Person q WHERE q.id > :least)"

def bosses : Artifact where
  sql := "SELECT `p`.`id` FROM `people` `p` INNER JOIN `people` `b` ON `b`.`id` = `p`.`boss_id` AND `b`.`active` = 1 WHERE `p`.`id` IN (?, ?) AND `b`.`active` = ? AND `p`.`boss_id` = (SELECT `q`.`id` FROM `people` `q` WHERE `q`.`id` > ?)"
  slots := [.required (.position 0) (some .int), .required (.name "me") (some .int),
    .required (.position 1) (some .bool), .required (.position 2) (some .int)]
  results := [("id", ⟨"id", some .int, false, some "Person.id"⟩)]

theorem compile_renamed_bosses : ∃ q, Query.ofText bossesText = .ok q
    ∧ (q.renamed bossesNames).text = bossesNamedText
    ∧ compile ⟨staff, .mysql, {}⟩ q = .ok bosses
    ∧ compile ⟨staff, .mysql, {}⟩ (q.renamed bossesNames) = .ok { bosses with
        slots := [.required (.name "first") (some .int), .required (.name "me") (some .int),
          .required (.name "state") (some .bool), .required (.name "least") (some .int)] } := by
  have hread : (fun q => (q.renamed bossesNames).text) <$> Query.ofText bossesText = .ok bossesNamedText
      ∧ compileText ⟨staff, .mysql, {}⟩ bossesText = .ok bosses := by
    rw [compileText_eq, bossesText, Query.ofText_ofList]
    decide +kernel
  obtain ⟨q, hq, htext⟩ := map_eq_ok.mp hread.1
  obtain ⟨q', hq', ha⟩ := compileText_eq_ok hread.2
  obtain rfl : q' = q := Except.ok.inj (hq'.symm.trans hq)
  exact ⟨q', hq, htext, ha, (compile_renamed hq _).mpr ⟨bosses, ha, rfl⟩⟩

end Compiler

end EntitySql
