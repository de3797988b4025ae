import Mathlib
import EntitySql.Proofs.Parsed
import EntitySql.Query.Equality

/-!
# The right side of membership tests

After `IN` a list or a subquery in parentheses is read. It is an operand like others from there on: an
arithmetic operator that follows it binds tighter than the test and takes it for its left operand. So what
stands on the right of a membership test is that list or subquery, or an arithmetic expression that starts
with it (`Expr.lead`).

* `Vocabulary.Covers.isGroup_lead`: so it is in every tree of the shape that is read from a text.
* **`Grammar.isGroup_lead_memberships`**: the right side of each membership test starts with a list or a subquery.
-/

namespace EntitySql

/-! ## What a membership test starts with -/

/-- The operand that an arithmetic expression starts with. -/
def Expr.lead : Expr → Expr
  | .arith _ l _ => l.lead
  | e => e

variable {V : Vocabulary}

theorem Expr.Member.isGroup_lead (e : Expr) (h : e.Member V) : e.lead.isGroup = true := by
  cases e with
  | list | subquery => rfl
  | arith _ l _ => exact Expr.Member.isGroup_lead l h.1
  | _ => cases h

/-- So it is for each membership test inside a shaped tree. -/
theorem Vocabulary.Covers.isGroup_lead {es : List Expr} {ss : List Select} {fs : List Facts} (h : V.Covers es ss fs)
    (op : CompareOp) (l r : Expr) (hmem : .compare op l r ∈ es) (hop : op.isMembership = true) :
    r.lead.isGroup = true := by
  rcases h.exprs _ hmem with hshaped | hmember | ⟨_, hrow, -⟩
  · exact Expr.Member.isGroup_lead r (hshaped.2.2 hop).1
  · cases hmember
  · cases hrow

/-! ## Texts -/

/-- The readers of statements: of a whole query, and of each kind of statement with whatever follows it. -/
def Grammar.statements : List (Rules → Parse Query) :=
  [query, fun r => .select <$> select r, fun r => .insert <$> insert r, fun r => .update <$> update r,
    fun r => .delete <$> delete r]

/-- What a reader builds from the start of a text has the shape that it builds. -/
theorem Parse.Builds.run {α : Type} {p : Rules → Parse α} {marks : α → List Mark} {shape : α → Prop}
    (hp : ∀ n, Builds .all (p (Rules.upTo n)) marks shape) {text : String} {a : α}
    (h : Parse.run (Parse.nested p) text = .ok a) : shape a := by
  obtain ⟨ts, c, d, -, -, hsent, -, hrun⟩ := Parse.run_eq_ok h
  obtain ⟨-, -, -, hshape⟩ := Parse.Yields.nested hp c ⟨fun t _ => Vocabulary.admits_all t, hsent⟩ a d hrun
  exact hshape

theorem Grammar.builds_statement {p : Rules → Parse Query} (hp : p ∈ statements) {r : Rules}
    (h : r.Sound V) : Parse.Builds V (p r) (Query.collect markers) (Query.Shaped V) := by
  simp only [statements, List.mem_cons, List.not_mem_nil, or_false] at hp
  rcases hp with rfl | rfl | rfl | rfl | rfl
  · exact builds_query h
  · exact .map (builds_select h)
  · exact .map (builds_insert h)
  · exact .map (builds_update h)
  · exact .map (builds_delete h)

theorem Expr.run_of_ofText {text : String} {e : Expr} (h : Expr.ofText text = .ok e) :
    Parse.run (Parse.nested Grammar.expr) text = .ok e := by
  unfold Expr.ofText Parse.run at *
  split at h
  · cases h
  · next c hc =>
    split at h <;> cases h
    next d hd =>
    obtain ⟨_, d', he, hd⟩ := Outcome.read_bind_eq_ok.mp hd
    obtain ⟨_, _, -, hd⟩ := Outcome.read_bind_eq_ok.mp hd
    cases hd
    rw [he]

/-- **The right side of each membership test starts with a list or a subquery**: it is one, or an arithmetic
expression of which one is the leftmost operand. This holds for every expression and every statement that is
read from a text, at every depth. -/
theorem Grammar.isGroup_lead_memberships (text : String) :
    (∀ e, Expr.ofText text = .ok e → ∀ op l r, .compare op l r ∈ e.nodes → op.isMembership = true →
      r.lead.isGroup = true)
    ∧ (∀ p ∈ statements, ∀ q, Parse.run (Parse.nested p) text = .ok q → ∀ op l r,
      .compare op l r ∈ q.nodes → op.isMembership = true → r.lead.isGroup = true) := by
  constructor
  · intro e he
    have hshaped : e.Shaped .all :=
      Parse.Builds.run (fun n => builds_expr (Rules.sound_upTo n)) (Expr.run_of_ofText he)
    exact (Expr.Shaped.covers e hshaped).isGroup_lead
  · intro p hp q hq
    have hshaped : q.Shaped .all :=
      Parse.Builds.run (fun n => builds_statement hp (Rules.sound_upTo n)) hq
    exact hshaped.covers.isGroup_lead

/-- A sum with a list on its left, which no membership test asks for. -/
def listSum : Expr := .arith .add (.list [.literal (.int 1)]) (.literal (.int 2))

/-- What is added after the list becomes a part of the right side, which is no list then. -/
theorem Grammar.ungrouped_sum : Expr.ofText "id IN (1) + 2" = .ok (.compare .oneOf (.name "id") listSum)
    ∧ .compare .oneOf (.name "id") listSum ∈ (Expr.compare .oneOf (.name "id") listSum).nodes
    ∧ CompareOp.oneOf.isMembership = true ∧ listSum.isGroup = false :=
  ⟨by decide +kernel, List.mem_cons_self, rfl, rfl⟩

end EntitySql
