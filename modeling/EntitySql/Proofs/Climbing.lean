import Mathlib
import EntitySql.Proofs.Folding

/-!
# The tree of a flat expression

Many trees of operators have the same reading from left to right, but only one of them binds in
order, and folding in place gives that one. It is grown from the left: a further operator climbs
down the right edge to the first branch that binds at least as tight, and takes it as its left branch.

* `Fork.ordered_grown`, `Fork.flat_grown`: what is grown from a flat expression binds in order and
  reads like it.
* `Fork.grown_flat`: a tree that binds in order is grown from its own reading, so that it is the only one.
* `Buffer.collapse?_reading`: folding in place gives this tree.
-/

namespace EntitySql

/-! ## Readings -/

/-- Two lists in turn, starting with the first. -/
def alternate {α β : Type} : List α → List β → List (α ⊕ β)
  | a :: as, b :: bs => .inl a :: .inr b :: alternate as bs
  | as, _ => as.map .inl

/-- The operands and the operators between them, from left to right. -/
def Buffer.reading (b : Buffer) : List (Expr ⊕ Operator) := alternate b.operands b.operators

/-- The operands and operators of a tree, from left to right. -/
def Fork.reading {α : Type} : Fork α → List (α ⊕ Operator)
  | operand a => [.inl a]
  | node op l r => l.reading ++ .inr op :: r.reading

namespace Flat

/-- The operands and operators of a flat expression, from left to right. -/
def reading (f : Flat) : List (Expr ⊕ Operator) :=
  .inl f.head :: f.steps.flatMap fun s => [.inr s.1, .inl s.2]

theorem reading_buffer (f : Flat) : f.buffer.reading = f.reading := by
  obtain ⟨head, steps⟩ := f
  induction steps generalizing head with
  | nil => rfl
  | cons s steps ih => exact congrArg (fun es => .inl head :: .inr s.1 :: es) (ih s.2)

theorem reading_injective {f g : Flat} (h : f.reading = g.reading) : f = g := by
  obtain ⟨head, steps⟩ := f
  obtain ⟨head', steps'⟩ := g
  induction steps generalizing head head' steps' with
  | nil =>
    cases steps' with
    | nil => cases h; rfl
    | cons s' steps' => cases h
  | cons s steps ih =>
    cases steps' with
    | nil => cases h
    | cons s' steps' =>
      simp only [reading, List.flatMap_cons, List.cons_append, List.nil_append, List.cons.injEq,
        Sum.inl.injEq, Sum.inr.injEq] at h
      obtain ⟨rfl, hop, hright⟩ := h
      have htail := ih s.2 s'.2 steps' (by simp only [reading, hright])
      simp only [Flat.mk.injEq, List.cons.injEq, true_and] at htail ⊢
      exact ⟨Prod.ext hop htail.1, htail.2⟩

/-- One operand more than operators makes a flat expression. -/
theorem exists_buffer {b : Buffer} (h : b.operands.length = b.operators.length + 1) :
    ∃ f : Flat, f.buffer = b := by
  obtain ⟨operands, operators⟩ := b
  obtain ⟨head, rights, rfl⟩ := List.exists_cons_of_length_eq_add_one h
  have hlength : operators.length = rights.length := (Nat.succ.inj h).symm
  refine ⟨⟨head, operators.zip rights⟩, ?_⟩
  rw [buffer, List.map_snd_zip hlength.ge, List.map_fst_zip hlength.le]

end Flat

namespace Fork

variable {α : Type}

theorem reading_flat (t : Fork Expr) : t.reading = t.flat.reading := by
  induction t with
  | operand e => rfl
  | node op l r ihl ihr => simp [reading, ihl, ihr, flat, Flat.reading, head, steps]

/-! ## Growing a tree -/

/-- The tree with an operator and its right operand put to its right end. -/
def grow : Fork α → Operator × α → Fork α
  | operand a, s => node s.1 (operand a) (operand s.2)
  | node op l r, s =>
    if s.1.precedence ≤ op.precedence then node s.1 (node op l r) (operand s.2)
    else node op l (r.grow s)

/-- The tree grown from a flat expression. -/
def grown (f : Flat) : Fork Expr := f.steps.foldl grow (operand f.head)

theorem head_grow (t : Fork α) (s : Operator × α) : (t.grow s).head = t.head := by
  cases t with
  | operand a => rfl
  | node op l r =>
    rw [grow]
    split <;> rfl

theorem steps_grow (t : Fork α) (s : Operator × α) : (t.grow s).steps = t.steps ++ [s] := by
  induction t with
  | operand a => rfl
  | node op l r _ ihr =>
    rw [grow]
    split
    · rfl
    · simp only [steps, ihr, head_grow, List.append_assoc, List.cons_append]

theorem root?_grow {t : Fork α} {s : Operator × α} {o : Operator}
    (h : (t.grow s).root? = some o) : o = s.1 ∨ t.root? = some o := by
  cases t with
  | operand a => exact .inl (Option.some.inj h).symm
  | node op l r =>
    rw [grow] at h
    split at h
    · exact .inl (Option.some.inj h).symm
    · exact .inr h

theorem Ordered.grow {t : Fork α} (h : t.Ordered) (s : Operator × α) : (t.grow s).Ordered := by
  induction t with
  | operand a => simp [Fork.grow, Ordered, root?]
  | node op l r _ ihr =>
    obtain ⟨hl, hr, hleft, hright⟩ := h
    rw [Fork.grow]
    split
    · next hle =>
      refine ⟨⟨hl, hr, hleft, hright⟩, trivial, ?_, by simp [root?]⟩
      rintro _ ⟨⟩
      exact hle
    · next hlt =>
      refine ⟨hl, ihr hr, hleft, fun o ho => ?_⟩
      rcases root?_grow ho with rfl | ho
      · exact Nat.lt_of_not_le hlt
      · exact hright o ho

theorem flat_foldl_grow (steps : List (Operator × Expr)) : ∀ t : Fork Expr,
    (steps.foldl grow t).flat = ⟨t.head, t.steps ++ steps⟩ := by
  induction steps with
  | nil => exact fun t => by rw [List.append_nil]; rfl
  | cons s steps ih =>
    intro t
    rw [List.foldl_cons, ih, head_grow, steps_grow, List.append_assoc, List.singleton_append]

/-- The tree reads like what it was grown from. -/
theorem flat_grown (f : Flat) : (grown f).flat = f := flat_foldl_grow f.steps (operand f.head)

/-- What is grown binds in order. -/
theorem ordered_grown (f : Flat) : (grown f).Ordered := by
  have hgrow : ∀ (steps : List (Operator × Expr)) (t : Fork Expr), t.Ordered →
      (steps.foldl grow t).Ordered := by
    intro steps
    induction steps with
    | nil => exact fun _ h => h
    | cons s steps ih => exact fun t h => ih _ (h.grow s)
  exact hgrow f.steps _ trivial

/-! ## There is no other -/

theorem Within.steps {p : Nat → Prop} {t : Fork α} (h : t.Within p) : ∀ s ∈ t.steps, p s.1.precedence := by
  induction t with
  | operand a => exact List.forall_mem_nil _
  | node op l r ihl ihr =>
    obtain ⟨hop, hl, hr⟩ := h
    exact List.forall_mem_append.mpr ⟨ihl hl, List.forall_mem_cons.mpr ⟨hop, ihr hr⟩⟩

/-- Operators that bind tighter than the root stay in the right branch. -/
theorem foldl_grow_node {op : Operator} {l : Fork α} {steps : List (Operator × α)} :
    ∀ {r : Fork α}, (∀ s ∈ steps, op.precedence < s.1.precedence) →
      steps.foldl grow (node op l r) = node op l (steps.foldl grow r) := by
  induction steps with
  | nil => exact fun _ => rfl
  | cons s steps ih =>
    intro r h
    obtain ⟨hs, hsteps⟩ := List.forall_mem_cons.mp h
    rw [List.foldl_cons, List.foldl_cons, grow, if_neg (Nat.not_le_of_lt hs), ih hsteps]

/-- **A tree that binds in order is the one grown from its reading.** -/
theorem grown_flat {t : Fork Expr} (h : t.Ordered) : grown t.flat = t := by
  induction t with
  | operand e => rfl
  | node op l r ihl ihr =>
    obtain ⟨hl, hr, hleft, hright⟩ := h
    -- at the operator of the root the left branch is complete, and all of it is climbed over
    have hroot : l.grow (op, r.head) = node op l (operand r.head) := by
      cases l with
      | operand e => rfl
      | node o _ _ => exact if_pos (hleft o rfl)
    have hleftmost : l.steps.foldl grow (operand l.head) = l := ihl hl
    simp only [grown, flat, head, steps, List.foldl_append, List.foldl_cons, hleftmost, hroot]
    rw [foldl_grow_node (hr.within hright).steps]
    exact congrArg (node op l) (ihr hr)

end Fork

/-- **Folding in place gives the one tree that binds in order**: with one operand more than operators
it never leaves the lists, and its result reads like them from left to right, each left branch binding
at least as tight as its root and each right branch tighter, as no other tree does. -/
theorem Buffer.collapse?_reading (b : Buffer) (h : b.operands.length = b.operators.length + 1) :
    ∃ t : Fork Expr, b.collapse? = some t.expr ∧ t.reading = b.reading ∧ t.Ordered
      ∧ ∀ u : Fork Expr, u.reading = b.reading → u.Ordered → u = t := by
  obtain ⟨f, rfl⟩ := Flat.exists_buffer h
  have hcollapse : f.buffer.collapse? = some (Fork.grown f).expr := by
    rw [Flat.collapse?_buffer, ← Flat.toExpr_eq, ← Fork.toExpr_flat (Fork.ordered_grown f), Fork.flat_grown]
  refine ⟨Fork.grown f, hcollapse, ?_, Fork.ordered_grown f, fun u hreading hu => ?_⟩
  · rw [Fork.reading_flat, Fork.flat_grown, Flat.reading_buffer]
  · have hflat : u.flat = f :=
      Flat.reading_injective (by rw [← Fork.reading_flat, hreading, Flat.reading_buffer])
    rw [← hflat, Fork.grown_flat hu]

/-- `a - b * c - d = e OR f`. -/
def Buffer.mixed : Buffer where
  operands := [.name "a", .name "b", .name "c", .name "d", .name "e", .name "f"]
  operators := [.arith .sub, .arith .mul, .arith .sub, .compare .eq, .logic .or]

theorem Buffer.collapse?_reading_mixed :
    mixed.operands.length = mixed.operators.length + 1
      ∧ ∃ t : Fork Expr, mixed.collapse? = some t.expr ∧ t.reading = mixed.reading ∧ t.Ordered
        ∧ ∀ u : Fork Expr, u.reading = mixed.reading → u.Ordered → u = t :=
  ⟨rfl, mixed.collapse?_reading rfl⟩

end EntitySql
