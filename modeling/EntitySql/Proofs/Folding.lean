import Mathlib
import EntitySql.Grammar.Fold
import EntitySql.Proofs.Shape

/-!
# Folding flat expressions

What the level-by-level folding of a flat expression keeps, and which tree it gives.

* `Flat.collapse?_buffer`: the fold in place, without places.
* `Flat.collect_toExpr`: the operands stay in their order.
* `Flat.shaped_toExpr`: operands as they are read fold to a shaped expression. The right side of a
  membership test is folded with the arithmetic operators after it first, and stays leftmost there.
* `Fork.toExpr_flat`: a tree of operators whose left branches bind at least as tight as their root,
  and whose right branches tighter, is what its own flat reading folds to.
-/

namespace EntitySql

/-! ## Folding in place -/

theorem insertIdx_length_append {α : Type} (xs rest : List α) (a : α) :
    (xs ++ rest).insertIdx xs.length a = xs ++ a :: rest := by
  induction xs with
  | nil => rfl
  | cons x xs ih => simp [ih]

/-- A fold takes an operator and the operands on its two sides, and moves nothing before them. -/
theorem Buffer.foldAt?_append {xs : List Expr} {ops : List Operator} (h : xs.length = ops.length)
    (left right : Expr) (op : Operator) (rest : List Expr) (ops' : List Operator) :
    Buffer.foldAt? ⟨xs ++ left :: right :: rest, ops ++ op :: ops'⟩ ops.length =
      some ⟨xs ++ Expr.binary left op right :: rest, ops ++ ops'⟩ := by
  simp [foldAt?, ← h, List.eraseIdx_append_of_length_le, insertIdx_length_append]

namespace Flat

/-- Folds the operators of one level, from the left. The operand under way is `left`. -/
def foldSteps (level : Nat) (left : Expr) : List (Operator × Expr) → Flat
  | [] => ⟨left, []⟩
  | (op, right) :: steps =>
    if op.precedence = level then foldSteps level (Expr.binary left op right) steps
    else
      let rest := foldSteps level right steps
      ⟨left, (op, rest.head) :: rest.steps⟩

/-- Folds the operators of one level. -/
def foldLevel (f : Flat) (level : Nat) : Flat := foldSteps level f.head f.steps

/-- From any place on, a sweep folds the operators that are left. -/
theorem sweep?_append (level : Nat) (steps : List (Operator × Expr)) :
    ∀ (left : Expr) (xs : List Expr) (ops : List Operator), xs.length = ops.length →
    Buffer.sweep? level steps.length ops.length
        ⟨xs ++ left :: steps.map Prod.snd, ops ++ steps.map Prod.fst⟩ =
      some ⟨xs ++ (foldSteps level left steps).buffer.operands,
        ops ++ (foldSteps level left steps).buffer.operators⟩ := by
  induction steps with
  | nil => exact fun _ _ _ _ => rfl
  | cons s steps ih =>
    intro left xs ops h
    obtain ⟨op, right⟩ := s
    have hop : (ops ++ op :: steps.map Prod.fst)[ops.length]? = some op := by simp
    simp only [List.length_cons, List.map_cons, Buffer.sweep?, hop, Option.bind_eq_bind,
      Option.bind_some, foldSteps]
    split
    · rw [Buffer.foldAt?_append h, Option.bind_some]
      exact ih _ xs ops h
    · have hnext := ih right (xs ++ [left]) (ops ++ [op]) (by simp [h])
      simpa [buffer] using hnext

theorem foldLevel?_buffer (f : Flat) (level : Nat) :
    f.buffer.foldLevel? level = some (f.foldLevel level).buffer := by
  rw [Buffer.foldLevel?, buffer, List.length_map]
  exact sweep?_append level f.steps f.head [] [] rfl

theorem foldlM_buffer (levels : List Nat) : ∀ f : Flat,
    levels.foldlM Buffer.foldLevel? f.buffer = some (levels.foldl foldLevel f).buffer := by
  induction levels with
  | nil => exact fun _ => rfl
  | cons level levels ih =>
    intro f
    rw [List.foldlM_cons, foldLevel?_buffer, Option.bind_eq_bind, Option.bind_some, ih]
    rfl

/-- **Folding in place never leaves the lists**, and the first operand is what all levels give. -/
theorem collapse?_buffer (f : Flat) :
    f.buffer.collapse? = some (Precedence.levels.foldl foldLevel f).head := by
  rw [Buffer.collapse?, foldlM_buffer]
  rfl

theorem toExpr_eq (f : Flat) : f.toExpr = (Precedence.levels.foldl foldLevel f).head := by
  rw [toExpr, collapse?_buffer, Option.getD_some]

variable {α : Type} {k : Collector α}

/-! ## The operands in order -/

/-- The contributions of the operands of a flat expression. -/
def collect (k : Collector α) (f : Flat) : List α :=
  f.head.collect k ++ f.steps.flatMap fun s => s.2.collect k

theorem collect_binary (l : Expr) (op : Operator) (r : Expr) :
    (Expr.binary l op r).collect k = l.collect k ++ r.collect k := by
  cases op <;> simp only [Expr.binary, Expr.collect]

theorem collect_foldSteps (level : Nat) : ∀ (steps : List (Operator × Expr)) (left : Expr),
    (foldSteps level left steps).collect k = collect k ⟨left, steps⟩
  | [], left => rfl
  | (op, right) :: steps, left => by
    unfold foldSteps
    split
    · rw [collect_foldSteps level steps]
      simp only [collect, collect_binary, List.flatMap_cons, List.append_assoc]
    · have ih := collect_foldSteps level steps right
      simp only [collect, List.flatMap_cons] at ih ⊢
      rw [ih]

theorem collect_foldLevels (levels : List Nat) : ∀ f : Flat,
    (levels.foldl foldLevel f).collect k = f.collect k := by
  induction levels with
  | nil => exact fun _ => rfl
  | cons level levels ih =>
    intro f
    rw [List.foldl_cons, ih]
    exact collect_foldSteps level f.steps f.head

/-! ## All operators are folded -/

/-- Folding a level leaves none of its operators, and no others than there were. -/
theorem mem_foldSteps {level : Nat} {op : Operator} {e : Expr} :
    ∀ {steps : List (Operator × Expr)} {left : Expr}, (op, e) ∈ (foldSteps level left steps).steps →
      op.precedence ≠ level ∧ ∃ e', (op, e') ∈ steps
  | [], left, h => nomatch h
  | (op', right) :: steps, left, h => by
    unfold foldSteps at h
    split at h
    · obtain ⟨hne, e', he⟩ := mem_foldSteps h
      exact ⟨hne, e', List.mem_cons_of_mem _ he⟩
    · next hne =>
      rcases List.mem_cons.mp h with h | h
      · cases h
        exact ⟨hne, right, List.mem_cons_self⟩
      · obtain ⟨hne, e', he⟩ := mem_foldSteps h
        exact ⟨hne, e', List.mem_cons_of_mem _ he⟩

theorem mem_foldLevels {op : Operator} {e : Expr} : ∀ {levels : List Nat} {f : Flat},
    (op, e) ∈ (levels.foldl foldLevel f).steps →
      op.precedence ∉ levels ∧ ∃ e', (op, e') ∈ f.steps
  | [], _, h => ⟨List.not_mem_nil, e, h⟩
  | level :: levels, f, h => by
    rw [List.foldl_cons] at h
    obtain ⟨hnot, e', he⟩ := mem_foldLevels h
    obtain ⟨hne, hf⟩ := mem_foldSteps he
    exact ⟨fun hm => (List.mem_cons.mp hm).elim hne hnot, hf⟩

theorem precedence_mem_levels (op : Operator) : op.precedence ∈ Precedence.levels := by
  cases op with
  | arith op => cases op <;> decide
  | compare op => exact show Precedence.comparison ∈ Precedence.levels by decide
  | logic op => cases op <;> decide

theorem steps_foldLevels (f : Flat) : (Precedence.levels.foldl foldLevel f).steps = [] := by
  refine List.eq_nil_iff_forall_not_mem.mpr fun s hs => ?_
  exact (mem_foldLevels hs).1 (precedence_mem_levels s.1)

/-- **Folding keeps the operands in order.** -/
theorem collect_toExpr (f : Flat) : f.toExpr.collect k = f.collect k := by
  rw [← collect_foldLevels Precedence.levels f, toExpr_eq, collect, steps_foldLevels]
  simp only [List.flatMap_nil, List.append_nil]

/-! ## The shape of what is folded -/

variable {V : Vocabulary}

/-- An operand while folding: after a membership operator the right side of its test, bound at least
as tight as the level under way, and else a shaped expression. -/
def OperandShaped (V : Vocabulary) (level : Nat) (member : Bool) (e : Expr) : Prop :=
  (member = false → e.Shaped V) ∧ (member = true → e.Member V ∧ level ≤ e.precedence)

/-- The operands after the operators. -/
def StepsShaped (V : Vocabulary) (level : Nat) (steps : List (Operator × Expr)) : Prop :=
  ∀ s ∈ steps, OperandShaped V level s.1.isMembership s.2

theorem StepsShaped.mono {level level' : Nat} {steps : List (Operator × Expr)}
    (h : StepsShaped V level steps) (hl : level' ≤ level) : StepsShaped V level' steps :=
  fun s hs => ⟨(h s hs).1, fun hm => ⟨((h s hs).2 hm).1, hl.trans ((h s hs).2 hm).2⟩⟩

theorem stepsShaped_cons {level : Nat} {s : Operator × Expr} {steps : List (Operator × Expr)} :
    StepsShaped V level (s :: steps) ↔
      OperandShaped V level s.1.isMembership s.2 ∧ StepsShaped V level steps :=
  List.forall_mem_cons

/-- Only comparisons test for membership. -/
theorem precedence_of_isMembership {op : Operator} (h : op.isMembership = true) :
    op.precedence = Precedence.comparison := by
  cases op with
  | arith op => cases h
  | compare op => rfl
  | logic op => cases h

/-- The levels of arithmetic keep the right side of a membership test leftmost. -/
theorem shaped_foldSteps_arith (level : Nat) (hl : Precedence.comparison < level) :
    ∀ {steps : List (Operator × Expr)} {left : Expr} {member : Bool},
      OperandShaped V level member left → StepsShaped V level steps →
      OperandShaped V level member (foldSteps level left steps).head ∧
        StepsShaped V level (foldSteps level left steps).steps
  | [], left, member, hleft, hsteps => ⟨hleft, hsteps⟩
  | (op, right) :: steps, left, member, hleft, hsteps => by
    obtain ⟨hright, hsteps⟩ := stepsShaped_cons.mp hsteps
    unfold foldSteps
    split
    · next hop =>
      refine shaped_foldSteps_arith level hl ?_ hsteps
      cases op with
      | arith op =>
        have hle : op.precedence ≤ level := hop.le
        exact ⟨fun hm => ⟨hleft.1 hm, hright.1 rfl⟩, fun hm =>
          ⟨⟨(hleft.2 hm).1, hle.trans (hleft.2 hm).2, hright.1 rfl⟩, hop.ge⟩⟩
      | compare op => exact absurd hop (Nat.ne_of_lt hl)
      | logic op => cases op <;> exact absurd (hop ▸ hl) (by decide)
    · obtain ⟨hhead, htail⟩ := shaped_foldSteps_arith level hl hright hsteps
      exact ⟨hleft, stepsShaped_cons.mpr ⟨hhead, htail⟩⟩

/-- The level of comparisons takes all membership tests. -/
theorem shaped_foldSteps_compare :
    ∀ {steps : List (Operator × Expr)} {left : Expr}, left.Shaped V →
      StepsShaped V Precedence.additive steps →
      (foldSteps Precedence.comparison left steps).head.Shaped V ∧
        ∀ s ∈ (foldSteps Precedence.comparison left steps).steps, s.2.Shaped V
  | [], left, hleft, _ => ⟨hleft, nofun⟩
  | (op, right) :: steps, left, hleft, hsteps => by
    obtain ⟨hright, hsteps⟩ := stepsShaped_cons.mp hsteps
    unfold foldSteps
    split
    · next hop =>
      refine shaped_foldSteps_compare ?_ hsteps
      cases op with
      | arith op => cases op <;> exact absurd hop (by decide)
      | compare op => exact ⟨hleft, hright.1, hright.2⟩
      | logic op => cases op <;> exact absurd hop (by decide)
    · next hop =>
      have hm : op.isMembership = false := by
        cases h : op.isMembership with
        | false => rfl
        | true => exact absurd (precedence_of_isMembership h) hop
      obtain ⟨hhead, htail⟩ := shaped_foldSteps_compare (hright.1 hm) hsteps
      exact ⟨hleft, List.forall_mem_cons.mpr ⟨hhead, htail⟩⟩

/-- The levels of logic join shaped operands. -/
theorem shaped_foldSteps_logic (level : Nat) (hl : level < Precedence.comparison) :
    ∀ {steps : List (Operator × Expr)} {left : Expr}, left.Shaped V → (∀ s ∈ steps, s.2.Shaped V) →
      (foldSteps level left steps).head.Shaped V ∧
        ∀ s ∈ (foldSteps level left steps).steps, s.2.Shaped V
  | [], left, hleft, _ => ⟨hleft, nofun⟩
  | (op, right) :: steps, left, hleft, hsteps => by
    obtain ⟨hright, hsteps⟩ := List.forall_mem_cons.mp hsteps
    unfold foldSteps
    split
    · next hop =>
      refine shaped_foldSteps_logic level hl ?_ hsteps
      cases op with
      | arith op => cases op <;> exact absurd (hop ▸ hl) (by decide)
      | compare op => exact absurd hop.symm (Nat.ne_of_lt hl)
      | logic op => exact ⟨hleft, hright⟩
    · obtain ⟨hhead, htail⟩ := shaped_foldSteps_logic level hl hright hsteps
      exact ⟨hleft, List.forall_mem_cons.mpr ⟨hhead, htail⟩⟩

/-- **Operands as they are read fold to a shaped expression.** -/
theorem shaped_toExpr {f : Flat} (hhead : f.head.Shaped V)
    (hsteps : StepsShaped V Precedence.atom f.steps) : f.toExpr.Shaped V := by
  have h₈ : OperandShaped V Precedence.multiplicative false f.head := ⟨fun _ => hhead, nofun⟩
  obtain ⟨h₆, s₆⟩ := shaped_foldSteps_arith _ (by decide) h₈ (hsteps.mono (by decide))
  have h₆ : OperandShaped V Precedence.additive false _ := ⟨h₆.1, nofun⟩
  obtain ⟨h₅, s₅⟩ := shaped_foldSteps_arith _ (by decide) h₆ (s₆.mono (by decide))
  obtain ⟨h₄, s₄⟩ := shaped_foldSteps_compare (h₅.1 rfl) s₅
  obtain ⟨h₂, s₂⟩ := shaped_foldSteps_logic Precedence.and (by decide) h₄ s₄
  rw [toExpr_eq]
  exact (shaped_foldSteps_logic Precedence.or (by decide) h₂ s₂).1

end Flat

/-! ## Trees of operators -/

/-- A tree of binary operators over operands. -/
inductive Fork (α : Type) where
  | operand (a : α)
  | node (op : Operator) (left right : Fork α)

namespace Fork

variable {α β : Type}

/-- The leftmost operand. -/
def head : Fork α → α
  | operand a => a
  | node _ l _ => l.head

/-- The operators from left to right, each with the operand after it. -/
def steps : Fork α → List (Operator × α)
  | operand _ => []
  | node op l r => l.steps ++ (op, r.head) :: r.steps

def map (f : α → β) : Fork α → Fork β
  | operand a => operand (f a)
  | node op l r => node op (l.map f) (r.map f)

/-- The operator at the root. -/
def root? : Fork α → Option Operator
  | operand _ => none
  | node op _ _ => some op

/-- Left branches bind at least as tight as their root, right branches tighter. -/
def Ordered : Fork α → Prop
  | operand _ => True
  | node op l r =>
    l.Ordered ∧ r.Ordered ∧ (∀ o, l.root? = some o → op.precedence ≤ o.precedence)
      ∧ ∀ o, r.root? = some o → op.precedence < o.precedence

/-- All operators have a precedence that satisfies `p`. -/
def Within (p : Nat → Prop) : Fork α → Prop
  | operand _ => True
  | node op l r => p op.precedence ∧ l.Within p ∧ r.Within p

/-- The expression of a tree. -/
def expr : Fork Expr → Expr
  | operand e => e
  | node op l r => Expr.binary l.expr op r.expr

/-- The flat reading of a tree. -/
def flat (t : Fork Expr) : Flat := ⟨t.head, t.steps⟩

@[simp] theorem head_map (f : α → β) : ∀ t : Fork α, (t.map f).head = f t.head
  | operand _ => rfl
  | node _ l _ => head_map f l

@[simp] theorem root?_map (f : α → β) (t : Fork α) : (t.map f).root? = t.root? := by
  cases t <;> rfl

theorem ordered_map (f : α → β) : ∀ t : Fork α, (t.map f).Ordered ↔ t.Ordered
  | operand _ => Iff.rfl
  | node _ l r => by simp only [map, Ordered, ordered_map f l, ordered_map f r, root?_map]

/-! ## One level -/

/-- The tree with the operators of one level folded into operands. -/
def collapse (level : Nat) : Fork Expr → Fork Expr
  | operand e => operand e
  | node op l r =>
    if op.precedence = level then operand (Expr.binary l.expr op r.expr)
    else node op (l.collapse level) (r.collapse level)

theorem expr_collapse (level : Nat) : ∀ t : Fork Expr, (t.collapse level).expr = t.expr
  | operand _ => rfl
  | node op l r => by
    unfold collapse
    split
    · rfl
    · simp only [expr, expr_collapse level l, expr_collapse level r]

theorem root?_collapse {level : Nat} {t : Fork Expr} {o : Operator}
    (h : (t.collapse level).root? = some o) : t.root? = some o := by
  cases t with
  | operand e => exact h
  | node op l r =>
    unfold collapse at h
    split at h
    · cases h
    · exact h

theorem Ordered.collapse (level : Nat) : ∀ {t : Fork Expr}, t.Ordered → (t.collapse level).Ordered
  | operand _, _ => trivial
  | node op l r, ⟨hl, hr, hleft, hright⟩ => by
    unfold Fork.collapse
    split
    · trivial
    · exact ⟨hl.collapse level, hr.collapse level, fun o ho => hleft o (root?_collapse ho),
        fun o ho => hright o (root?_collapse ho)⟩

theorem Within.collapse {p q : Nat → Prop} {level : Nat} (h : ∀ n, p n → n ≠ level → q n) :
    ∀ {t : Fork Expr}, t.Within p → (t.collapse level).Within q
  | operand _, _ => trivial
  | node op l r, ⟨hop, hl, hr⟩ => by
    unfold Fork.collapse
    split
    · trivial
    · next hne => exact ⟨h _ hop hne, hl.collapse h, hr.collapse h⟩

theorem Within.mono {p q : Nat → Prop} (h : ∀ n, p n → q n) :
    ∀ {t : Fork α}, t.Within p → t.Within q
  | operand _, _ => trivial
  | node _ _ _, ⟨hop, hl, hr⟩ => ⟨h _ hop, hl.mono h, hr.mono h⟩

/-- All operators of an ordered tree bind at least as tight as its root. -/
theorem Ordered.within {n : Nat} : ∀ {t : Fork α}, t.Ordered →
    (∀ o, t.root? = some o → n ≤ o.precedence) → t.Within (n ≤ ·)
  | .operand _, _, _ => trivial
  | .node op l r, ⟨hl, hr, hleft, hright⟩, h => by
    have hop := h op rfl
    exact ⟨hop, hl.within fun o ho => hop.trans (hleft o ho),
      hr.within fun o ho => hop.trans (hright o ho).le⟩

theorem Within.root {p : Nat → Prop} {t : Fork α} (h : t.Within p) {o : Operator}
    (ho : t.root? = some o) : p o.precedence := by
  cases t with
  | operand a => cases ho
  | node op l r => cases ho; exact h.1

/-- An operator of another level keeps what stands on its two sides apart. -/
theorem foldSteps_append {level : Nat} {op : Operator} (hop : op.precedence ≠ level) (y : Expr)
    (rest : List (Operator × Expr)) : ∀ (ss : List (Operator × Expr)) (x : Expr),
    Flat.foldSteps level x (ss ++ (op, y) :: rest) =
      ⟨(Flat.foldSteps level x ss).head, (Flat.foldSteps level x ss).steps ++
        (op, (Flat.foldSteps level y rest).head) :: (Flat.foldSteps level y rest).steps⟩
  | [], x => by simp only [List.nil_append, Flat.foldSteps, if_neg hop]
  | (op', z) :: ss, x => by
    simp only [List.cons_append, Flat.foldSteps]
    split
    · exact foldSteps_append hop y rest ss _
    · simp only [foldSteps_append hop y rest ss z, List.cons_append]

/-- The tightest level, from the left: a tree with its root on it folds into one operand. -/
theorem foldSteps_comb {level : Nat} : ∀ {t : Fork Expr}, t.Ordered → t.Within (· ≤ level) →
    (∀ o, t.root? = some o → o.precedence = level) → ∀ rest,
    Flat.foldSteps level t.head (t.steps ++ rest) = Flat.foldSteps level t.expr rest
  | operand _, _, _, _, _ => rfl
  | node op l r, ⟨hl, hr, hleft, hright⟩, ⟨_, wl, wr⟩, hroot, rest => by
    have hop : op.precedence = level := hroot op rfl
    -- a right branch would bind tighter than the tightest level
    obtain ⟨e, rfl⟩ : ∃ e, r = operand e := by
      cases r with
      | operand e => exact ⟨e, rfl⟩
      | node o _ _ => exact absurd (hright o rfl) (hop ▸ Nat.not_lt.mpr wr.1)
    have hl' : ∀ o, l.root? = some o → o.precedence = level := fun o ho =>
      Nat.le_antisymm (wl.root ho) (hop ▸ hleft o ho)
    simp only [head, steps, List.append_assoc, List.cons_append, List.nil_append]
    rw [foldSteps_comb hl wl hl' _, Flat.foldSteps, if_pos hop]
    rfl

/-- Folding the tightest level of a tree's flat reading. -/
theorem foldLevel_flat {level : Nat} : ∀ {t : Fork Expr}, t.Ordered → t.Within (· ≤ level) →
    t.flat.foldLevel level = (t.collapse level).flat
  | operand _, _, _ => rfl
  | node op l r, ho, hw => by
    by_cases hop : op.precedence = level
    · have h := foldSteps_comb ho hw (fun o h => by cases h; exact hop) []
      rw [List.append_nil] at h
      rw [collapse, if_pos hop]
      exact h
    · have hl := foldLevel_flat ho.1 hw.2.1
      have hr := foldLevel_flat ho.2.1 hw.2.2
      simp only [Flat.foldLevel, flat] at hl hr
      simp only [Flat.foldLevel, flat, collapse, if_neg hop, head, steps,
        foldSteps_append hop, hl, hr]

/-- All levels in turn, the tightest first. -/
theorem foldLevels_flat : ∀ {levels : List Nat}, levels.Pairwise (· > ·) → ∀ {t : Fork Expr},
    t.Ordered → t.Within (· ∈ levels) → (levels.foldl Flat.foldLevel t.flat).head = t.expr
  | [], _, operand _, _, _ => rfl
  | [], _, node _ _ _, _, hw => absurd hw.1 List.not_mem_nil
  | level :: levels, hp, t, ho, hw => by
    obtain ⟨hlevel, hp⟩ := List.pairwise_cons.mp hp
    have hle : t.Within (· ≤ level) := hw.mono fun n hn =>
      (List.mem_cons.mp hn).elim (fun h => h.le) fun h => (hlevel n h).le
    have hw' : (t.collapse level).Within (· ∈ levels) :=
      hw.collapse fun n hn hne => (List.mem_cons.mp hn).resolve_left hne
    rw [List.foldl_cons, foldLevel_flat ho hle, foldLevels_flat hp (ho.collapse level) hw',
      expr_collapse]

theorem within_levels : ∀ t : Fork α, t.Within (· ∈ Precedence.levels)
  | operand _ => trivial
  | node op l r => ⟨Flat.precedence_mem_levels op, within_levels l, within_levels r⟩

/-- **Folding recovers a tree from its flat reading**, as long as its branches bind in order. -/
theorem toExpr_flat {t : Fork Expr} (h : t.Ordered) : t.flat.toExpr = t.expr := by
  rw [Flat.toExpr_eq]
  exact foldLevels_flat (by decide) h t.within_levels

end Fork

end EntitySql
