import Mathlib
import EntitySql.Proofs.Folding
import EntitySql.Proofs.Lexing
import EntitySql.Proofs.Reading

/-!
# Printed expressions as operands and operators

A printed expression is a row of operands with operators between them. `Expr.fork` is the tree of
those operators, an operand in parentheses being a leaf of its own.

* `Expr.signs_fork`: the signs of an expression are those of its leaves and operators, in order.
* `Expr.ordered_fork`: an operator stands inside another without parentheses only if it binds tight
  enough, so that folding the row gives the expression back.
* `Expr.readable_fork`: a `NOT` without parentheses is followed by `AND`, `OR` or nothing, and a
  membership test by a parenthesis.
-/

namespace EntitySql

open Sign

variable {N : Lettering} {V : Vocabulary}

/-! ## What an expression starts with and what may follow it -/

namespace Sign

/-- A sign that ends an expression. -/
def stops (p : Sign) : Bool :=
  (p.kind == .keyword && !(["NOT", "IS", "LIKE", "CONTAINS", "IN", "AND", "OR"].any p.isKeyword))
    || p.isSymbol ")" || p.isSymbol ","

/-- A sign that does not go on with a name. -/
def parts (p : Sign) : Bool := !p.isSymbol "." && !p.isSymbol "("

/-- All operators that may come next bind weaker than `n`. -/
def OpBelow (n : Nat) (ps : List Sign) : Prop :=
  ∀ op k, (cursor ps).operator? = some (op, k) → op.precedence < n

theorem OpBelow.mono {m n : Nat} {ps : List Sign} (h : OpBelow m ps) (hmn : m ≤ n) : OpBelow n ps :=
  fun op k hop => (h op k hop).trans_le hmn

/-- A phrase that starts with none of the words of operators is no operator. -/
theorem operator?_keyword {p : Sign} {ps : List Sign} (hk : p.kind = .keyword)
    (h : ["NOT", "IS", "LIKE", "CONTAINS", "IN", "AND", "OR"].any p.isKeyword = false) :
    (cursor (p :: ps)).operator? = none := by
  have hsymbol : ¬ (cursor (p :: ps)).current.kind = .symbol := by
    rw [show (cursor (p :: ps)).current.kind = p.kind from rfl, hk]
    decide
  have hstart : ∀ q ∈ Operator.phrases, ∃ w ws, q.1 = w :: ws
      ∧ w ∈ ["NOT", "IS", "LIKE", "CONTAINS", "IN", "AND", "OR"] := by
    simp only [Operator.phrases, List.forall_mem_cons]
    refine ⟨⟨_, _, rfl, ?_⟩, ⟨_, _, rfl, ?_⟩, ⟨_, _, rfl, ?_⟩, ⟨_, _, rfl, ?_⟩, ⟨_, _, rfl, ?_⟩,
      ⟨_, _, rfl, ?_⟩, ⟨_, _, rfl, ?_⟩, ⟨_, _, rfl, ?_⟩, ⟨_, _, rfl, ?_⟩, nofun⟩ <;> decide
  rw [Cursor.operator?, if_neg hsymbol, Option.map_eq_none_iff, List.find?_eq_none]
  intro q hq
  obtain ⟨w, ws, hw, hmem⟩ := hstart q hq
  rw [hw, Parse.startsWith_cursor]
  · exact Bool.false_ne_true
  · refine .cons ?_
    have := List.any_eq_false.mp h w hmem
    simpa using this

theorem operator?_stops {ps : List Sign} (h : Before stops ps) : (cursor ps).operator? = none := by
  cases ps with
  | nil => rfl
  | cons p ps =>
    have hp := h p rfl
    simp only [stops, Bool.or_eq_true, Bool.and_eq_true, Bool.not_eq_true', beq_iff_eq] at hp
    have hsymbol : ∀ {s : String}, p.isSymbol s = true → Operator.ofSymbol? s = none →
        (cursor (p :: ps)).operator? = none := by
      intro s hs hnone
      obtain ⟨hk, ht⟩ := Bool.and_eq_true_iff.mp hs
      have hkind : (cursor (p :: ps)).current.kind = .symbol := beq_iff_eq.mp hk
      have htext : (cursor (p :: ps)).current.text = s := beq_iff_eq.mp ht
      rw [Cursor.operator?, if_pos hkind, htext, hnone, Option.map_none]
    rcases hp with (⟨hk, hno⟩ | hs) | hs
    · exact operator?_keyword hk hno
    · exact hsymbol hs (by decide)
    · exact hsymbol hs (by decide)

/-- The operator that its signs write. An `IS` is not one before a `NOT`. -/
theorem operator?_signs (op : Operator) {ps : List Sign}
    (h : op = .compare .is → Before (fun p => !p.isKeyword "NOT") ps) :
    (cursor (op.signs ++ ps)).operator? = some (op, op.signs.length) := by
  cases op with
  | arith op => cases op <;> rfl
  | logic op => cases op <;> rfl
  | compare op =>
    cases op with
    | is =>
      -- the other phrases are told apart by their first word
      have hnot : (cursor (phrase ["IS"] ++ ps)).startsWith ["IS", "NOT"] = false :=
        show (cursor ps).startsWith ["NOT"] = false from Parse.startsWith_cursor (h rfl)
      have hfind : Operator.phrases.find? (fun q => (cursor (phrase ["IS"] ++ ps)).startsWith q.1)
          = some (["IS"], .compare .is) := by
        rw [Operator.phrases, List.find?_cons_of_neg (by exact Bool.false_ne_true),
          List.find?_cons_of_neg (by exact Bool.false_ne_true),
          List.find?_cons_of_neg (by rw [hnot]; exact Bool.false_ne_true)]
        rfl
      exact congrArg (Option.map fun q => (q.2, q.1.length)) hfind
    | _ => rfl

theorem not_keyword_of_opensName {p : Sign} (h : p.opensName = true) {w : String} :
    (!p.isKeyword w) = true := by
  have hk : p.kind ≠ .keyword := by
    rintro hk
    simp [opensName, hk] at h
  simp [isKeyword, Token.isKeyword, token, hk]

theorem parts_operator (op : Operator) (ps : List Sign) : Before parts (op.signs ++ ps) := by
  cases op with
  | arith op => cases op <;> exact .cons rfl
  | logic op => cases op <;> exact .cons rfl
  | compare op => cases op <;> exact .cons rfl

end Sign

theorem Operator.signs_ne_nil (op : Operator) : op.signs ≠ [] := by
  unfold Operator.signs
  split <;> simp [phrase]

/-! ## Leaves and the tree of operators -/

/-- An operand as it is printed, in parentheses or not. -/
structure Leaf where
  wrapped : Bool
  expr : Expr

namespace Leaf

def signs (N : Lettering) (l : Leaf) : List Sign := wrapSigns l.wrapped (l.expr.signs N)

/-- A `NOT` without parentheses. -/
def isNot (l : Leaf) : Bool :=
  !l.wrapped && match l.expr with
    | .unary .not _ => true
    | _ => false

end Leaf

/-- An operand of an operator: a leaf where it stands in parentheses, else a tree of its own. -/
def branch (wrapped : Bool) (e : Expr) (t : Fork Leaf) : Fork Leaf :=
  if wrapped then .operand ⟨true, e⟩ else t

/-- The logic operator whose operands need parentheses if they are of the other kind. -/
def Operator.outer? : Operator → Option LogicOp
  | .logic op => some op
  | _ => none

/-- The operators of an expression outside parentheses. -/
def Expr.fork : Expr → Fork Leaf
  | .arith op l r =>
    .node (.arith op) (branch (l.needsParens op.precedence none) l l.fork)
      (branch (r.needsParens (op.precedence + 1) none) r r.fork)
  | .compare op l r =>
    .node (.compare op) (branch (l.needsParens op.precedence none) l l.fork)
      (branch (r.needsParens (op.precedence + 1) none) r r.fork)
  | .logic op l r =>
    .node (.logic op) (branch (l.needsParens op.precedence (some op)) l l.fork)
      (branch (r.needsParens (op.precedence + 1) (some op)) r r.fork)
  | e => .operand ⟨false, e⟩

namespace Expr

/-- Whether no binary operator stands at the root. -/
def isLeaf : Expr → Bool
  | .arith _ _ _ | .compare _ _ _ | .logic _ _ _ => false
  | _ => true

theorem fork_leaf {e : Expr} (h : e.isLeaf = true) : e.fork = .operand ⟨false, e⟩ := by
  cases e <;> first
    | rfl
    | cases h

theorem fork_binary (l : Expr) (op : Operator) (r : Expr) :
    (binary l op r).fork = .node op (branch (l.needsParens op.precedence op.outer?) l l.fork)
      (branch (r.needsParens (op.precedence + 1) op.outer?) r r.fork) := by
  cases op <;> rfl

theorem signs_binary (l : Expr) (op : Operator) (r : Expr) :
    (binary l op r).signs N = wrapSigns (l.needsParens op.precedence op.outer?) (l.signs N) ++ op.signs
      ++ wrapSigns (r.needsParens (op.precedence + 1) op.outer?) (r.signs N) := by
  cases op <;> simp only [binary, signs] <;> rfl

theorem precedence_binary (l : Expr) (op : Operator) (r : Expr) :
    (binary l op r).precedence = op.precedence := by
  cases op <;> rfl

/-- Induction over the binary operators of an expression. -/
theorem binary_induction {P : Expr → Prop} (leaf : ∀ e : Expr, e.isLeaf = true → P e)
    (node : ∀ (l : Expr) (op : Operator) (r : Expr), P l → P r → P (binary l op r)) : ∀ e, P e
  | .arith op l r => node l (.arith op) r (binary_induction leaf node l) (binary_induction leaf node r)
  | .compare op l r => node l (.compare op) r (binary_induction leaf node l) (binary_induction leaf node r)
  | .logic op l r => node l (.logic op) r (binary_induction leaf node l) (binary_induction leaf node r)
  | .ident i => leaf (.ident i) rfl
  | .literal l => leaf (.literal l) rfl
  | .marker m => leaf (.marker m) rfl
  | .named m => leaf (.named m) rfl
  | .call f d es => leaf (.call f d es) rfl
  | .list es => leaf (.list es) rfl
  | .unary op e => leaf (.unary op e) rfl
  | .case o bs e => leaf (.case o bs e) rfl
  | .subquery s => leaf (.subquery s) rfl

end Expr

namespace Fork

/-- The rightmost operand. -/
def last {α : Type} : Fork α → α
  | operand a => a
  | node _ _ r => r.last

/-- The signs of operators with the operands after them. -/
def stepSigns (N : Lettering) (t : Fork Leaf) : List Sign :=
  t.steps.flatMap fun s => s.1.signs ++ s.2.signs N

def signs (N : Lettering) (t : Fork Leaf) : List Sign := t.head.signs N ++ t.stepSigns N

theorem signs_node (op : Operator) (l r : Fork Leaf) :
    (node op l r).signs N = l.signs N ++ op.signs ++ r.signs N := by
  simp only [signs, stepSigns, head, steps, List.flatMap_append, List.flatMap_cons, List.append_assoc]

theorem length_head_le (t : Fork Leaf) : (t.head.signs N).length ≤ (t.signs N).length := by
  rw [signs, List.length_append]
  exact Nat.le_add_right _ _

theorem signs_branch {b : Bool} {e : Expr} (h : e.signs N = e.fork.signs N) :
    wrapSigns b (e.signs N) = (branch b e e.fork).signs N := by
  cases b with
  | false => exact h
  | true => exact (List.append_nil _).symm

end Fork

/-- **The signs of an expression are those of its leaves and operators.** -/
theorem Expr.signs_fork (e : Expr) : e.signs N = e.fork.signs N := by
  induction e using binary_induction with
  | leaf e he => rw [fork_leaf he]; exact (List.append_nil _).symm
  | node l op r hl hr =>
    rw [signs_binary, fork_binary, Fork.signs_node, Fork.signs_branch hl, Fork.signs_branch hr]

/-- The tree of an expression's operators is the expression. -/
theorem Expr.expr_fork (e : Expr) : (e.fork.map Leaf.expr).expr = e := by
  have hbranch : ∀ {b : Bool} {e : Expr}, (e.fork.map Leaf.expr).expr = e →
      ((branch b e e.fork).map Leaf.expr).expr = e := by
    intro b e h
    cases b with
    | false => exact h
    | true => rfl
  induction e using binary_induction with
  | leaf e he => rw [fork_leaf he]; rfl
  | node l op r hl hr => rw [fork_binary, Fork.map, Fork.expr, hbranch hl, hbranch hr]

/-- The root of the tree has the strength of the expression. -/
theorem Expr.root_fork {e : Expr} {op : Operator} (h : e.fork.root? = some op) :
    op.precedence = e.precedence := by
  induction e using binary_induction with
  | leaf e he => rw [fork_leaf he] at h; cases h
  | node l o r _ _ =>
    rw [fork_binary] at h
    cases h
    rw [precedence_binary]

/-- An operand without parentheses binds at least as tight as required. -/
theorem Expr.le_precedence {e : Expr} {n : Nat} {outer : Option LogicOp}
    (h : e.needsParens n outer = false) : n ≤ e.precedence := by
  simp only [needsParens, Bool.or_eq_false_iff, decide_eq_false_iff_not, Nat.not_lt] at h
  exact h.1

theorem root_branch {b : Bool} {e : Expr} {op : Operator} (h : (branch b e e.fork).root? = some op) :
    b = false ∧ op.precedence = e.precedence := by
  cases b with
  | false => exact ⟨rfl, Expr.root_fork h⟩
  | true => cases h

/-- **Operators inside others without parentheses bind tight enough.** -/
theorem Expr.ordered_fork (e : Expr) : e.fork.Ordered := by
  have hbranch : ∀ {b : Bool} {e : Expr}, e.fork.Ordered → (branch b e e.fork).Ordered := by
    intro b e h
    cases b with
    | false => exact h
    | true => trivial
  induction e using binary_induction with
  | leaf e he => rw [fork_leaf he]; trivial
  | node l op r hl hr =>
    rw [fork_binary]
    refine ⟨hbranch hl, hbranch hr, fun o ho => ?_, fun o ho => ?_⟩
    · obtain ⟨hb, hp⟩ := root_branch ho
      rw [hp]
      exact le_precedence hb
    · obtain ⟨hb, hp⟩ := root_branch ho
      rw [hp]
      exact le_precedence hb

/-! ## Leaves that can be read -/

/-- An expression starts with an operand. -/
theorem Expr.signs_starts (e : Expr) : ∃ p ps, e.signs N = p :: ps ∧ p.starts = true := by
  induction e using binary_induction with
  | leaf e he =>
    cases e with
    | arith | compare | logic => cases he
    | ident i =>
      rw [Expr.signs]
      split
      · exact ⟨_, _, rfl, rfl⟩
      · obtain ⟨p, ps, hp, ho⟩ := N.opens i.value
        exact ⟨p, ps, hp, starts_of_opensName ho⟩
    | literal l =>
      rw [Expr.signs]
      unfold Literal.signs
      split <;> exact ⟨_, _, rfl, rfl⟩
    | unary op e => cases op <;> exact ⟨_, _, rfl, rfl⟩
    | marker | named | call | list | case | subquery => exact ⟨_, _, rfl, rfl⟩
  | node l op r hl _ =>
    rw [signs_binary]
    obtain ⟨p, ps, hp, hs⟩ := hl
    unfold wrapSigns
    split
    · exact ⟨_, _, rfl, rfl⟩
    · rw [hp]
      exact ⟨p, _, rfl, hs⟩

/-- A leaf as a reader expects it: the right side of a membership test, or any operand. -/
def Leaf.Readable (V : Vocabulary) (member : Bool) (l : Leaf) : Prop :=
  (member = false → l.expr.Shaped V ∧ (l.wrapped = true ∨ l.expr.isLeaf = true))
    ∧ (member = true → l.wrapped = false ∧ l.expr.isGroup = true ∧ l.expr.Member V)

/-- A row of operands as readers expect it, the first after a membership operator or not. -/
def Fork.Readable (V : Vocabulary) (member : Bool) : Fork Leaf → Prop
  | .operand l => l.Readable V member
  | .node op l r =>
    l.Readable V member ∧ r.Readable V op.isMembership
      ∧ (l.last.isNot = true → op.precedence < Precedence.comparison)
      ∧ (op = .compare .is → r.head.isNot = false)

/-- A `NOT` without parentheses at either end is not an operand of a comparison. -/
theorem Expr.precedence_of_isNot {e : Expr} (h : e.fork.head.isNot = true ∨ e.fork.last.isNot = true) :
    e.precedence ≤ Precedence.not := by
  induction e using binary_induction with
  | leaf e he =>
    rw [fork_leaf he] at h
    have hnot : Leaf.isNot ⟨false, e⟩ = true := h.elim id id
    unfold Leaf.isNot at hnot
    split at hnot
    · next heq => exact (congrArg precedence heq).le
    · cases hnot
  | node l op r hl hr =>
    rw [fork_binary] at h
    rw [precedence_binary]
    rcases h with h | h
    · cases hb : l.needsParens op.precedence op.outer? with
      | true => rw [hb] at h; cases h
      | false =>
        rw [hb] at h
        exact (le_precedence hb).trans (hl (.inl h))
    · cases hb : r.needsParens (op.precedence + 1) op.outer? with
      | true => rw [hb] at h; cases h
      | false =>
        rw [hb] at h
        exact (Nat.le_succ _).trans ((le_precedence hb).trans (hr (.inr h)))

theorem Expr.Shaped.binary {V : Vocabulary} {l : Expr} {op : Operator} {r : Expr}
    (h : (Expr.binary l op r).Shaped V) : l.Shaped V ∧ (op.isMembership = false → r.Shaped V)
      ∧ (op.isMembership = true → r.Member V ∧ Precedence.comparison < r.precedence) := by
  cases op with
  | arith op => exact ⟨h.1, fun _ => h.2, nofun⟩
  | compare op => exact h
  | logic op => exact ⟨h.1, fun _ => h.2, nofun⟩

theorem Expr.Member.binary {V : Vocabulary} {l : Expr} {op : Operator} {r : Expr}
    (h : (Expr.binary l op r).Member V) : l.Member V ∧ op.precedence ≤ l.precedence ∧ r.Shaped V
      ∧ ∃ o, op = .arith o := by
  cases op with
  | arith op => exact ⟨h.1, h.2.1, h.2.2, op, rfl⟩
  | compare op => exact h.elim
  | logic op => exact h.elim

theorem Expr.needsParens_none {e : Expr} {n : Nat} (h : n ≤ e.precedence) :
    e.needsParens n none = false := by
  unfold needsParens
  rw [decide_eq_false (Nat.not_lt.mpr h)]
  cases e <;> rfl

/-- **What is printed can be read**: operands where operands are expected. -/
theorem Expr.readable_fork (e : Expr) :
    (e.Shaped V → e.fork.Readable V false) ∧ (e.Member V → e.fork.Readable V true) := by
  have hwrapped : ∀ {b : Bool} {e : Expr}, e.Shaped V → (e.Shaped V → e.fork.Readable V false) →
      (branch b e e.fork).Readable V false := by
    intro b e h ih
    cases b with
    | false => exact ih h
    | true => exact ⟨fun _ => ⟨h, .inl rfl⟩, nofun⟩
  -- the two conditions on a `NOT` without parentheses
  have hlast : ∀ {e : Expr} {op : Operator} {outer : Option LogicOp},
      (branch (e.needsParens op.precedence outer) e e.fork).last.isNot = true →
      op.precedence < Precedence.comparison := by
    intro e op outer h
    cases hb : e.needsParens op.precedence outer with
    | true => rw [hb] at h; cases h
    | false =>
      rw [hb] at h
      exact Nat.lt_succ_of_le ((le_precedence hb).trans (precedence_of_isNot (.inr h)))
  have hhead : ∀ {e : Expr} {op : Operator} {outer : Option LogicOp}, op = .compare .is →
      (branch (e.needsParens (op.precedence + 1) outer) e e.fork).head.isNot = false := by
    intro e op outer hop
    by_contra h
    rw [Bool.not_eq_false] at h
    cases hb : e.needsParens (op.precedence + 1) outer with
    | true => rw [hb] at h; cases h
    | false =>
      rw [hb] at h
      have hle := (le_precedence hb).trans (precedence_of_isNot (.inl h))
      rw [hop] at hle
      exact absurd hle (by decide)
  induction e using binary_induction with
  | leaf e he =>
    rw [fork_leaf he]
    refine ⟨fun h => ⟨fun _ => ⟨h, .inr he⟩, nofun⟩, fun h => ⟨nofun, fun _ => ⟨rfl, ?_, h⟩⟩⟩
    cases e <;> first
      | rfl
      | exact h.elim
      | cases he
  | node l op r hl hr =>
    rw [fork_binary]
    constructor
    · intro h
      obtain ⟨hls, hrs, hrm⟩ := h.binary
      refine ⟨hwrapped hls hl.1, ?_, hlast, hhead⟩
      cases hop : op.isMembership with
      | false => exact hwrapped (hrs hop) hr.1
      | true =>
        obtain ⟨hmember, hprec⟩ := hrm hop
        cases op with
        | arith op => cases hop
        | logic op => cases hop
        | compare op =>
          have hno : r.needsParens (op.precedence + 1) none = false := needsParens_none hprec
          show (branch (r.needsParens (op.precedence + 1) none) r r.fork).Readable V true
          rw [hno]
          exact hr.2 hmember
    · intro h
      obtain ⟨hlm, hprec, hrs, o, rfl⟩ := h.binary
      have hno : l.needsParens (Operator.arith o).precedence none = false := needsParens_none hprec
      refine ⟨?_, hwrapped hrs hr.1, hlast, hhead⟩
      show (branch (l.needsParens (Operator.arith o).precedence none) l l.fork).Readable V true
      rw [hno]
      exact hl.2 hlm

/-- What a reader makes of an operand of an operator. -/
structure Fork.Stands (V : Vocabulary) (t : Fork Leaf) (e : Expr) : Prop where
  readable : t.Readable V false
  ordered : t.Ordered
  expr : (t.map Leaf.expr).expr = e

theorem Expr.stands_branch {e : Expr} (h : e.Shaped V) (b : Bool) :
    (branch b e e.fork).Stands V e := by
  cases b with
  | false => exact ⟨e.readable_fork.1 h, e.ordered_fork, e.expr_fork⟩
  | true => exact ⟨⟨fun _ => ⟨h, .inl rfl⟩, nofun⟩, trivial, rfl⟩

theorem Operator.precedence_lt_unary (op : Operator) : op.precedence < Precedence.unary := by
  cases op with
  | arith op => cases op <;> decide
  | compare op => exact show Precedence.comparison < Precedence.unary by decide
  | logic op => cases op <;> decide

theorem Expr.isLeaf_of_precedence {e : Expr} (h : Precedence.unary ≤ e.precedence) :
    e.isLeaf = true := by
  induction e using binary_induction with
  | leaf e he => exact he
  | node l op r _ _ =>
    rw [precedence_binary] at h
    exact absurd h (Nat.not_le.mpr op.precedence_lt_unary)

/-! ## What may follow a leaf -/

/-- What may follow a leaf: nothing that goes on with a name, and after a `NOT` no comparison. -/
structure Leaf.Ends (l : Leaf) (ps : List Sign) : Prop where
  parts : Before Sign.parts ps
  below : l.isNot = true → OpBelow Precedence.comparison ps

/-- Only a `NOT` without parentheses starts with `NOT`. -/
theorem Leaf.Readable.not_not {member : Bool} {l : Leaf} (h : l.Readable V member)
    (hnot : l.isNot = false) (ps : List Sign) :
    Before (fun p => !p.isKeyword "NOT") (l.signs N ++ ps) := by
  obtain ⟨wrapped, e⟩ := l
  cases wrapped with
  | true => exact .cons rfl
  | false =>
    have he : e.isLeaf = true := by
      cases member with
      | false => exact (h.1 rfl).2.resolve_left nofun
      | true =>
        have hgroup := (h.2 rfl).2.1
        cases e <;> first
          | rfl
          | cases hgroup
    show Before _ (e.signs N ++ ps)
    cases e with
    | arith | compare | logic => cases he
    | ident i =>
      rw [Expr.signs]
      split
      · exact .cons rfl
      · obtain ⟨p, qs, hp, ho⟩ := N.opens i.value
        rw [hp]
        exact .cons (not_keyword_of_opensName ho)
    | literal l =>
      rw [Expr.signs]
      unfold Literal.signs
      split <;> exact .cons rfl
    | unary op e =>
      cases op with
      | not => cases hnot
      | negate => exact .cons rfl
    | marker | named | call | list | case | subquery => exact .cons rfl

/-- An operator may follow a leaf, a comparison only one that is no `NOT`. -/
theorem Leaf.ends_operator {l : Leaf} {op : Operator} {ps : List Sign}
    (hl : l.isNot = true → op.precedence < Precedence.comparison)
    (hop : op = .compare .is → Before (fun p => !p.isKeyword "NOT") ps) : l.Ends (op.signs ++ ps) where
  parts := parts_operator op ps
  below hnot o k ho := by
    rw [operator?_signs op hop] at ho
    cases ho
    exact hl hnot

namespace Fork

theorem Readable.head {member : Bool} : ∀ {t : Fork Leaf}, t.Readable V member →
    t.head.Readable V member
  | .operand _, h => h
  | .node _ _ _, h => h.1.head

/-- The signs after the root of the left branch. -/
theorem stepSigns_node (op : Operator) (l r : Fork Leaf) (ps : List Sign) :
    (node op l r).stepSigns N ++ ps
      = l.stepSigns N ++ (op.signs ++ (r.head.signs N ++ (r.stepSigns N ++ ps))) := by
  simp only [stepSigns, steps, List.flatMap_append, List.flatMap_cons, List.append_assoc]

/-- What follows the left branch of an operator. -/
theorem Readable.ends_left {member : Bool} {op : Operator} {l r : Fork Leaf}
    (h : (node op l r).Readable V member) (ps : List Sign) :
    l.last.Ends (op.signs ++ (r.head.signs N ++ ps)) :=
  Leaf.ends_operator h.2.2.1 fun hop => h.2.1.head.not_not (h.2.2.2 hop) ps

/-- What follows the first operand, if `ps` may follow the last. -/
theorem Readable.ends_head {member : Bool} : ∀ {t : Fork Leaf} {ps : List Sign}, t.Readable V member →
    t.last.Ends ps → t.head.Ends (t.stepSigns N ++ ps)
  | .operand _, _, _, hends => hends
  | .node op l r, ps, h, _ => by
    rw [stepSigns_node]
    exact h.1.ends_head (h.ends_left _)

end Fork

end EntitySql
