import EntitySql.Query.Tree

/-!
# Folding operators

An expression is first read flat, as `e₀ op₁ e₁ op₂ e₂ …`, and then folded level by level, the
tightest operators first and each level from the left. Operands and operators stand in two lists,
and a fold puts its result in the place of what it took.
-/

namespace EntitySql

/-- The operands of a flat expression and the operators between them. -/
structure Buffer where
  operands : List Expr
  operators : List Operator

namespace Buffer

/-- Folds the operator at a place with the operands on its two sides; `none` where the lists do not
reach that far. -/
def foldAt? (b : Buffer) (i : Nat) : Option Buffer := do
  let op ← b.operators[i]?
  let left ← b.operands[i]?
  let others := b.operands.eraseIdx i
  let right ← others[i]?
  return ⟨(others.eraseIdx i).insertIdx i (Expr.binary left op right), b.operators.eraseIdx i⟩

/-- Folds the operators of one level, from the left: `n` operators are still to be looked at, the
next one at place `i`. A fold brings the next operator to the same place. -/
def sweep? (level : Nat) : Nat → Nat → Buffer → Option Buffer
  | 0, _, b => some b
  | n + 1, i, b => do
    let op ← b.operators[i]?
    if op.precedence = level then sweep? level n i (← b.foldAt? i)
    else sweep? level n (i + 1) b

/-- Folds all operators of one level. -/
def foldLevel? (b : Buffer) (level : Nat) : Option Buffer := sweep? level b.operators.length 0 b

/-- The tree that is left when all levels are folded. -/
def collapse? (b : Buffer) : Option Expr := do
  (← Precedence.levels.foldlM foldLevel? b).operands.head?

end Buffer

/-- A flat expression: a head and the operators that follow it, each with its right operand. -/
structure Flat where
  head : Expr
  steps : List (Operator × Expr)

namespace Flat

def buffer (f : Flat) : Buffer := ⟨f.head :: f.steps.map Prod.snd, f.steps.map Prod.fst⟩

/-- The tree of a flat expression, which always has one. -/
def toExpr (f : Flat) : Expr := f.buffer.collapse?.getD f.head

end Flat

end EntitySql
