import EntitySql.Text.Blank
import EntitySql.Text.Dotted
import EntitySql.Text.Letter

/-!
# Operators

The operators of expressions and their binding strength: the larger, the tighter. `levels` lists the
strengths of the binary ones, the tightest first.
-/

namespace EntitySql

namespace Precedence

def lowest : Nat := 0
def or : Nat := 1
def and : Nat := 2
def not : Nat := 3
def comparison : Nat := 4
def additive : Nat := 5
def multiplicative : Nat := 6
def unary : Nat := 7
def atom : Nat := 8

/-- The strengths of binary operators, the tightest first. -/
def levels : List Nat := [multiplicative, additive, comparison, and, or]

end Precedence

inductive ArithOp where
  | add
  | sub
  | mul
  | div
  | mod
  | concat
  deriving DecidableEq, Repr, Inhabited

namespace ArithOp

def precedence : ArithOp → Nat
  | mul | div | mod => Precedence.multiplicative
  | add | sub | concat => Precedence.additive

def text : ArithOp → String
  | add => "+"
  | sub => "-"
  | mul => "*"
  | div => "/"
  | mod => "%"
  | concat => "||"

end ArithOp

inductive CompareOp where
  | eq
  | notEq
  | lt
  | ltEq
  | gt
  | gtEq
  | like
  | notLike
  | contains
  | is
  | isNot
  | oneOf
  | noneOf
  deriving DecidableEq, Repr, Inhabited

namespace CompareOp

def precedence (_ : CompareOp) : Nat := Precedence.comparison

def text : CompareOp → String
  | eq => "="
  | notEq => "!="
  | lt => "<"
  | ltEq => "<="
  | gt => ">"
  | gtEq => ">="
  | like => "LIKE"
  | notLike => "NOT LIKE"
  | contains => "CONTAINS"
  | is => "IS"
  | isNot => "IS NOT"
  | oneOf => "IN"
  | noneOf => "NOT IN"

/-- Whether the right operand is a list or a subquery. -/
def isMembership : CompareOp → Bool
  | oneOf | noneOf => true
  | _ => false

/-- The operator that a text spells, in any case of letters and with any blanks between words. -/
def ofText? (s : String) : Option CompareOp :=
  match Text.capitals (Text.join " " (Text.words s)) with
  | "=" => some eq
  | "!=" | "<>" => some notEq
  | ">" => some gt
  | ">=" => some gtEq
  | "<" => some lt
  | "<=" => some ltEq
  | "LIKE" => some like
  | "NOT LIKE" => some notLike
  | "CONTAINS" => some contains
  | "IS" => some is
  | "IS NOT" => some isNot
  | "IN" => some oneOf
  | "NOT IN" => some noneOf
  | _ => none

/-- The operator that a text spells, or the wording of its refusal. -/
def ofText (s : String) : Except String CompareOp :=
  match ofText? s with
  | some op => .ok op
  | none => .error ("Invalid comparer operator: \x27" ++ s ++ "\x27")

end CompareOp

inductive LogicOp where
  | and
  | or
  deriving DecidableEq, Repr, Inhabited

namespace LogicOp

def precedence : LogicOp → Nat
  | and => Precedence.and
  | or => Precedence.or

def text : LogicOp → String
  | and => "AND"
  | or => "OR"

end LogicOp

inductive UnaryOp where
  | not
  | negate
  deriving DecidableEq, Repr, Inhabited

namespace UnaryOp

def precedence : UnaryOp → Nat
  | not => Precedence.not
  | negate => Precedence.unary

def text : UnaryOp → String
  | not => "NOT"
  | negate => "-"

end UnaryOp

/-- Any binary operator. -/
inductive Operator where
  | arith (op : ArithOp)
  | compare (op : CompareOp)
  | logic (op : LogicOp)
  deriving DecidableEq, Repr, Inhabited

namespace Operator

def precedence : Operator → Nat
  | arith op => op.precedence
  | compare op => op.precedence
  | logic op => op.precedence

def text : Operator → String
  | arith op => op.text
  | compare op => op.text
  | logic op => op.text

/-- Whether the right operand is a list or a subquery. -/
def isMembership : Operator → Bool
  | compare op => op.isMembership
  | _ => false

/-- The operator that a symbol writes. -/
def ofSymbol? : String → Option Operator
  | "+" => some (arith .add)
  | "-" => some (arith .sub)
  | "*" => some (arith .mul)
  | "/" => some (arith .div)
  | "%" => some (arith .mod)
  | "||" => some (arith .concat)
  | "=" => some (compare .eq)
  | "!=" | "<>" => some (compare .notEq)
  | "<" => some (compare .lt)
  | "<=" => some (compare .ltEq)
  | ">" => some (compare .gt)
  | ">=" => some (compare .gtEq)
  | _ => none

/-- The operators written with keywords, those of two words before their single words. -/
def phrases : List (List String × Operator) :=
  [(["NOT", "LIKE"], compare .notLike), (["NOT", "IN"], compare .noneOf),
   (["IS", "NOT"], compare .isNot), (["LIKE"], compare .like), (["CONTAINS"], compare .contains),
   (["IS"], compare .is), (["IN"], compare .oneOf), (["AND"], logic .and), (["OR"], logic .or)]

end Operator

end EntitySql
