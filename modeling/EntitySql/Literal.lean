import EntitySql.Decimal.Layout
import EntitySql.Text.Dotted
import EntitySql.Text.Reader
import EntitySql.Value

/-!
# Literals

The constants of the query language, how they are written, and how they relate to bound values.
-/

namespace EntitySql

inductive Literal where
  | string (s : String)
  | int (n : Int)
  | float (x : Double)
  | bool (b : Bool)
  | null
  deriving DecidableEq, Repr, Inhabited

namespace Literal

/-- A string in single quotes, a quote inside written twice. -/
def quoted (s : String) : String := "\x27" ++ Text.doubled '\x27' s ++ "\x27"

/-- The written form of a literal. -/
def text : Literal → String
  | string s => quoted s
  | int n => toString n
  | float x => Decimal.Layout.plain.text x
  | bool true => "TRUE"
  | bool false => "FALSE"
  | null => "NULL"

/-- The literal with the other sign, where it is a number whose negative is one too. -/
def negate? : Literal → Option Literal
  | int n => if n = -0x8000000000000000 then none else some (int (-n))
  | float x => some (float x.neg)
  | _ => none

/-- The value of a literal; a float that is not finite has none and gives `null`. -/
def toValue : Literal → Value
  | string s => .string s
  | int n => .int n
  | float x => if x.isFinite then .float x else .null
  | bool b => .bool b
  | null => .null

/-- The literal of a scalar value. An integer beyond 64 bits with a sign becomes a float. -/
def ofValue? : Value → Option Literal
  | .null => some null
  | .bool b => some (bool b)
  | .int n =>
    if -0x8000000000000000 ≤ n ∧ n < 0x8000000000000000 then some (int n)
    else some (float (Double.nearest (n < 0) n.natAbs 1))
  | .float x => if x.isNaN then none else some (float x)
  | .string s => some (string s)
  | .array _ | .object _ => none

/-- The literal of the source text of a literal token: a quoted string, or a number that is an
integer where it fits 64 bits and else the nearest float. -/
def ofToken? (text : String) : Option Literal :=
  match text.toList with
  | '\x27' :: rest =>
    let inner := if rest.getLast? = some '\x27' then rest.dropLast else rest
    some (string (String.ofList (Text.undoubleChars '\x27' inner)))
  | cs =>
    let whole := cs.takeWhile Char.isDigit
    let rest := cs.dropWhile Char.isDigit
    let (decimals, rest) := match rest with
      | '.' :: ds => (ds.takeWhile Char.isDigit, ds.dropWhile Char.isDigit)
      | _ => ([], rest)
    let (negative, exponent) := match rest with
      | _ :: '-' :: ds => (true, ds)
      | _ :: '+' :: ds => (false, ds)
      | _ :: ds => (false, ds)
      | [] => (false, [])
    let digits := Text.natOfDigits (whole ++ decimals)
    if whole.isEmpty then none
    else if whole.length = cs.length ∧ digits < 0x8000000000000000 then some (int digits)
    else
      let shift : Int := if negative then -(Text.natOfDigits exponent : Int) else Text.natOfDigits exponent
      some (float (Double.ofDecimal false digits (shift - decimals.length)))

end Literal

/-- The type of a literal. -/
def FieldType.ofLiteral : Literal → FieldType
  | .string _ => .string
  | .int _ => .int
  | .float _ => .float
  | .bool _ => .bool
  | .null => .null

end EntitySql
