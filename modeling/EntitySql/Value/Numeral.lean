import EntitySql.Text.Reader
import EntitySql.Value

/-!
# Numbers in data

A number as it is written in data, and its value. A plain integer of 64 bits, with or without a
sign, is itself. All else becomes a double: as many leading digits as fit 64 bits are taken, rounded
and then scaled by one power of ten, so the result may differ from the nearest double in its last
place.
-/

namespace EntitySql

/-- A number as it is written. -/
structure Numeral where
  negative : Bool
  whole : List Char
  /-- The digits after the point. -/
  decimals : List Char := []
  /-- The sign and the digits of the exponent. -/
  exponent : Option (Bool × List Char) := none
  deriving DecidableEq, Repr, Inhabited

namespace Numeral

open Text (Reader natOfDigits)
open Text.Reader

/-- The digits after a point, or none. -/
def fraction : Reader (List Char) := do
  if ← skip? '.' then someDigits else return []

/-- The sign of an exponent. -/
def exponentSign : Reader Bool := do
  if ← skip? '-' then return true
  else
    let _ ← skip? '+'
    return false

/-- An exponent, or none. -/
def scale? : Reader (Option (Bool × List Char)) := do
  if (← skip? 'e') then return some (← exponentSign, ← someDigits)
  else if (← skip? 'E') then return some (← exponentSign, ← someDigits)
  else return none

/-- The digits before the point: a zero alone, or digits that start with none. -/
def isWhole : List Char → Bool
  | [] => false
  | ['0'] => true
  | '0' :: _ => false
  | _ => true

/-- A written number. -/
def reader : Reader Numeral := do
  let negative ← skip? '-'
  let ds ← digits
  let whole ← checked isWhole ds
  let decimals ← fraction
  let exponent ← scale?
  return ⟨negative, whole, decimals, exponent⟩

/-- The largest number of 64 bits. -/
def limit : Nat := 0xffffffffffffffff

/-- The number of the leading digits after `n`, as far as it fits, and the digits left over. -/
def accumulate (n : Nat) : List Char → Nat × List Char
  | [] => (n, [])
  | d :: ds =>
    let next := 10 * n + (d.toNat - '0'.toNat)
    if limit < next then (n, d :: ds) else accumulate next ds

/-- The value of a plain integer: zero has no negative, and what does not fit 64 bits with its sign
is rounded. -/
def integer (negative : Bool) (n : Nat) : Value :=
  if negative then
    if n = 0 ∨ 0x8000000000000000 < n then .float (Double.nearest true n 1) else .int (-(n : Int))
  else .int n

/-- The double nearest to a power of ten. -/
def tenTo (k : Nat) : Double := Double.ofDecimal false 1 k

/-- A double divided by `10 ^ k`, in steps of the largest power that a double holds. -/
def scaleDown (x : Double) (k : Nat) : Double :=
  if k ≤ 308 then x.div (tenTo k)
  else if x.isZero then x
  else scaleDown (x.div (tenTo 308)) (k - 308)
termination_by k

/-- A double times `10 ^ k`, where that is finite. -/
def scaleUp? (x : Double) (k : Nat) : Option Double :=
  if 308 < k then if x.isZero then some x else none
  else
    let y := x.mul (tenTo k)
    if y.isFinite then some y else none

/-- The double of a significand and a power of ten. -/
def scaled? (negative : Bool) (significand : Nat) (exponent : Int) : Option Value :=
  let x := Double.nearest false significand 1
  let y := if exponent < 0 then some (scaleDown x exponent.natAbs) else scaleUp? x exponent.toNat
  y.map fun y => .float (if negative then y.neg else y)

/-- The largest exponent that is read as one; beyond it the number is zero or too large. -/
def exponentLimit : Nat := 0x7fffffff

/-- The value of a written number; none where it is too large. -/
def value? (n : Numeral) : Option Value :=
  let (significand, beyond) := accumulate 0 n.whole
  if beyond.isEmpty && n.decimals.isEmpty && n.exponent.isNone then some (integer n.negative significand)
  else
    let (significand, dropped) := accumulate significand n.decimals
    let point : Int := beyond.length - (n.decimals.length - dropped.length : Int)
    match n.exponent with
    | none => scaled? n.negative significand point
    | some (down, ds) =>
      let e := natOfDigits ds
      if exponentLimit < e then
        if significand = 0 ∨ down then some (.float (Double.zero n.negative)) else none
      else scaled? n.negative significand (if down then point - e else point + e)

end Numeral

end EntitySql
