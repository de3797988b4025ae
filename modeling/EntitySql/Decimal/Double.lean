/-!
# Double precision numbers

A number of the format with 53 significant bits, kept as its 64 bits. A finite one has the value
`significand · 2 ^ power`. `nearest` rounds a quotient of naturals to the nearest such number, a
tie going to the even significand; reading decimals, products and quotients all come from it.
-/

namespace EntitySql

/-- A double precision number, given by its bits. -/
structure Double where
  bits : UInt64
  deriving DecidableEq, Repr, Inhabited

namespace Double

/-- The weight of the lowest bit above the fraction, `2 ^ 52`. A number that is not too small has this
bit in its significand without storing it. -/
def hiddenBit : Nat := 0x10000000000000

/-- The weight of the bit of the sign, `2 ^ 63`. -/
def signBit : Nat := 0x8000000000000000

/-- The eleven bits of the exponent. -/
def exponentField (x : Double) : Nat := x.bits.toNat / hiddenBit % 0x800

/-- The 52 bits of the fraction. -/
def fractionField (x : Double) : Nat := x.bits.toNat % hiddenBit

def isNegative (x : Double) : Bool := signBit ≤ x.bits.toNat

def isInfinite (x : Double) : Bool := x.exponentField == 2047 && x.fractionField == 0

def isNaN (x : Double) : Bool := x.exponentField == 2047 && x.fractionField != 0

def isFinite (x : Double) : Bool := x.exponentField != 2047

/-- The absolute value of a finite number is `significand · 2 ^ power`. -/
def significand (x : Double) : Nat :=
  if x.exponentField = 0 then x.fractionField else hiddenBit + x.fractionField

/-- The absolute value of a finite number is `significand · 2 ^ power`. -/
def power (x : Double) : Int :=
  if x.exponentField = 0 then -1074 else (x.exponentField : Int) - 1075

def isZero (x : Double) : Bool := x.isFinite && x.significand == 0

/-- The number with the given sign and the given lower 63 bits. -/
def signed (negative : Bool) (magnitude : Nat) : Double :=
  ⟨(if negative then signBit + magnitude else magnitude).toUInt64⟩

/-- The same number with the other sign. -/
def neg (x : Double) : Double := signed (!x.isNegative) (x.bits.toNat % signBit)

def zero (negative : Bool) : Double := signed negative 0

def infinity (negative : Bool) : Double := signed negative (2047 * hiddenBit)

/-- The quotient rounded to the nearest natural, a tie going to the even one. -/
def roundEven (num den : Nat) : Nat :=
  let q := num / den
  let r := num % den
  if 2 * r < den then q
  else if den < 2 * r then q + 1
  else if q % 2 = 0 then q else q + 1

/-- `n · 2 ^ k` over `d · 2 ^ (-k)`, with whichever power is a natural. -/
def scale (num den : Nat) (k : Int) : Nat × Nat :=
  if 0 ≤ k then (num * Nat.pow 2 k.toNat, den) else (num, den * Nat.pow 2 (-k).toNat)

/-- The double nearest to `num / den`, a tie going to the even significand, and an infinity beyond
the largest one. -/
def nearest (negative : Bool) (num den : Nat) : Double :=
  if num = 0 ∨ den = 0 then zero negative
  else
    let guess : Int := (Nat.log2 num : Int) - Nat.log2 den - 52
    let (n, d) := scale num den (-guess)
    let exact := if n < hiddenBit * d then guess - 1 else guess
    let power := max exact (-1074)
    let (n, d) := scale num den (-power)
    let m := roundEven n d
    let magnitude := (power + 1074).toNat * hiddenBit + m
    if 2047 * hiddenBit ≤ magnitude then infinity negative else signed negative magnitude

/-- The number of decimal digits; one for zero. -/
def digitCount (n : Nat) : Nat := (Nat.toDigits 10 n).length

/-- The double nearest to `digits · 10 ^ exponent`. Exponents far out of range are decided by the
number of digits alone. -/
def ofDecimal (negative : Bool) (digits : Nat) (exponent : Int) : Double :=
  if digits = 0 then zero negative
  else
    let order := exponent + digitCount digits
    if 310 < order then infinity negative
    else if order < -330 then zero negative
    else if 0 ≤ exponent then nearest negative (digits * Nat.pow 10 exponent.toNat) 1
    else nearest negative digits (Nat.pow 10 (-exponent).toNat)

/-- A finite double as a quotient of naturals, its sign apart. -/
def toQuotient (x : Double) : Nat × Nat := scale x.significand 1 x.power

/-- The rounded product of two finite doubles. -/
def mul (x y : Double) : Double :=
  let (a, b) := x.toQuotient
  let (c, d) := y.toQuotient
  nearest (x.isNegative != y.isNegative) (a * c) (b * d)

/-- The rounded quotient of two finite doubles, the second not zero. -/
def div (x y : Double) : Double :=
  let (a, b) := x.toQuotient
  let (c, d) := y.toQuotient
  nearest (x.isNegative != y.isNegative) (a * d) (b * c)

end Double

end EntitySql
