import EntitySql.Decimal.Double

/-!
# The fewest digits that read back

Of all decimals that round to a given double, `shortest` gives one with the fewest digits, and of
those the nearest. For 1, 2, … 17 digits it tests the two neighbours of the value on the grid of
that many digits, in exact arithmetic on naturals. What happens to two neighbours at the same
distance is a decision of the format that writes the number (`Tie`).
-/

namespace EntitySql.Decimal

/-- Which of two equally near candidates is taken. -/
inductive Tie where
  | up
  | even
  deriving DecidableEq, Repr

/-- The decimal `digits · 10 ^ exponent`. -/
structure Scaled where
  digits : Nat
  exponent : Int
  deriving DecidableEq, Repr

/-- The reals that round to one double, as quotients over a common denominator. The ends belong to
the interval exactly if `closed`. -/
structure Rounding where
  low : Nat
  value : Nat
  high : Nat
  den : Nat
  closed : Bool

/-- The interval of a finite double that is not zero. Below a power of two the gap to the next
smaller double is half as wide. -/
def Rounding.ofDouble (x : Double) : Rounding :=
  let m := x.significand
  let narrow := m = Double.hiddenBit ∧ x.power ≠ -1074
  let (s, den) := Double.scale 1 1 (x.power - 2)
  { low := (4 * m - if narrow then 1 else 2) * s
    value := 4 * m * s
    high := (4 * m + 2) * s
    den
    closed := m % 2 == 0 }

/-- `c · 10 ^ k` and `n / den` on one denominator. -/
def onGrid (k : Int) (den : Nat) (c n : Nat) : Nat × Nat :=
  if 0 ≤ k then (c * Nat.pow 10 k.toNat * den, n) else (c * den, n * Nat.pow 10 (-k).toNat)

/-- Whether `c · 10 ^ k` rounds to the double. -/
def Rounding.admits (r : Rounding) (k : Int) (c : Nat) : Bool :=
  let (a, low) := onGrid k r.den c r.low
  let (b, high) := onGrid k r.den c r.high
  if r.closed then low ≤ a && b ≤ high else low < a && b < high

/-- The exponent of the leading decimal digit of the value. -/
def Rounding.leading (r : Rounding) : Int :=
  if r.den ≤ r.value then (Double.digitCount (r.value / r.den) : Int) - 1
  else -(Double.digitCount ((r.den + r.value - 1) / r.value - 1) : Int)

/-- The largest `c` with `c · 10 ^ k` at most the value. -/
def Rounding.below (r : Rounding) (k : Int) : Nat :=
  let (unit, value) := onGrid k r.den 1 r.value
  value / unit

/-- The candidate on the grid `10 ^ k`, if one of the value's two neighbours rounds to the double. -/
def Rounding.candidate? (r : Rounding) (tie : Tie) (k : Int) : Option Nat :=
  let c := r.below k
  match r.admits k c, r.admits k (c + 1) with
  | true, true =>
    let (sum, twice) := onGrid k r.den (2 * c + 1) (2 * r.value)
    if twice < sum then some c
    else if sum < twice then some (c + 1)
    else match tie with
      | .up => some (c + 1)
      | .even => some (if c % 2 = 0 then c else c + 1)
  | true, false => some c
  | false, true => some (c + 1)
  | false, false => none

/-- The candidate of the coarsest grid that has one, over at most `n` further grids. -/
def Rounding.search (r : Rounding) (tie : Tie) : Nat → Int → Scaled
  | 0, k => ⟨r.below k, k⟩
  | n + 1, k =>
    match r.candidate? tie k with
    | some c => ⟨c, k⟩
    | none => r.search tie n (k - 1)

/-- The decimal without trailing zeros among its digits. -/
def stripZeros : Nat → Scaled → Scaled
  | 0, d => d
  | n + 1, d =>
    if d.digits ≠ 0 ∧ d.digits % 10 = 0 then stripZeros n ⟨d.digits / 10, d.exponent + 1⟩ else d

/-- The nearest decimal with the fewest digits that rounds to the finite double `x`, its sign
apart. -/
def shortest (tie : Tie) (x : Double) : Scaled :=
  if x.significand = 0 then ⟨0, 0⟩
  else
    let r := Rounding.ofDouble x
    stripZeros 20 (r.search tie 17 r.leading)

end EntitySql.Decimal
