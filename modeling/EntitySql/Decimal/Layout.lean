import EntitySql.Decimal.Shortest

/-!
# Written forms of a double

A `Layout` fixes what the digits leave open: where positional notation ends, whether a whole number
keeps a decimal, and where ties go. The library uses two of them, `plain` for literals in a query
and `data` for values printed as data.
-/

namespace EntitySql.Decimal

/-- The decisions of a written form. -/
structure Layout where
  /-- Exponents of the leading digit that are written without an exponent mark. -/
  positional : Int → Bool
  /-- Whether a whole number is written with a final `.0`. -/
  point : Bool
  tie : Tie

/-- Literals in a query: never an exponent, no decimal on whole numbers, ties go up. -/
def Layout.plain : Layout := ⟨fun _ => true, false, .up⟩

/-- Values as data: positional for leading exponents from -5 to 15, at least one decimal there, and
ties go to the even digit. -/
def Layout.data : Layout := ⟨fun e => -5 ≤ e && e ≤ 15, true, .even⟩

def zeros (n : Nat) : String := String.ofList (List.replicate n '0')

/-- The digits with a decimal point at its place and no exponent. -/
def positionalText (point : Bool) (d : Scaled) : String :=
  let ds := Nat.toDigits 10 d.digits
  if 0 ≤ d.exponent then
    String.ofList ds ++ (if d.digits = 0 then "" else zeros d.exponent.toNat)
      ++ (if point then ".0" else "")
  else
    let places := (-d.exponent).toNat
    if places < ds.length then
      String.ofList (ds.take (ds.length - places)) ++ "."
        ++ String.ofList (ds.drop (ds.length - places))
    else "0." ++ zeros (places - ds.length) ++ String.ofList ds

/-- One digit before the point and a signed exponent. -/
def exponentText (d : Scaled) (leading : Int) : String :=
  let mantissa := match Nat.toDigits 10 d.digits with
    | [] => "0"
    | [c] => String.ofList [c]
    | c :: cs => String.ofList (c :: '.' :: cs)
  mantissa ++ (if leading < 0 then "e-" else "e+") ++ toString leading.natAbs

/-- The written form of a double. -/
def Layout.text (l : Layout) (x : Double) : String :=
  let sign := if x.isNegative then "-" else ""
  if x.isNaN then "NaN"
  else if x.isInfinite then sign ++ "inf"
  else
    let d := shortest l.tie x
    let leading : Int := if d.digits = 0 then 0 else d.exponent + Double.digitCount d.digits - 1
    sign ++ if l.positional leading then positionalText l.point d else exponentText d leading

end EntitySql.Decimal
