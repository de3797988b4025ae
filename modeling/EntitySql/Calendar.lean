/-!
# Dates and times of day

Dates of the proleptic Gregorian calendar, times of day with nanoseconds, and the two together. A
time of day may be the leap second 60 of any minute.
-/

namespace EntitySql

/-- A day. -/
structure Date where
  year : Int
  month : Nat
  day : Nat
  deriving DecidableEq, Repr, Inhabited

/-- A time of day. -/
structure Clock where
  hour : Nat
  minute : Nat
  /-- At most 60, the leap second. -/
  second : Nat
  nanos : Nat := 0
  deriving DecidableEq, Repr, Inhabited

/-- A day and a time of day. -/
structure Stamp where
  date : Date
  clock : Clock
  deriving DecidableEq, Repr, Inhabited

/-- The decimal digits of a number, with zeros before them up to a width. -/
def padded (width n : Nat) : String :=
  let digits := Nat.toDigits 10 n
  String.ofList (List.replicate (width - digits.length) '0' ++ digits)

namespace Date

def isLeapYear (year : Int) : Bool := (year % 4 == 0 && year % 100 != 0) || year % 400 == 0

/-- The number of days of a month; none for what is no month. -/
def daysIn (year : Int) : Nat → Nat
  | 2 => if isLeapYear year then 29 else 28
  | 4 | 6 | 9 | 11 => 30
  | 1 | 3 | 5 | 7 | 8 | 10 | 12 => 31
  | _ => 0

/-- The first and the last year that dates reach. -/
def firstYear : Int := -262143
def lastYear : Int := 262142

/-- A day that the calendar has. -/
def isValid (d : Date) : Bool :=
  firstYear ≤ d.year && d.year ≤ lastYear && 1 ≤ d.day && d.day ≤ daysIn d.year d.month

def next (d : Date) : Date :=
  if d.day < daysIn d.year d.month then { d with day := d.day + 1 }
  else if d.month < 12 then ⟨d.year, d.month + 1, 1⟩
  else ⟨d.year + 1, 1, 1⟩

def previous (d : Date) : Date :=
  if 1 < d.day then { d with day := d.day - 1 }
  else if 1 < d.month then ⟨d.year, d.month - 1, daysIn d.year (d.month - 1)⟩
  else ⟨d.year - 1, 12, 31⟩

/-- A year in four digits; outside these it shows its sign. -/
def yearText (year : Int) : String :=
  if 0 ≤ year ∧ year ≤ 9999 then padded 4 year.toNat
  else (if year < 0 then "-" else "+") ++ padded 4 year.natAbs

/-- `YYYY-MM-DD`. -/
def text (d : Date) : String := yearText d.year ++ "-" ++ padded 2 d.month ++ "-" ++ padded 2 d.day

end Date

namespace Clock

/-- A time that a day has. -/
def isValid (c : Clock) : Bool :=
  c.hour ≤ 23 && c.minute ≤ 59 && c.second ≤ 60 && c.nanos < 1000000000

/-- The fraction of the second with 3, 6 or 9 digits, as few as are exact; nothing where there is
none. -/
def fractionText (c : Clock) : String :=
  if c.nanos = 0 then ""
  else if c.nanos % 1000000 = 0 then "." ++ padded 3 (c.nanos / 1000000)
  else if c.nanos % 1000 = 0 then "." ++ padded 6 (c.nanos / 1000)
  else "." ++ padded 9 c.nanos

/-- `HH:MM:SS`, without the fraction. -/
def wholeText (c : Clock) : String :=
  padded 2 c.hour ++ ":" ++ padded 2 c.minute ++ ":" ++ padded 2 c.second

/-- `HH:MM:SS` with the fraction. -/
def text (c : Clock) : String := c.wholeText ++ c.fractionText

end Clock

namespace Stamp

/-- The same moment of a clock that is `minutes` behind, by less than a day. A leap second stays
one. -/
def back (minutes : Int) (s : Stamp) : Stamp :=
  let total := (s.clock.hour * 60 + s.clock.minute : Int) - minutes
  let date := if total < 0 then s.date.previous else if total < 1440 then s.date else s.date.next
  let ofDay := (total % 1440).toNat
  ⟨date, { s.clock with hour := ofDay / 60, minute := ofDay % 60 }⟩

/-- Date and time, with the fraction. -/
def text (s : Stamp) : String := s.date.text ++ " " ++ s.clock.text

/-- Date and time without the fraction, divided by a separator. -/
def wholeText (sep : String) (s : Stamp) : String := s.date.text ++ sep ++ s.clock.wholeText

end Stamp

end EntitySql
