import EntitySql.Calendar
import EntitySql.Text.Reader

/-!
# Reading dates and times

Two grammars. The loose one allows blanks before each number and fewer digits than are written; a
year of more than four digits needs a sign. The strict one, of internet timestamps, has a fixed
number of digits and an offset, by which the time is moved to UTC. In both the whole text has to be
read.
-/

namespace EntitySql.Calendar

open Text (Reader natOfDigits)
open Text.Reader

/-- The digits that come next, from one up to a width. -/
def upTo (width : Nat) : Reader Nat := fun cs =>
  let ds := (cs.take width).takeWhile Char.isDigit
  if ds.isEmpty then none else some (natOfDigits ds, cs.drop ds.length)

/-- Exactly that many digits. -/
def exactly (width : Nat) : Reader Nat := fun cs =>
  let ds := (cs.take width).takeWhile Char.isDigit
  if ds.length = width then some (natOfDigits ds, cs.drop width) else none

/-- A number of at most two digits after blanks. -/
def short : Reader Nat := do
  blanks
  upTo 2

/-- A year: up to four digits, or a sign and any number of them. -/
def year : Reader Int := do
  blanks
  if ← skip? '-' then return -(natOfDigits (← someDigits) : Int)
  else if ← skip? '+' then return natOfDigits (← someDigits)
  else return (← upTo 4 : Nat)

/-- The nanoseconds that the digits after a point stand for; those beyond the ninth are dropped. -/
def nanosOf (ds : List Char) : Nat :=
  let kept := ds.take 9
  natOfDigits kept * Nat.pow 10 (9 - kept.length)

/-- A fraction of a second, or none. -/
def fraction : Reader Nat := do
  if ← skip? '.' then return nanosOf (← someDigits) else return 0

/-! ## The loose grammar -/

def date : Reader Date := do
  let y ← year
  mark '-'
  let m ← short
  mark '-'
  let d ← short
  checked Date.isValid ⟨y, m, d⟩

def clock : Reader Clock := do
  let h ← short
  mark ':'
  let m ← short
  mark ':'
  let s ← short
  let nanos ← fraction
  checked Clock.isValid ⟨h, m, s, nanos⟩

/-- Date and time with what stands between them. -/
def stamp (between : Reader Unit) : Reader Stamp := do
  let d ← date
  between
  let c ← clock
  return ⟨d, c⟩

/-! ## The strict grammar -/

/-- The minutes that the local time is ahead of UTC. -/
def offset : Reader Int := fun cs =>
  match cs with
  | 'Z' :: rest | 'z' :: rest => some (0, rest)
  | '+' :: rest => minutes rest
  | '-' :: rest | '−' :: rest => (minutes rest).map fun (n, rest) => (-n, rest)
  | _ => none
where
  /-- `HH:MM`, less than a day. -/
  minutes : Reader Int := do
    let h ← exactly 2
    mark ':'
    let m ← exactly 2
    checked (fun _ => decide (h ≤ 23) && decide (m ≤ 59)) (h * 60 + m : Nat)

/-- What divides date and time. -/
def divider : Reader Unit
  | 'T' :: cs | 't' :: cs | ' ' :: cs => some ((), cs)
  | _ => none

/-- An internet timestamp, moved to UTC. -/
def timestamp : Reader Stamp := do
  let y ← exactly 4
  mark '-'
  let mo ← exactly 2
  mark '-'
  let d ← exactly 2
  divider
  let h ← exactly 2
  mark ':'
  let mi ← exactly 2
  mark ':'
  let s ← exactly 2
  let nanos ← fraction
  let ahead ← offset
  let date ← checked Date.isValid ⟨y, mo, d⟩
  let clock ← checked Clock.isValid ⟨h, mi, s, nanos⟩
  return Stamp.back ahead ⟨date, clock⟩

end EntitySql.Calendar

namespace EntitySql

/-- The date that a text writes. -/
def Date.ofText? (s : String) : Option Date := Calendar.date.whole? s

/-- The time of day that a text writes. -/
def Clock.ofText? (s : String) : Option Clock := Calendar.clock.whole? s

/-- The date and time that a text writes: an internet timestamp, else date and time with blanks or a
`T` between them. -/
def Stamp.ofText? (s : String) : Option Stamp :=
  Calendar.timestamp.whole? s
    <|> (Calendar.stamp Text.Reader.blanks).whole? s
    <|> (Calendar.stamp (Text.Reader.mark 'T')).whole? s

end EntitySql
