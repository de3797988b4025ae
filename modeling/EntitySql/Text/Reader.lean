import EntitySql.Text.Blank

/-!
# Readers

Functions that read the start of a text and leave the rest, or fail.
-/

namespace EntitySql.Text

/-- A reader of a text: what it read, and the rest. -/
abbrev Reader := StateT (List Char) Option

namespace Reader

variable {α : Type}

/-- What a reader makes of a whole text. -/
def whole? (r : Reader α) (s : String) : Option α :=
  match r.run s.toList with
  | some (a, []) => some a
  | _ => none

/-- The character `c`. -/
def mark (c : Char) : Reader Unit
  | d :: cs => if d = c then some ((), cs) else none
  | [] => none

/-- Whether the next character is `c`, which is then read. -/
def skip? (c : Char) : Reader Bool
  | d :: cs => if d = c then some (true, cs) else some (false, d :: cs)
  | [] => some (false, [])

/-- All digits that come next. -/
def digits : Reader (List Char) := fun cs =>
  some (cs.takeWhile Char.isDigit, cs.dropWhile Char.isDigit)

/-- The value, where it is valid. -/
def checked (valid : α → Bool) (a : α) : Reader α := fun cs =>
  if valid a then some (a, cs) else none

/-- All digits that come next; at least one. -/
def someDigits : Reader (List Char) := do
  let ds ← digits
  checked (fun ds => !ds.isEmpty) ds

/-- All blanks that come next. -/
def blanks : Reader Unit := fun cs => some ((), trimStart cs)

end Reader

/-- The number that digits write. -/
def natOfDigits (ds : List Char) : Nat := ds.foldl (fun n c => 10 * n + (c.toNat - '0'.toNat)) 0

end EntitySql.Text
