import EntitySql.Decimal.Layout
import EntitySql.Value

/-!
# Values as text

The compact data text of a value: no blanks, members in order, strings quoted with the short
escapes, other control characters by code, everything else as it stands.
-/

namespace EntitySql.Value

/-- The hexadecimal digit of a number below 16. -/
def hexDigit (n : Nat) : Char := (Nat.digitChar n)

/-- A character inside a quoted string. -/
def escapeChar (c : Char) : List Char :=
  match c.toNat with
  | 0x22 => ['\\', '\x22']
  | 0x5C => ['\\', '\\']
  | 0x08 => ['\\', 'b']
  | 0x0C => ['\\', 'f']
  | 0x0A => ['\\', 'n']
  | 0x0D => ['\\', 'r']
  | 0x09 => ['\\', 't']
  | n => if n < 0x20 then ['\\', 'u', '0', '0', hexDigit (n / 16), hexDigit (n % 16)] else [c]

/-- A string in quotes. -/
def quoteText (s : String) : String :=
  "\x22" ++ String.ofList (s.toList.flatMap escapeChar) ++ "\x22"

mutual
/-- The compact text of a value. -/
def text : Value → String
  | null => "null"
  | bool true => "true"
  | bool false => "false"
  | int n => toString n
  | float x => Decimal.Layout.data.text x
  | string s => quoteText s
  | array [] => "[]"
  | array (v :: vs) => "[" ++ text v ++ itemsText vs ++ "]"
  | object [] => "\x7b\x7d"
  | object ((k, v) :: ms) => "\x7b" ++ quoteText k ++ ":" ++ text v ++ membersText ms ++ "\x7d"
/-- The further items of an array, each after a comma. -/
def itemsText : List Value → String
  | [] => ""
  | v :: vs => "," ++ text v ++ itemsText vs
/-- The further members of an object, each after a comma. -/
def membersText : List (String × Value) → String
  | [] => ""
  | (k, v) :: ms => "," ++ quoteText k ++ ":" ++ text v ++ membersText ms
end

end EntitySql.Value
