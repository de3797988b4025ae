/-!
# Letter case

Keywords, operators and function names are compared without regard to case. Only ASCII letters
count in `sameLetters`. `capitals` also knows the few other characters whose capital form is made
of ASCII letters, so that a phrase written with them still names a keyword.
-/

namespace EntitySql.Text

/-- The text with its ASCII capitals made small. -/
def lower (s : String) : String := String.ofList (s.toList.map Char.toLower)

/-- Equality of two texts up to the case of ASCII letters. -/
def sameLetters (a b : String) : Bool := lower a == lower b

/-- The capital form of a character, right wherever that form is ASCII; any other character stands
for itself, which is not ASCII either. -/
def capital (c : Char) : List Char :=
  if c.toNat < 128 then [c.toUpper]
  else match c.toNat with
    | 0x00DF => ['S', 'S']
    | 0x0131 => ['I']
    | 0x017F => ['S']
    | 0xFB00 => ['F', 'F']
    | 0xFB01 => ['F', 'I']
    | 0xFB02 => ['F', 'L']
    | 0xFB03 => ['F', 'F', 'I']
    | 0xFB04 => ['F', 'F', 'L']
    | 0xFB05 => ['S', 'T']
    | 0xFB06 => ['S', 'T']
    | _ => [c]

/-- The text in capitals, for comparison with ASCII words. -/
def capitals (s : String) : String := String.ofList (s.toList.flatMap capital)

end EntitySql.Text
