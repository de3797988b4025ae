import EntitySql.Pairs
import EntitySql.Value.Numeral

/-!
# Reading data

A data text is first read as a `Document`, which keeps numbers as they are written, all members of
an object with their repetitions, and strings that are no text (half of a surrogate pair). What is
used of a document is then made a value; what is not used is never looked at.
-/

namespace EntitySql

/-- A data text as it was read. A string that is no text is `none`. -/
inductive Document where
  | null
  | bool (b : Bool)
  | number (n : Numeral)
  | string (s : Option String)
  | array (items : List Document)
  | object (members : List (Option String × Document))
  deriving Inhabited

namespace Document

open Text (Reader)

/-! ## Strings -/

/-- A unit of a quoted string: a character, or a code of 16 bits. -/
abbrev CodeUnit := Char ⊕ Nat

/-- The value of a hexadecimal digit. -/
def hexValue? (c : Char) : Option Nat :=
  if c.isDigit then some (c.toNat - '0'.toNat)
  else if 'a' ≤ c ∧ c ≤ 'f' then some (c.toNat - 'a'.toNat + 10)
  else if 'A' ≤ c ∧ c ≤ 'F' then some (c.toNat - 'A'.toNat + 10)
  else none

/-- The number of four hexadecimal digits. -/
def code? (a b c d : Char) : Option Nat := do
  let a ← hexValue? a
  let b ← hexValue? b
  let c ← hexValue? c
  let d ← hexValue? d
  return ((a * 16 + b) * 16 + c) * 16 + d

/-- The character that a short escape stands for. -/
def escaped? : Char → Option Char
  | '\x22' => some '\x22'
  | '\\' => some '\\'
  | '/' => some '/'
  | 'b' => some '\x08'
  | 'f' => some '\x0c'
  | 'n' => some '\n'
  | 'r' => some '\r'
  | 't' => some '\t'
  | _ => none

/-- The units of a string up to its closing quote. -/
def units : Reader (List CodeUnit)
  | '\x22' :: cs => some ([], cs)
  | '\\' :: 'u' :: a :: b :: c :: d :: cs => do
    let n ← code? a b c d
    let (us, rest) ← units cs
    return (.inr n :: us, rest)
  | '\\' :: e :: cs => do
    let c ← escaped? e
    let (us, rest) ← units cs
    return (.inl c :: us, rest)
  | c :: cs =>
    if c.toNat < 0x20 then none
    else do
      let (us, rest) ← units cs
      return (.inl c :: us, rest)
  | [] => none

/-- The characters of units; none where a surrogate stands alone. -/
def assemble : List CodeUnit → Option (List Char)
  | [] => some []
  | .inl c :: us => do return c :: (← assemble us)
  | .inr high :: .inr low :: us =>
    if 0xD800 ≤ high ∧ high < 0xDC00 then
      if 0xDC00 ≤ low ∧ low < 0xE000 then do
        let cs ← assemble us
        return Char.ofNat (0x10000 + (high - 0xD800) * 0x400 + (low - 0xDC00)) :: cs
      else none
    else if 0xDC00 ≤ high ∧ high < 0xE000 then none
    else do return Char.ofNat high :: (← assemble (.inr low :: us))
  | .inr n :: us =>
    if 0xD800 ≤ n ∧ n < 0xE000 then none else do return Char.ofNat n :: (← assemble us)

/-- A string after its opening quote. -/
def quoted : Reader (Option String) := do
  let us ← units
  return (assemble us).map String.ofList

/-! ## Documents -/

def isSpace (c : Char) : Bool := c == ' ' || c == '\t' || c == '\n' || c == '\r'

/-- The spaces that come next. -/
def spaces : Reader Unit := fun cs => some ((), cs.dropWhile isSpace)

mutual
/-- A document, with what stands before it, within `fuel` steps. -/
def reader : Nat → Reader Document
  | 0, _ => none
  | fuel + 1, cs =>
    match cs.dropWhile isSpace with
    | 'n' :: 'u' :: 'l' :: 'l' :: rest => some (.null, rest)
    | 't' :: 'r' :: 'u' :: 'e' :: rest => some (.bool true, rest)
    | 'f' :: 'a' :: 'l' :: 's' :: 'e' :: rest => some (.bool false, rest)
    | '\x22' :: rest => do
      let (s, rest) ← quoted rest
      return (.string s, rest)
    | '[' :: rest =>
      match rest.dropWhile isSpace with
      | ']' :: rest => some (.array [], rest)
      | rest => do
        let (items, rest) ← items fuel rest
        return (.array items, rest)
    | '\x7b' :: rest =>
      match rest.dropWhile isSpace with
      | '\x7d' :: rest => some (.object [], rest)
      | rest => do
        let (members, rest) ← members fuel rest
        return (.object members, rest)
    | rest => do
      let (n, rest) ← Numeral.reader rest
      return (.number n, rest)
/-- The items of an array, up to its end; at least one. -/
def items : Nat → Reader (List Document)
  | 0, _ => none
  | fuel + 1, cs => do
    let (item, rest) ← reader fuel cs
    match rest.dropWhile isSpace with
    | ']' :: rest => return ([item], rest)
    | ',' :: rest =>
      let (more, rest) ← items fuel rest
      return (item :: more, rest)
    | _ => none
/-- The members of an object, up to its end; at least one. -/
def members : Nat → Reader (List (Option String × Document))
  | 0, _ => none
  | fuel + 1, cs =>
    match cs.dropWhile isSpace with
    | '\x22' :: rest => do
      let (key, rest) ← quoted rest
      let ((), rest) ← spaces rest
      let ((), rest) ← Text.Reader.mark ':' rest
      let (item, rest) ← reader fuel rest
      match rest.dropWhile isSpace with
      | '\x7d' :: rest => return ([(key, item)], rest)
      | ',' :: rest =>
        let (more, rest) ← members fuel rest
        return ((key, item) :: more, rest)
      | _ => none
    | _ => none
end

/-- The document of a text. Each step of the reader passes a character or is followed by one that
does. -/
def ofText? (s : String) : Option Document :=
  Text.Reader.whole? (do
    let doc ← reader (2 * s.length + 2)
    spaces
    return doc) s

/-! ## Values -/

mutual
/-- The value of a document in which arrays and objects nest at most `levels` deep. -/
def value? (levels : Nat) : Document → Option Value
  | null => some .null
  | bool b => some (.bool b)
  | number n => n.value?
  | string s => s.map .string
  | array items =>
    match levels with
    | 0 => none
    | l + 1 => (values? l items).map .array
  | object members =>
    match levels with
    | 0 => none
    | l + 1 => (members? l members).map fun ms => .object (Pairs.ofList ms)
def values? (levels : Nat) : List Document → Option (List Value)
  | [] => some []
  | d :: ds => do return (← value? levels d) :: (← values? levels ds)
def members? (levels : Nat) : List (Option String × Document) → Option (List (String × Value))
  | [] => some []
  | (key, d) :: ms => do return (← key, ← value? levels d) :: (← members? levels ms)
end

end Document

end EntitySql
