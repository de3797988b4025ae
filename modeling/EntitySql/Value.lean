import EntitySql.Decimal.Double
import EntitySql.FieldType

/-!
# Bound values

The values that callers bind to parameters and that rows carry. Objects keep their members in
order.
-/

namespace EntitySql

inductive Value where
  | null
  | bool (b : Bool)
  | int (n : Int)
  | float (x : Double)
  | string (s : String)
  | array (items : List Value)
  | object (members : List (String × Value))
  deriving Inhabited, Repr

namespace Value

mutual
/-- Equality of values is decidable. -/
def decEq : (a b : Value) → Decidable (a = b)
  | .null, .null => isTrue rfl
  | .bool a, .bool b => if h : a = b then isTrue (h ▸ rfl) else isFalse (by simp [h])
  | .int a, .int b => if h : a = b then isTrue (h ▸ rfl) else isFalse (by simp [h])
  | .float a, .float b => if h : a = b then isTrue (h ▸ rfl) else isFalse (by simp [h])
  | .string a, .string b => if h : a = b then isTrue (h ▸ rfl) else isFalse (by simp [h])
  | .array a, .array b =>
    match decEqItems a b with
    | isTrue h => isTrue (h ▸ rfl)
    | isFalse h => isFalse (by simp [h])
  | .object a, .object b =>
    match decEqMembers a b with
    | isTrue h => isTrue (h ▸ rfl)
    | isFalse h => isFalse (by simp [h])
  | .null, .bool _ | .null, .int _ | .null, .float _ | .null, .string _ | .null, .array _
  | .null, .object _ | .bool _, .null | .bool _, .int _ | .bool _, .float _ | .bool _, .string _
  | .bool _, .array _ | .bool _, .object _ | .int _, .null | .int _, .bool _ | .int _, .float _
  | .int _, .string _ | .int _, .array _ | .int _, .object _ | .float _, .null | .float _, .bool _
  | .float _, .int _ | .float _, .string _ | .float _, .array _ | .float _, .object _
  | .string _, .null | .string _, .bool _ | .string _, .int _ | .string _, .float _
  | .string _, .array _ | .string _, .object _ | .array _, .null | .array _, .bool _
  | .array _, .int _ | .array _, .float _ | .array _, .string _ | .array _, .object _
  | .object _, .null | .object _, .bool _ | .object _, .int _ | .object _, .float _
  | .object _, .string _ | .object _, .array _ => isFalse nofun
/-- Equality of lists of values is decidable. -/
def decEqItems : (a b : List Value) → Decidable (a = b)
  | [], [] => isTrue rfl
  | a :: as, b :: bs =>
    match decEq a b, decEqItems as bs with
    | isTrue h, isTrue hs => isTrue (h ▸ hs ▸ rfl)
    | isFalse h, _ => isFalse (by simp [h])
    | _, isFalse h => isFalse (by simp [h])
  | [], _ :: _ | _ :: _, [] => isFalse nofun
/-- Equality of lists of members is decidable. -/
def decEqMembers : (a b : List (String × Value)) → Decidable (a = b)
  | [], [] => isTrue rfl
  | (k, a) :: as, (l, b) :: bs =>
    if hk : k = l then
      match decEq a b, decEqMembers as bs with
      | isTrue h, isTrue hs => isTrue (hk ▸ h ▸ hs ▸ rfl)
      | isFalse h, _ => isFalse (by simp [h])
      | _, isFalse h => isFalse (by simp [h])
    else isFalse (by simp [hk])
  | [], _ :: _ | _ :: _, [] => isFalse nofun
end

instance : DecidableEq Value := decEq

def isNull : Value → Bool
  | null => true
  | _ => false

/-- Arrays and objects are structured, all other values scalar. -/
def isScalar : Value → Bool
  | array _ | object _ => false
  | _ => true

/-- The integer, if the value is one that fits 64 bits with a sign. -/
def toInt64? : Value → Option Int
  | int n => if -0x8000000000000000 ≤ n ∧ n < 0x8000000000000000 then some n else none
  | _ => none

end Value

/-- The type of a bound value. A string is a `string` also where it spells a date: the declared
type of a slot decides on conversions. -/
def FieldType.ofValue : Value → FieldType
  | .null => .null
  | .bool _ => .bool
  | .int _ => .int
  | .float _ => .float
  | .string _ => .string
  | .array _ | .object _ => .json

end EntitySql
