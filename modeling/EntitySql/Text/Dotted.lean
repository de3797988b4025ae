/-!
# Dotted names

A name such as `c.address.city` is read as segments between dots. The last segment is the name
proper and all before it is the qualifier.
-/

namespace EntitySql.Text

/-- The pieces between the occurrences of `sep`; always at least one. -/
def splitChars (sep : Char) : List Char → List (List Char)
  | [] => [[]]
  | c :: cs =>
    if c = sep then [] :: splitChars sep cs
    else match splitChars sep cs with
      | [] => [[c]]
      | piece :: pieces => (c :: piece) :: pieces

/-- The segments of a dotted name. -/
def segments (name : String) : List String :=
  (splitChars '.' name.toList).map String.ofList

/-- The texts with a separator between each two. -/
def join (sep : String) : List String → String
  | [] => ""
  | [s] => s
  | s :: ss => s ++ sep ++ join sep ss

/-- The part before the last dot and the part after it. -/
def splitLast? (name : String) : Option (String × String) :=
  match (segments name).reverse with
  | last :: q :: qs => some (join "." (q :: qs).reverse, last)
  | _ => none

/-- The last segment: `name` for `u.name`. -/
def lastSegment (name : String) : String :=
  match splitLast? name with
  | some (_, last) => last
  | none => name

/-- Everything before the last segment: `u` for `u.name`. -/
def qualifier? (name : String) : Option String := (splitLast? name).map (·.1)

/-- The text with each occurrence of `c` written twice. -/
def doubled (c : Char) (s : String) : String :=
  String.ofList (s.toList.flatMap fun d => if d = c then [d, d] else [d])

/-- The text with each pair of `c` read as one `c`, from the left. -/
def undoubleChars (c : Char) : List Char → List Char
  | [] => []
  | [a] => [a]
  | a :: b :: cs =>
    if a = c ∧ b = c then c :: undoubleChars c cs else a :: undoubleChars c (b :: cs)

end EntitySql.Text
