/-!
# White space

The characters with the Unicode property `White_Space`, and the three ways a text is cut at them:
into words, at its two ends, and at the first blank.
-/

namespace EntitySql.Text

/-- The 25 characters of the Unicode property `White_Space`. -/
def isBlank (c : Char) : Bool :=
  let n := c.toNat
  (9 ≤ n && n ≤ 13) || n == 0x20 || n == 0x85 || n == 0xA0 || n == 0x1680
    || (0x2000 ≤ n && n ≤ 0x200A) || n == 0x2028 || n == 0x2029 || n == 0x202F || n == 0x205F
    || n == 0x3000

/-- The text without its leading blanks. -/
def trimStart (cs : List Char) : List Char := cs.dropWhile isBlank

/-- The text without its leading and trailing blanks. -/
def trimChars (cs : List Char) : List Char :=
  (trimStart (trimStart cs).reverse).reverse

/-- The text without its leading and trailing blanks. -/
def trim (s : String) : String := String.ofList (trimChars s.toList)

/-- The maximal runs of characters that are no blanks, `word` being the run under way. -/
def wordsFrom (word : List Char) : List Char → List (List Char)
  | [] => if word.isEmpty then [] else [word.reverse]
  | c :: cs =>
    if isBlank c then
      if word.isEmpty then wordsFrom [] cs else word.reverse :: wordsFrom [] cs
    else wordsFrom (c :: word) cs

/-- The maximal runs of characters that are no blanks. -/
def words (s : String) : List String := (wordsFrom [] s.toList).map String.ofList

/-- The text before and after its first blank, `none` when it has none. -/
def splitAtBlank? (s : String) : Option (String × String) :=
  match s.toList.dropWhile (fun c => !isBlank c) with
  | [] => none
  | _ :: rest => some (String.ofList (s.toList.takeWhile fun c => !isBlank c), String.ofList rest)

end EntitySql.Text
