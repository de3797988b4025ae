import EntitySql.Error
import EntitySql.Text.Blank

/-!
# Scanning

A text is cut into tokens from the left. `lexeme?` says which token starts at the head of a list of
characters and how many characters it takes; `scan` repeats it over the whole text, blanks included,
and fails at a character that starts no token.
-/

namespace EntitySql.Token

def isWordStart (c : Char) : Bool := c.isAlpha || c == '_'

def isWordChar (c : Char) : Bool := c.isAlphanum || c == '_'

/-- The number of characters up to the end of a quoted text whose opening quote is past, its closing
quote included. A doubled quote stands inside, unless nothing closes the text after it: then its
first half closes it. -/
def closing? (quote : Char) : List Char → Option Nat
  | [] => none
  | [c] => if c = quote then some 1 else none
  | c :: d :: cs =>
    if c = quote then
      if d = quote then
        match closing? quote cs with
        | some n => some (n + 2)
        | none => some 1
      else some 1
    else (closing? quote (d :: cs)).map (· + 1)

/-- The number of characters up to the first `quote`, it included. -/
def upTo? (quote : Char) : List Char → Option Nat
  | [] => none
  | c :: cs => if c = quote then some 1 else (upTo? quote cs).map (· + 1)

/-- The length of a run of digits. -/
def digitRun (cs : List Char) : Nat := (cs.takeWhile Char.isDigit).length

/-- The length of a word at the head; zero where none starts. -/
def wordRun : List Char → Nat
  | [] => 0
  | c :: cs => if isWordStart c then (cs.takeWhile isWordChar).length + 1 else 0

/-- The length of the decimals at the head: a point and at least one digit. -/
def decimalRun : List Char → Nat
  | '.' :: cs => if digitRun cs = 0 then 0 else digitRun cs + 1
  | _ => 0

/-- The length of an exponent at the head: its mark, a sign or none, and at least one digit. -/
def exponentRun : List Char → Nat
  | c :: d :: cs =>
    if c = 'e' ∨ c = 'E' then
      if d = '+' ∨ d = '-' then if digitRun cs = 0 then 0 else digitRun cs + 2
      else if digitRun (d :: cs) = 0 then 0 else digitRun (d :: cs) + 1
    else 0
  | _ => 0

/-- The length of an unsigned number at the head; zero where none starts. -/
def numberRun (cs : List Char) : Nat :=
  let whole := digitRun cs
  if whole = 0 then 0
  else
    let decimals := decimalRun (cs.drop whole)
    whole + decimals + exponentRun (cs.drop (whole + decimals))

/-- The length of one further segment of a dotted name at the head: a word or `*`. -/
def segmentRun : List Char → Nat
  | '*' :: _ => 1
  | cs => wordRun cs

/-- The length of the further segments of a dotted name, each with a point before it. The first
argument bounds their number. -/
def segmentsRun : Nat → List Char → Nat
  | 0, _ => 0
  | fuel + 1, '.' :: cs =>
    if segmentRun cs = 0 then 0 else segmentRun cs + 1 + segmentsRun fuel (cs.drop (segmentRun cs))
  | _ + 1, _ => 0

/-- The symbol at the head. -/
def symbolRun : List Char → Nat
  | '<' :: '=' :: _ | '>' :: '=' :: _ | '<' :: '>' :: _ | '!' :: '=' :: _ | '|' :: '|' :: _ => 2
  | c :: _ =>
    if ['(', ')', ',', '.', '*', '+', '-', '/', '%', '=', '<', '>', ';'].contains c then 1 else 0
  | [] => 0

/-- What stands at the head of a text: the kind of a token, its length in characters, and the quote
of a quoted name. -/
structure Lexeme where
  kind : TokenKind
  size : Nat
  quote : Option Char := none
  deriving DecidableEq, Repr

/-- A lexeme that is there exactly if its length is not zero. -/
def Lexeme.ofSize? (kind : TokenKind) (size : Nat) : Option Lexeme :=
  if size = 0 then none else some { kind, size }

/-- The number, word, dotted name or symbol at the head. A word is a keyword or a name; a dotted name
is always a name. -/
def plainLexeme? (cs : List Char) : Option Lexeme :=
  if numberRun cs ≠ 0 then some { kind := .literal, size := numberRun cs }
  else
    let word := wordRun cs
    if word = 0 then Lexeme.ofSize? .symbol (symbolRun cs)
    else
      let more := segmentsRun cs.length (cs.drop word)
      if more ≠ 0 then some { kind := .identifier, size := word + more }
      else if isReserved (String.ofList (cs.take word)) then some { kind := .keyword, size := word }
      else some { kind := .identifier, size := word }

/-- The token that starts at the head of a text. -/
def lexeme? : List Char → Option Lexeme
  | [] => none
  | c :: cs =>
    if Text.isBlank c then some { kind := .whitespace, size := (cs.takeWhile Text.isBlank).length + 1 }
    else if c = '\x27' then (closing? c cs).map fun n => { kind := .literal, size := n + 1 }
    else if c = '\x22' then
      (closing? c cs).map fun n => { kind := .identifier, size := n + 1, quote := some c }
    else if c = '\x60' then
      (upTo? c cs).map fun n => { kind := .identifier, size := n + 1, quote := some c }
    else if c = '?' then some { kind := .parameter, size := 1 }
    else if c = ':' then
      if wordRun cs = 0 then none else some { kind := .parameter, size := wordRun cs + 1 }
    else plainLexeme? (c :: cs)

/-- The number of bytes of a list of characters. -/
def byteSize : List Char → Nat
  | [] => 0
  | c :: cs => c.utf8Size + byteSize cs

/-- The text of a lexeme with the given characters; quotes are taken off a quoted name. -/
def Lexeme.text (l : Lexeme) (slice : List Char) : String :=
  match l.quote with
  | some q => String.ofList (Text.undoubleChars q (slice.drop 1).dropLast)
  | none => String.ofList slice

/-- The tokens of a text that starts at byte `offset`, after `skip` characters that belong to the
token before it. -/
def scanFrom (offset : Nat) : Nat → List Char → Except ParseError (List Token)
  | _, [] => .ok []
  | skip + 1, _ :: cs => scanFrom offset skip cs
  | 0, c :: cs =>
    match lexeme? (c :: cs) with
    | none => .error ⟨"Unrecognized character",
        ⟨.unknown, String.ofList [c], offset, offset + c.utf8Size⟩⟩
    | some l =>
      let slice := (c :: cs).take l.size
      let stop := offset + byteSize slice
      match scanFrom stop (l.size - 1) cs with
      | .ok tokens => .ok (⟨l.kind, l.text slice, offset, stop⟩ :: tokens)
      | .error e => .error e

/-- The tokens of a text, blanks included. -/
def scan (text : String) : Except ParseError (List Token) := scanFrom 0 0 text.toList

end EntitySql.Token
