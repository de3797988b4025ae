import EntitySql.Operator
import EntitySql.Token.Scan

/-!
# Cursors

A place in a sequence of tokens: those before it, the latest first, and those after it. `Parse` is
the type of readers, which move a cursor and keep their place also when they fail. `many` repeats
a reader as long as it finds something, at most once for each token that is left.
-/

namespace EntitySql

/-- The words of a keyword phrase such as `GROUP BY`. -/
abbrev Phrase := List String

/-- The phrase written by a text. -/
def Phrase.ofText (s : String) : Phrase := (Text.words s).map Text.capitals

structure Cursor where
  /-- The tokens already read, the latest first. -/
  before : List Token
  /-- The tokens still to read. -/
  after : List Token
  /-- Stands after the last token. -/
  sentinel : Token
  /-- The number of the next `?`. -/
  positional : Nat
  deriving DecidableEq, Repr, Inhabited

namespace Cursor

/-- A cursor before the first token of a text, blanks left out. -/
def ofText (text : String) : Except ParseError Cursor :=
  match Token.scan text with
  | .ok tokens =>
    .ok ⟨[], tokens.filter fun t => t.kind != .whitespace, Token.atEnd text.utf8ByteSize, 0⟩
  | .error e => .error e

def position (c : Cursor) : Nat := c.before.length

/-- The number of all tokens. -/
def length (c : Cursor) : Nat := c.before.length + c.after.length

/-- All tokens, in order. -/
def tokens (c : Cursor) : List Token := c.before.reverse ++ c.after

def atEnd (c : Cursor) : Bool := c.after.isEmpty

/-- The token at the cursor, or the one that stands after the last. -/
def current (c : Cursor) : Token := c.after.headD c.sentinel

/-- The token `n` places ahead. -/
def peek? (c : Cursor) (n : Nat) : Option Token := c.after[n]?

/-- One token on, unless at the end. -/
def next (c : Cursor) : Cursor :=
  match c.after with
  | [] => c
  | t :: ts => { c with before := t :: c.before, after := ts }

/-- `n` tokens on, at most to the end. -/
def jump (c : Cursor) (n : Nat) : Cursor :=
  { c with before := (c.after.take n).reverse ++ c.before, after := c.after.drop n }

def isSymbol (c : Cursor) (symbol : String) : Bool := c.current.isSymbol symbol

/-- Whether the words of a phrase are the next tokens. -/
def startsWith (c : Cursor) (phrase : Phrase) : Bool := go phrase c.after
where
  go : Phrase → List Token → Bool
    | [], _ => true
    | w :: ws, t :: ts => t.isKeyword w && go ws ts
    | _ :: _, [] => false

/-- A phrase that opens a join. -/
def atJoin (c : Cursor) : Bool :=
  c.startsWith ["JOIN"] || c.startsWith ["INNER", "JOIN"] || c.startsWith ["LEFT", "JOIN"]
    || c.startsWith ["LEFT", "OUTER", "JOIN"]

/-- A phrase that ends a table or a join. -/
def atClause (c : Cursor) : Bool :=
  c.startsWith ["WHERE"] || c.startsWith ["GROUP", "BY"] || c.startsWith ["HAVING"]
    || c.startsWith ["ORDER", "BY"] || c.startsWith ["LIMIT"] || c.startsWith ["OFFSET"]
    || c.startsWith ["UNION"] || c.atJoin || c.startsWith ["ON"] || c.startsWith ["SET"]
    || c.startsWith ["VALUES"]

/-- The binary operator at the cursor and the number of its tokens. -/
def operator? (c : Cursor) : Option (Operator × Nat) :=
  if c.current.kind = .symbol then (Operator.ofSymbol? c.current.text).map fun op => (op, 1)
  else (Operator.phrases.find? fun p => c.startsWith p.1).map fun p => (p.2, p.1.length)

/-- The error of a reason at the current token. -/
def error (c : Cursor) (reason : String) : ParseError := ⟨reason, c.current⟩

/-- The first `?` of all tokens. -/
def firstPositional? (c : Cursor) : Option Token :=
  c.tokens.find? fun t => t.kind == .parameter && t.text == "?"

end Cursor

/-- Readers of tokens. -/
abbrev Parse := EStateM ParseError Cursor

namespace Parse

variable {α : Type}

/-- Fails at the current token. -/
def fail (reason : String) : Parse α := fun c => .error (c.error reason) c

/-- One token on. -/
def next : Parse Unit := modify Cursor.next

def jump (n : Nat) : Parse Unit := modify fun c => c.jump n

/-- Reads a symbol if it is there. -/
def symbol? (symbol : String) : Parse Bool := fun c =>
  if c.isSymbol symbol then .ok true c.next else .ok false c

/-- Reads a symbol that has to be there. -/
def symbol (symbol : String) : Parse Unit := fun c =>
  if c.isSymbol symbol then .ok () c.next
  else .error (c.error ("Expected \x27" ++ symbol ++ "\x27")) c

/-- Reads a phrase if it is there. -/
def phrase? (phrase : Phrase) : Parse Bool := fun c =>
  if c.startsWith phrase then .ok true (c.jump phrase.length) else .ok false c

/-- Reads a phrase that has to be there. -/
def phrase (phrase : Phrase) (reason : String) : Parse Unit := fun c =>
  if c.startsWith phrase then .ok () (c.jump phrase.length) else .error (c.error reason) c

/-- Reads a name and gives its text. -/
def identifier (reason : String) : Parse String := fun c =>
  if c.current.kind = .identifier then .ok c.current.text c.next else .error (c.error reason) c

/-- The number of the next `?`, which is thereby taken. -/
def nextPositional : Parse Nat := fun c => .ok c.positional { c with positional := c.positional + 1 }

/-- Refuses a text with a `?` anywhere: spliced into another query its number would clash. -/
def rejectPositional : Parse Unit := fun c =>
  match c.firstPositional? with
  | some t => .error ⟨"Positional parameter not allowed here, use a named parameter", t⟩ c
  | none => .ok () c

/-- Reads a final `;` if there is one and requires the end. -/
def finish : Parse Unit := do
  let _ ← symbol? ";"
  if (← get).atEnd then pure () else fail "Unexpected token"

/-- The results of a reader, repeated until it finds nothing, at most `n` times. -/
def manyUpTo (p : Parse (Option α)) : Nat → Parse (List α)
  | 0 => pure []
  | n + 1 => do
    match ← p with
    | none => pure []
    | some a =>
      let as ← manyUpTo p n
      pure (a :: as)

/-- The results of a reader, repeated until it finds nothing. A reader that finds something reads at
least one token, so no more repetitions than tokens are left. -/
def many (p : Parse (Option α)) : Parse (List α) := do
  manyUpTo p ((← get).after.length + 1)

/-- One or more of the same, with commas between them. -/
def commaList (p : Parse α) : Parse (List α) := do
  let first ← p
  let rest ← many do
    if ← symbol? "," then some <$> p else pure none
  pure (first :: rest)

/-- Reads what `p` reads where the phrase stands before it. -/
def after? (ph : Phrase) (p : Parse α) : Parse (Option α) := do
  if ← phrase? ph then some <$> p else pure none

/-- Reads a text with a reader that need not reach the end. -/
def run (p : Parse α) (text : String) : Except ParseError α :=
  match Cursor.ofText text with
  | .error e => .error e
  | .ok c =>
    match p c with
    | .ok a _ => .ok a
    | .error e _ => .error e

end Parse

end EntitySql
