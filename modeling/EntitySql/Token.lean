import EntitySql.Text.Letter

/-!
# Tokens

The pieces of a query text. A token knows its bytes in the text (`start` up to `stop`); its `text`
is that slice, without the quotes where it is a quoted name.
-/

namespace EntitySql

inductive TokenKind where
  | keyword
  | symbol
  /-- A quoted string or a number. -/
  | literal
  | identifier
  /-- `?` or `:name`. -/
  | parameter
  | whitespace
  /-- A character that starts no token. -/
  | unknown
  /-- Stands after the last token of a text. -/
  | endOfInput
  deriving DecidableEq, Repr, Inhabited

/-- The name of a kind in messages. -/
def TokenKind.name : TokenKind → String
  | keyword => "keyword"
  | symbol => "symbol"
  | literal => "literal"
  | identifier => "identifier"
  | parameter => "parameter"
  | whitespace => "whitespace"
  | unknown => "unknown"
  | endOfInput => "end of input"

structure Token where
  kind : TokenKind
  text : String
  /-- Offset of the first byte. -/
  start : Nat
  /-- Offset after the last byte. -/
  stop : Nat
  deriving DecidableEq, Repr, Inhabited

namespace Token

/-- The token that stands after a text of `size` bytes. -/
def atEnd (size : Nat) : Token := ⟨.endOfInput, "", size, size⟩

/-- Whether the token is the keyword `word`, in any case of letters. -/
def isKeyword (t : Token) (word : String) : Bool :=
  t.kind == .keyword && Text.sameLetters t.text word

def isSymbol (t : Token) (symbol : String) : Bool :=
  t.kind == .symbol && t.text == symbol

end Token

/-- The reserved words of the query language. -/
def keywords : List String :=
  ["SELECT", "DISTINCT", "FROM", "AS", "JOIN", "INNER", "LEFT", "OUTER", "ON", "WHERE", "GROUP", "BY",
   "HAVING", "ORDER", "ASC", "DESC", "LIMIT", "OFFSET", "UNION", "ALL", "INSERT", "INTO", "VALUES",
   "UPDATE", "SET", "DELETE", "AND", "OR", "NOT", "LIKE", "CONTAINS", "IS", "IN", "NULL", "TRUE",
   "FALSE", "CASE", "WHEN", "THEN", "ELSE", "END", "RETURNING"]

/-- Whether a word is reserved, in any case of letters. -/
def isReserved (word : String) : Bool := keywords.any fun k => Text.sameLetters k word

end EntitySql
