import EntitySql.Dialect.Functions
import EntitySql.Literal

/-!
# Dialects

The three kinds of SQL that are written, and how each spells names, strings, placeholders and
clauses.

SQL is built from pieces, so that the placeholders in it can be told from the text around them.
-/

namespace EntitySql

/-- A piece of SQL. -/
inductive Piece where
  | text (s : String)
  /-- The native placeholder of the parameter with that ordinal. -/
  | placeholder (ordinal : Nat)
  deriving DecidableEq, Repr, Inhabited

/-- SQL as a list of pieces. -/
abbrev Sql := List Piece

namespace Sql

def ofText (s : String) : Sql := [.text s]

/-- The parts with a separator between each two. -/
def join (sep : String) : List Sql → Sql
  | [] => []
  | [s] => s
  | s :: ss => s ++ .text sep :: join sep ss

/-- The SQL in parentheses. -/
def enclosed (s : Sql) : Sql := .text "(" :: s ++ [.text ")"]

/-- The SQL in parentheses where they are needed. -/
def wrapIf (parens : Bool) (s : Sql) : Sql := if parens then enclosed s else s

/-- The ordinals of the placeholders, from left to right. -/
def ordinals (s : Sql) : List Nat :=
  s.filterMap fun
    | .placeholder n => some n
    | .text _ => none

end Sql

inductive Dialect where
  /-- The standard's spelling. -/
  | generic
  | postgres
  | mysql
  deriving DecidableEq, Repr, Inhabited

namespace Dialect

/-- All dialects. -/
def all : List Dialect := [generic, postgres, mysql]

def name : Dialect → String
  | generic => "generic"
  | postgres => "postgres"
  | mysql => "mysql"

/-! ## Names, literals and placeholders -/

/-- The character before and after a quoted name. -/
def quoteMark : Dialect → Char
  | mysql => '\x60'
  | _ => '\x22'

/-- One segment of a name in quotes, a quote inside written twice; a wildcard stays bare. -/
def quoteSegment (d : Dialect) (s : String) : String :=
  if s = "*" then s
  else d.quoteMark.toString ++ Text.doubled d.quoteMark s ++ d.quoteMark.toString

/-- A dotted name with each segment in quotes. -/
def quoteIdentifier (d : Dialect) (name : String) : String :=
  Text.join "." ((Text.segments name).map d.quoteSegment)

/-- A string in single quotes. A quote inside is written twice, and where a backslash escapes, so is
the backslash. -/
def quoteString : Dialect → String → String
  | mysql, s => Literal.quoted (Text.doubled '\\' s)
  | _, s => Literal.quoted s

/-- The native marker of the parameter with that ordinal, counted from zero. -/
def placeholder : Dialect → Nat → String
  | postgres, ordinal => "$" ++ toString (ordinal + 1)
  | _, _ => "?"

def boolLiteral : Dialect → Bool → String
  | mysql, b => if b then "1" else "0"
  | _, b => if b then "TRUE" else "FALSE"

def literal (d : Dialect) : Literal → String
  | .string s => d.quoteString s
  | .bool b => d.boolLiteral b
  | l => l.text

/-- The text of a piece. -/
def spellPiece (d : Dialect) : Piece → String
  | .text s => s
  | .placeholder ordinal => d.placeholder ordinal

/-- The text of SQL. -/
def spell (d : Dialect) : Sql → String
  | [] => ""
  | p :: ps => d.spellPiece p ++ d.spell ps

/-! ## Clauses and operators -/

/-- Whether an insert can return fields. -/
def supportsReturning : Dialect → Bool
  | mysql => false
  | _ => true

/-- The statement that fetches the key which the last insert into a table generated. -/
def generatedKey? : Dialect → (table column : String) → Option String
  | generic, _, _ => none
  | postgres, table, column =>
    some ("SELECT CURRVAL(pg_get_serial_sequence(" ++ postgres.quoteString table ++ ", "
      ++ postgres.quoteString column ++ "))")
  | mysql, _, _ => some "SELECT LAST_INSERT_ID()"

/-- The largest count of rows, which stands for no limit where an offset needs one. -/
def unlimited : String := "18446744073709551615"

/-- The clause that limits the rows. -/
def pagination : Dialect → (limit offset : Option Sql) → Sql
  | mysql, some limit, some offset => .text " LIMIT " :: offset ++ .text ", " :: limit
  | mysql, some limit, none => .text " LIMIT " :: limit
  | mysql, none, some offset => .text " LIMIT " :: offset ++ [.text (", " ++ unlimited)]
  | mysql, none, none => []
  | _, limit, offset =>
    (match limit with
      | some limit => .text " LIMIT " :: limit
      | none => [])
    ++ match offset with
      | some offset => .text " OFFSET " :: offset
      | none => []

/-- The concatenation of texts. -/
def concat : Dialect → List Sql → Sql
  | mysql, parts => .text "CONCAT(" :: Sql.join ", " parts ++ [.text ")"]
  | _, parts => Sql.join " || " parts

/-- The test whether `left` has `right` as a part. -/
def contains (d : Dialect) (left right : Sql) : Sql :=
  left ++ .text " LIKE " :: d.concat [.ofText "\x27%\x27", right, .ofText "\x27%\x27"]

/-- The functions of a dialect. -/
def functions : Dialect → FunctionTable
  | generic => FunctionTable.standard.register "length" "CHAR_LENGTH" (some 1)
  | postgres => FunctionTable.standard
    |>.register "length" "LENGTH" (some 1)
    |>.register "now" "NOW" (some 0)
    |>.register "substring" "SUBSTR" none
  | mysql => FunctionTable.standard
    |>.register "length" "CHAR_LENGTH" (some 1)
    |>.register "now" "NOW" (some 0)
    |>.register "substring" "SUBSTRING" none

/-- The name under which a call is written. -/
def functionName (d : Dialect) (name : String) (args : Nat) : String :=
  (d.functions.native? name args).getD name

end Dialect

end EntitySql
