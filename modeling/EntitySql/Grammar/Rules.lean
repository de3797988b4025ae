import EntitySql.Cursor
import EntitySql.Grammar.Fold

/-!
# The grammar

One reader per construct of the language. Constructs that contain each other do so through `Rules`,
a record of the three recursive readers, so that each is a definition on its own. `Rules.upTo n`
ties the knot for nestings of depth `n`; as each nesting takes at least one token, the number of
tokens that are left is depth enough, and the readers at the end of the file use it.
-/

namespace EntitySql

/-- The readers that occur inside each other. -/
structure Rules where
  /-- An expression whose operators bind at least as tight as the given level. -/
  flat : Nat → Parse Expr
  /-- An operand: no binary operator outside parentheses. -/
  operand : Parse Expr
  /-- A select with its unions. -/
  select : Parse Select

namespace Grammar

open Parse

/-! ## Leaves -/

/-- A plain, dotted or quoted name; quoted segments may be joined with dots. -/
def identifier : Parse Identifier := do
  let first ← Parse.identifier "Expected identifier"
  let more ← many segment?
  pure { value := more.foldl (fun value s => value ++ "." ++ s) first }
where
  /-- A point and a name or `*`. -/
  segment? : Parse (Option String) := fun c =>
    match c.isSymbol ".", c.peek? 1 with
    | true, some t =>
      if t.kind = .identifier || t.isSymbol "*" then .ok (some t.text) (c.jump 2) else .ok none c
    | _, _ => .ok none c

/-- Whether a literal stands at the cursor. -/
def atLiteral (c : Cursor) : Bool :=
  c.current.kind == .literal || c.startsWith ["TRUE"] || c.startsWith ["FALSE"]
    || c.startsWith ["NULL"]

def literal : Parse Literal := do
  if ← phrase? ["TRUE"] then pure (.bool true)
  else if ← phrase? ["FALSE"] then pure (.bool false)
  else if ← phrase? ["NULL"] then pure .null
  else
    let token := (← get).current
    if token.kind = .literal then
      match Literal.ofToken? token.text with
      | some l => do next; pure l
      | none => fail "Invalid number"
    else fail "Invalid literal"

/-- A marker: `?` takes the next number, `:name` its name. -/
def parameter : Parse Expr := do
  let token := (← get).current
  if token.kind = .parameter then
    next
    match token.text.toList with
    | ':' :: name => pure (.named { name := String.ofList name })
    | _ => do
      let position ← nextPositional
      pure (.marker { position := some position })
  else fail "Invalid parameter"

/-- `AS name`, a bare name, or nothing. -/
def label : Parse (Option String) := do
  if ← phrase? ["AS"] then some <$> Parse.identifier "Expected alias"
  else if (← get).current.kind = .identifier then some <$> Parse.identifier "Expected alias"
  else pure none

variable (r : Rules)

/-- An expression of any strength. -/
def expr : Parse Expr := r.flat Precedence.lowest

/-! ## Expressions -/

/-- A parenthesis: a subquery, one expression, or a list of several. -/
def parenthesized : Parse Expr := do
  symbol "("
  if (← get).startsWith ["SELECT"] then
    let s ← r.select
    symbol ")"
    pure (.subquery s)
  else
    let first ← expr r
    if ← symbol? ")" then pure first
    else
      let more ← many do
        if ← symbol? "," then some <$> expr r else pure none
      symbol ")"
      pure (.list (first :: more))

/-- The right side of a membership test: a subquery, or a list of one or more. -/
def membership : Parse Expr := do
  if (← get).isSymbol "(" then
    match ← parenthesized r with
    | .list items => pure (.list items)
    | .subquery s => pure (.subquery s)
    | single => pure (.list [single])
  else fail "Expected '(' after IN"

/-- Whether a name with an opening parenthesis stands at the cursor. -/
def atCall (c : Cursor) : Bool :=
  c.current.kind == .identifier && match c.peek? 1 with
    | some t => t.isSymbol "("
    | none => false

def call : Parse Expr := do
  let c ← get
  if atCall c then
    jump 2
    let distinct ← phrase? ["DISTINCT"]
    if ← symbol? ")" then pure (.call c.current.text distinct [])
    else
      let args ← commaList (expr r)
      symbol ")"
      pure (.call c.current.text distinct args)
  else fail "Expected function call"

def branch? : Parse (Option Branch) := after? ["WHEN"] do
  let condition ← expr r
  phrase ["THEN"] "Expected THEN"
  let result ← expr r
  pure ⟨condition, result⟩

def caseExpr : Parse Expr := do
  phrase ["CASE"] "Expected CASE"
  let operand ← if (← get).startsWith ["WHEN"] then pure none else some <$> expr r
  let branches ← many (branch? r)
  if branches.isEmpty then fail "Expected WHEN"
  else
    let otherwise ← after? ["ELSE"] (expr r)
    phrase ["END"] "Expected END"
    pure (.case operand branches otherwise)

/-- A minus before an operand: a number literal changes its sign. -/
def negated : Expr → Expr
  | .literal l =>
    match l.negate? with
    | some l => .literal l
    | none => .unary .negate (.literal l)
  | e => .unary .negate e

def operand : Parse Expr := do
  if ← phrase? ["NOT"] then .unary .not <$> r.flat Precedence.comparison
  else if ← symbol? "-" then negated <$> r.operand
  else if ← symbol? "+" then r.operand
  else if (← get).isSymbol "(" then parenthesized r
  else if ← symbol? "*" then pure (.name "*")
  else
    let c ← get
    if c.startsWith ["CASE"] then caseExpr r
    else if atLiteral c then .literal <$> literal
    else if c.current.kind = .parameter then parameter
    else if atCall c then call r
    else if c.current.kind = .identifier then .ident <$> identifier
    else fail "Expected expression"

/-- A binary operator of at least the given strength, with its right operand. -/
def step? (min : Nat) : Parse (Option (Operator × Expr)) := do
  match (← get).operator? with
  | none => pure none
  | some (op, length) =>
    if op.precedence < min then pure none
    else
      jump length
      let right ← if op.isMembership then membership r else operand r
      pure (some (op, right))

def flat (min : Nat) : Parse Expr := do
  let head ← operand r
  let steps ← many (step? r min)
  pure (Flat.toExpr ⟨head, steps⟩)

/-! ## Selects -/

def field : Parse ResultField := do
  let e ← expr r
  let a ← label
  pure ⟨e, a⟩

def order : Parse OrderItem := do
  let e ← expr r
  if ← phrase? ["DESC"] then pure ⟨e, false⟩
  else
    let _ ← phrase? ["ASC"]
    pure ⟨e, true⟩

/-- The name of a table; what is no name is refused where reading stopped. -/
def tableName : Parse String := fun c =>
  match identifier c with
  | .ok i c => .ok i.value c
  | .error _ c => .error (c.error "Expected table name") c

def table : Parse Table := do
  if ← symbol? "(" then
    if (← get).startsWith ["SELECT"] then
      let s ← r.select
      symbol ")"
      let a ← label
      pure (.derived s a)
    else fail "Expected subquery"
  else
    let name ← tableName
    let a ← label
    pure (.named name a)

def joinKind : Parse JoinKind := do
  if ← phrase? ["LEFT", "OUTER", "JOIN"] then pure .left
  else if ← phrase? ["LEFT", "JOIN"] then pure .left
  else if ← phrase? ["INNER", "JOIN"] then pure .inner
  else if ← phrase? ["JOIN"] then pure .inner
  else fail "Expected JOIN"

/-- A join; without a condition its table has to be a relation path. -/
def join : Parse Join := do
  let kind ← joinKind
  let t ← table r
  let path := t.name?.bind RelationPath.ofName?
  let condition ← after? ["ON"] (expr r)
  if condition.isNone && path.isNone then fail "Expected ON"
  else pure ⟨kind, t, condition, path⟩

/-- A join if one starts at the cursor. -/
def join? : Parse (Option Join) := do
  if (← get).atJoin then some <$> join r else pure none

/-- The expressions after a phrase; none where it is absent. -/
def listAfter {α : Type} (ph : Phrase) (p : Parse α) : Parse (List α) := do
  if ← phrase? ph then commaList p else pure []

/-- A select without its unions. -/
def selectCore : Parse Select := do
  phrase ["SELECT"] "Expected SELECT"
  let distinct ← phrase? ["DISTINCT"]
  let c ← get
  if c.atEnd || c.startsWith ["FROM"] then fail "Expected result fields"
  else
    let fields ← commaList (field r)
    let source ← after? ["FROM"] (table r)
    let joins ← many (join? r)
    let criteria ← after? ["WHERE"] (expr r)
    let grouping ← listAfter ["GROUP", "BY"] (expr r)
    let having ← after? ["HAVING"] (expr r)
    let ordering ← listAfter ["ORDER", "BY"] (order r)
    let limit ← after? ["LIMIT"] (expr r)
    let offset ← after? ["OFFSET"] (expr r)
    pure ⟨distinct, fields, source, joins, criteria, grouping, having, ordering, limit, offset, [], {}⟩

def union? : Parse (Option UnionPart) := do
  if ← phrase? ["UNION", "ALL"] then (fun s => some ⟨true, s⟩) <$> selectCore r
  else if ← phrase? ["UNION"] then (fun s => some ⟨false, s⟩) <$> selectCore r
  else pure none

def select : Parse Select := do
  let s ← selectCore r
  let unions ← many (union? r)
  pure { s with unions }

/-! ## The other statements -/

/-- A row of values. -/
def row : Parse Expr := do
  symbol "("
  let items ← commaList (expr r)
  symbol ")"
  pure (.list items)

/-- The target columns of an insert, if they are given. -/
def columns : Parse (List Expr) := do
  if ← symbol? "(" then
    let names ← commaList (Expr.ident <$> identifier)
    symbol ")"
    pure names
  else pure []

def insertSource : Parse InsertSource := do
  if ← phrase? ["VALUES"] then .values <$> commaList (row r)
  else if (← get).startsWith ["SELECT"] then .select <$> r.select
  else fail "Expected VALUES or SELECT"

def insert : Parse Insert := do
  phrase ["INSERT", "INTO"] "Expected INSERT INTO"
  let t ← table r
  let columns ← columns
  let source ← insertSource r
  let returning ← listAfter ["RETURNING"] (field r)
  pure { table := t, columns, source, returning }

def assignment : Parse Assignment := do
  let target ← identifier
  symbol "="
  let value ← expr r
  pure ⟨.ident target, value⟩

def update : Parse Update := do
  phrase ["UPDATE"] "Expected UPDATE"
  let t ← table r
  phrase ["SET"] "Expected SET"
  let assignments ← commaList (assignment r)
  let criteria ← after? ["WHERE"] (expr r)
  let ordering ← listAfter ["ORDER", "BY"] (order r)
  let limit ← after? ["LIMIT"] (expr r)
  let offset ← after? ["OFFSET"] (expr r)
  pure { table := t, assignments, criteria, ordering, limit, offset }

def delete : Parse Delete := do
  phrase ["DELETE", "FROM"] "Expected DELETE FROM"
  let t ← table r
  let criteria ← after? ["WHERE"] (expr r)
  let ordering ← listAfter ["ORDER", "BY"] (order r)
  let limit ← after? ["LIMIT"] (expr r)
  let offset ← after? ["OFFSET"] (expr r)
  pure { table := t, criteria, ordering, limit, offset }

/-- A whole query: one statement, and nothing after it but a `;`. -/
def query : Parse Query := do
  let c ← get
  let q ←
    if c.startsWith ["SELECT"] then .select <$> r.select
    else if c.startsWith ["INSERT", "INTO"] then .insert <$> insert r
    else if c.startsWith ["UPDATE"] then .update <$> update r
    else if c.startsWith ["DELETE", "FROM"] then .delete <$> delete r
    else fail "Expected SELECT, INSERT, UPDATE or DELETE"
  finish
  pure q

end Grammar

namespace Rules

/-- The readers for nestings of depth at most `n`. -/
def upTo : Nat → Rules
  | 0 =>
    { flat := fun _ => Parse.fail "Expected expression"
      operand := Parse.fail "Expected expression"
      select := Parse.fail "Expected SELECT" }
  | n + 1 =>
    let r := upTo n
    { flat := Grammar.flat r, operand := Grammar.operand r, select := Grammar.select r }

end Rules

/-- A reader with rules as deep as the tokens that are left can nest. -/
def Parse.nested {α : Type} (p : Rules → Parse α) : Parse α := fun c =>
  p (Rules.upTo (c.after.length + 1)) c

/-! ## Reading texts -/

/-- The expression that makes up a whole text. -/
def Expr.ofText (text : String) : Except ParseError Expr :=
  Parse.run (do let e ← Parse.nested Grammar.expr; Parse.finish; pure e) text

/-- What a reader reads of a text that is spliced into another query: it makes up the whole text and
has named markers only. -/
def Parse.detached {α : Type} (p : Rules → Parse α) (text : String) : Except ParseError α :=
  Parse.run (do Parse.rejectPositional; let a ← Parse.nested p; Parse.finish; pure a) text

/-- The expression that makes up a text spliced into another query. -/
def Expr.ofDetached (text : String) : Except ParseError Expr := Parse.detached Grammar.expr text

/-- The query that makes up a whole text. -/
def Query.ofText (text : String) : Except ParseError Query :=
  Parse.run (Parse.nested Grammar.query) text

end EntitySql
