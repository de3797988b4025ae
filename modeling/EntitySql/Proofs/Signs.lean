import Mathlib
import EntitySql.Proofs.Collector
import EntitySql.Query.Print

/-!
# The tokens of a written tree

`Query.signs` lists the tokens of a query tree as it is written, without their places in a text. A
name may take one token or several; which ones is left to a `Lettering`.

* `Query.marks_signs`: the markers among the tokens are those of the tree, in order.
-/

namespace EntitySql

/-- A token without its place, and with the marker that it writes. -/
structure Sign where
  kind : TokenKind
  text : String
  mark : Option Mark := none
  deriving DecidableEq

namespace Sign

def symbol (s : String) : Sign := ⟨.symbol, s, none⟩
def keyword (s : String) : Sign := ⟨.keyword, s, none⟩
def name (s : String) : Sign := ⟨.identifier, s, none⟩
def literal (s : String) : Sign := ⟨.literal, s, none⟩
def anonymous (m : Marker) : Sign := ⟨.parameter, "?", some (.anonymous m)⟩
def named (m : NamedMarker) : Sign := ⟨.parameter, ":" ++ m.name, some (.named m)⟩

/-- A token of the given kind and text. -/
def Of (t : Token) (l : Sign) : Prop := t.kind = l.kind ∧ t.text = l.text

/-- The words of a phrase. -/
def phrase (ws : List String) : List Sign := ws.map keyword

/-- Tokens between parentheses. -/
def parens (ls : List Sign) : List Sign := symbol "(" :: (ls ++ [symbol ")"])

/-- Tokens with a comma before each further group. -/
def commas : List (List Sign) → List Sign
  | [] => []
  | ps :: pss => ps ++ pss.flatMap fun qs => symbol "," :: qs

theorem commas_map_cons {α : Type} (f : α → List Sign) (a b : α) (as : List α) :
    commas ((a :: b :: as).map f) = f a ++ symbol "," :: commas ((b :: as).map f) := by
  simp only [commas, List.map_cons, List.flatMap_cons, List.cons_append]

theorem length_le_commas {α : Type} {f : α → List Sign} {a : α} :
    ∀ {as : List α}, a ∈ as → (f a).length ≤ (commas (as.map f)).length
  | [b], h => by
    rw [List.mem_singleton.mp h]
    exact (congrArg List.length (List.append_nil _)).ge
  | b :: c :: as, h => by
    rw [commas_map_cons, List.length_append, List.length_cons]
    rcases List.mem_cons.mp h with rfl | h
    · omega
    · have := length_le_commas (f := f) h
      omega

/-- The markers that tokens write. -/
def marks (ps : List Sign) : List Mark := ps.filterMap Sign.mark

/-- A sign that an expression can start with. -/
def starts (p : Sign) : Bool :=
  p.kind == .identifier || p.kind == .literal || p.kind == .parameter
    || (p.kind == .keyword && ["NOT", "CASE", "TRUE", "FALSE", "NULL"].contains p.text)
    || (p.kind == .symbol && ["(", "-", "*"].contains p.text)

/-- A sign that a name can start with. -/
def opensName (p : Sign) : Bool := p.kind == .identifier || (p.kind == .symbol && p.text == "*")

theorem starts_of_opensName {p : Sign} (h : p.opensName = true) : p.starts = true := by
  simp only [opensName, Bool.or_eq_true, Bool.and_eq_true, beq_iff_eq] at h
  rcases h with h | ⟨hk, ht⟩
  · simp [starts, h]
  · simp [starts, hk, ht]

end Sign

open Sign

/-- A way of writing names, which may have several segments. -/
structure Lettering where
  signs : String → List Sign
  opens : ∀ s, ∃ p ps, signs s = p :: ps ∧ p.opensName = true
  quiet : ∀ s, marks (signs s) = []

/-- A name as one token. -/
def Lettering.plain : Lettering where
  signs s := [name s]
  opens _ := ⟨_, _, rfl, rfl⟩
  quiet _ := rfl

/-! ## The tokens of a tree -/

/-- An operand, in parentheses where it needs them. -/
def wrapSigns (parenthesized : Bool) (ls : List Sign) : List Sign :=
  if parenthesized then parens ls else ls

/-- Whether an operand starts with a minus. -/
def Expr.isNegative : Expr → Bool
  | .literal (.int (.negSucc _)) | .unary .negate _ => true
  | _ => false

def Operator.signs : Operator → List Sign
  | .compare .like => phrase ["LIKE"]
  | .compare .notLike => phrase ["NOT", "LIKE"]
  | .compare .contains => phrase ["CONTAINS"]
  | .compare .is => phrase ["IS"]
  | .compare .isNot => phrase ["IS", "NOT"]
  | .compare .oneOf => phrase ["IN"]
  | .compare .noneOf => phrase ["NOT", "IN"]
  | .logic .and => phrase ["AND"]
  | .logic .or => phrase ["OR"]
  | op => [symbol op.text]

def Literal.signs : Literal → List Sign
  | .bool true => phrase ["TRUE"]
  | .bool false => phrase ["FALSE"]
  | .null => phrase ["NULL"]
  | .int (.ofNat n) => [literal n.repr]
  | .int (.negSucc n) => [symbol "-", literal (n + 1).repr]
  | l => [literal l.text]

def distinctSigns (distinct : Bool) : List Sign := if distinct then phrase ["DISTINCT"] else []

def tableAliasSigns : Option String → List Sign
  | some a => [name a]
  | none => []

def fieldAliasSigns : Option String → List Sign
  | some a => [keyword "AS", name a]
  | none => []

def directionSigns (ascending : Bool) : List Sign := phrase [if ascending then "ASC" else "DESC"]

/-- A clause that is there only where it is not empty. -/
def clauseSigns (words : List String) (body : List Sign) (present : Bool) : List Sign :=
  if present then phrase words ++ body else []

def JoinKind.signs : JoinKind → List Sign
  | inner => phrase ["INNER", "JOIN"]
  | left => phrase ["LEFT", "JOIN"]

section

variable (N : Lettering)

mutual
def Expr.signs : Expr → List Sign
  | .ident i => if i.value = "*" then [symbol "*"] else N.signs i.value
  | .literal l => l.signs
  | .marker m => [anonymous m]
  | .named m => [Sign.named m]
  | .call f distinct args => name f :: parens (distinctSigns distinct ++ exprsSigns args)
  | .list items => parens (exprsSigns items)
  | .arith op l r =>
    wrapSigns (l.needsParens op.precedence none) l.signs ++ (Operator.arith op).signs
      ++ wrapSigns (r.needsParens (op.precedence + 1) none) r.signs
  | .compare op l r =>
    wrapSigns (l.needsParens op.precedence none) l.signs ++ (Operator.compare op).signs
      ++ wrapSigns (r.needsParens (op.precedence + 1) none) r.signs
  | .logic op l r =>
    wrapSigns (l.needsParens op.precedence (some op)) l.signs ++ (Operator.logic op).signs
      ++ wrapSigns (r.needsParens (op.precedence + 1) (some op)) r.signs
  | .unary .not e => keyword "NOT" :: wrapSigns (e.needsParens UnaryOp.not.precedence none) e.signs
  | .unary .negate e =>
    symbol "-" :: wrapSigns (e.needsParens UnaryOp.negate.precedence none || e.isNegative) e.signs
  | .case operand branches otherwise =>
    keyword "CASE" :: (optSigns [] operand ++ branchesSigns branches ++ optSigns ["ELSE"] otherwise
      ++ [keyword "END"])
  | .subquery s => parens s.signs
def exprsSigns : List Expr → List Sign
  | [] => []
  | [e] => e.signs
  | e :: es => e.signs ++ symbol "," :: exprsSigns es
def optSigns (words : List String) : Option Expr → List Sign
  | none => []
  | some e => phrase words ++ e.signs
def branchesSigns : List Branch → List Sign
  | [] => []
  | ⟨c, r⟩ :: bs => keyword "WHEN" :: c.signs ++ keyword "THEN" :: r.signs ++ branchesSigns bs
def fieldsSigns : List ResultField → List Sign
  | [] => []
  | [⟨e, a⟩] => e.signs ++ fieldAliasSigns a
  | ⟨e, a⟩ :: fs => e.signs ++ fieldAliasSigns a ++ symbol "," :: fieldsSigns fs
def ordersSigns : List OrderItem → List Sign
  | [] => []
  | [⟨e, a⟩] => e.signs ++ directionSigns a
  | ⟨e, a⟩ :: os => e.signs ++ directionSigns a ++ symbol "," :: ordersSigns os
def Table.signs : Table → List Sign
  | .named t label => N.signs t ++ tableAliasSigns label
  | .derived s label => parens s.signs ++ tableAliasSigns label
def optTableSigns : Option Table → List Sign
  | none => []
  | some t => keyword "FROM" :: t.signs
def joinsSigns : List Join → List Sign
  | [] => []
  | ⟨kind, t, condition, _⟩ :: js =>
    kind.signs ++ t.signs ++ optSigns ["ON"] condition ++ joinsSigns js
def unionsSigns : List UnionPart → List Sign
  | [] => []
  | ⟨all, s⟩ :: us =>
    phrase (if all then ["UNION", "ALL"] else ["UNION"]) ++ s.signs ++ unionsSigns us
def Select.signs : Select → List Sign
  | ⟨distinct, fields, source, joins, criteria, grouping, having, ordering, limit, offset, unions, _⟩ =>
    keyword "SELECT" :: (distinctSigns distinct ++ fieldsSigns fields
      ++ optTableSigns source ++ joinsSigns joins ++ optSigns ["WHERE"] criteria
      ++ clauseSigns ["GROUP", "BY"] (exprsSigns grouping) (!grouping.isEmpty)
      ++ optSigns ["HAVING"] having
      ++ clauseSigns ["ORDER", "BY"] (ordersSigns ordering) (!ordering.isEmpty)
      ++ optSigns ["LIMIT"] limit ++ optSigns ["OFFSET"] offset ++ unionsSigns unions)
end

def Assignment.signs (a : Assignment) : List Sign := a.target.signs N ++ symbol "=" :: a.value.signs N

def tailSigns (ordering : List OrderItem) (limit offset : Option Expr) : List Sign :=
  clauseSigns ["ORDER", "BY"] (ordersSigns N ordering) (!ordering.isEmpty)
    ++ optSigns N ["LIMIT"] limit ++ optSigns N ["OFFSET"] offset

def InsertSource.signs : InsertSource → List Sign
  | .values rows => keyword "VALUES" :: exprsSigns N rows
  | .select s => s.signs N

def Insert.signs (i : Insert) : List Sign :=
  phrase ["INSERT", "INTO"] ++ i.table.signs N
    ++ (if i.columns.isEmpty then [] else parens (exprsSigns N i.columns))
    ++ i.source.signs N ++ clauseSigns ["RETURNING"] (fieldsSigns N i.returning) (!i.returning.isEmpty)

def Update.signs (u : Update) : List Sign :=
  keyword "UPDATE" :: u.table.signs N ++ keyword "SET" :: commas (u.assignments.map (Assignment.signs N))
    ++ optSigns N ["WHERE"] u.criteria ++ tailSigns N u.ordering u.limit u.offset

def Delete.signs (d : Delete) : List Sign :=
  phrase ["DELETE", "FROM"] ++ d.table.signs N ++ optSigns N ["WHERE"] d.criteria
    ++ tailSigns N d.ordering d.limit d.offset

/-- The tokens of a query as it is written. -/
def Query.signs : Query → List Sign
  | .select s => s.signs N
  | .insert i => i.signs N
  | .update u => u.signs N
  | .delete d => d.signs N

end

variable {N : Lettering}

/-! ## Lists of parts -/

theorem exprsSigns_eq : ∀ es, exprsSigns N es = commas (es.map (Expr.signs N))
  | [] => rfl
  | [e] => (List.append_nil _).symm
  | e :: f :: es => by
    rw [commas_map_cons, ← exprsSigns_eq (f :: es)]
    rfl

theorem fieldsSigns_eq : ∀ fs : List ResultField,
    fieldsSigns N fs = commas (fs.map fun f => f.expr.signs N ++ fieldAliasSigns f.label)
  | [] => rfl
  | [⟨e, a⟩] => (List.append_nil _).symm
  | ⟨e, a⟩ :: f :: fs => by
    rw [commas_map_cons, ← fieldsSigns_eq (f :: fs)]
    rfl

theorem ordersSigns_eq : ∀ os : List OrderItem,
    ordersSigns N os = commas (os.map fun o => o.expr.signs N ++ directionSigns o.ascending)
  | [] => rfl
  | [⟨e, a⟩] => (List.append_nil _).symm
  | ⟨e, a⟩ :: o :: os => by
    rw [commas_map_cons, ← ordersSigns_eq (o :: os)]
    rfl

theorem exprsText_eq : ∀ es, exprsText es = Text.join ", " (es.map Expr.text)
  | [] => rfl
  | [e] => rfl
  | e :: f :: es => by
    show e.text ++ ", " ++ exprsText (f :: es) = e.text ++ ", " ++ Text.join ", " ((f :: es).map Expr.text)
    rw [exprsText_eq (f :: es)]

/-! ## The markers among the tokens -/

namespace Sign

@[simp] theorem marks_nil : marks [] = [] := rfl

@[simp] theorem marks_append (ps qs : List Sign) : marks (ps ++ qs) = marks ps ++ marks qs :=
  List.filterMap_append

@[simp] theorem marks_symbol (s : String) (ps : List Sign) : marks (symbol s :: ps) = marks ps := rfl

@[simp] theorem marks_keyword (s : String) (ps : List Sign) : marks (keyword s :: ps) = marks ps := rfl

@[simp] theorem marks_name (s : String) (ps : List Sign) : marks (name s :: ps) = marks ps := rfl

@[simp] theorem marks_literal (s : String) (ps : List Sign) : marks (literal s :: ps) = marks ps := rfl

@[simp] theorem marks_phrase (ws : List String) : marks (phrase ws) = [] := by
  induction ws with
  | nil => rfl
  | cons w ws ih => exact ih

@[simp] theorem marks_parens (ps : List Sign) : marks (parens ps) = marks ps := by
  simp [parens]

@[simp] theorem marks_wrap (b : Bool) (ps : List Sign) : marks (wrapSigns b ps) = marks ps := by
  cases b <;> simp [wrapSigns]

@[simp] theorem marks_operator (op : Operator) : marks op.signs = [] := by
  unfold Operator.signs
  split <;> simp

@[simp] theorem marks_constant (l : Literal) : marks l.signs = [] := by
  unfold Literal.signs
  split <;> simp

@[simp] theorem marks_distinct (d : Bool) : marks (distinctSigns d) = [] := by
  cases d <;> rfl

@[simp] theorem marks_tableAlias (a : Option String) : marks (tableAliasSigns a) = [] := by
  cases a <;> rfl

@[simp] theorem marks_fieldAlias (a : Option String) : marks (fieldAliasSigns a) = [] := by
  cases a <;> rfl

@[simp] theorem marks_direction (a : Bool) : marks (directionSigns a) = [] := marks_phrase _

@[simp] theorem marks_joinKind (k : JoinKind) : marks k.signs = [] := by
  cases k <;> rfl

@[simp] theorem marks_exprsClause (ws : List String) (es : List Expr) :
    marks (clauseSigns ws (exprsSigns N es) (!es.isEmpty)) = marks (exprsSigns N es) := by
  cases es with
  | nil => rfl
  | cons => simp [clauseSigns]

@[simp] theorem marks_ordersClause (ws : List String) (os : List OrderItem) :
    marks (clauseSigns ws (ordersSigns N os) (!os.isEmpty)) = marks (ordersSigns N os) := by
  cases os with
  | nil => rfl
  | cons => simp [clauseSigns]

@[simp] theorem marks_fieldsClause (ws : List String) (fs : List ResultField) :
    marks (clauseSigns ws (fieldsSigns N fs) (!fs.isEmpty)) = marks (fieldsSigns N fs) := by
  cases fs with
  | nil => rfl
  | cons => simp [clauseSigns]

end Sign

mutual
theorem Expr.marks_signs : ∀ e : Expr, marks (e.signs N) = e.collect markers
  | .ident i => by
    rw [Expr.signs]
    split
    · rfl
    · exact N.quiet i.value
  | .literal l => by simp [Expr.signs, Expr.collect]
  | .marker m => rfl
  | .named m => rfl
  | .call _ _ args => by simp [Expr.signs, Expr.collect, marks_exprsSigns args]
  | .list items => by simp [Expr.signs, Expr.collect, marks_exprsSigns items]
  | .arith _ l r => by simp [Expr.signs, Expr.collect, Expr.marks_signs l, Expr.marks_signs r]
  | .compare _ l r => by simp [Expr.signs, Expr.collect, Expr.marks_signs l, Expr.marks_signs r]
  | .logic _ l r => by simp [Expr.signs, Expr.collect, Expr.marks_signs l, Expr.marks_signs r]
  | .unary .not e => by simp [Expr.signs, Expr.collect, Expr.marks_signs e]
  | .unary .negate e => by simp [Expr.signs, Expr.collect, Expr.marks_signs e]
  | .case o bs e => by
    simp [Expr.signs, Expr.collect, marks_optSigns [] o, marks_branchesSigns bs,
      marks_optSigns ["ELSE"] e]
  | .subquery s => by simp [Expr.signs, Expr.collect, Select.marks_signs s]
theorem marks_exprsSigns : ∀ es, marks (exprsSigns N es) = collectExprs markers es
  | [] => rfl
  | [e] => by simp [exprsSigns, collectExprs, Expr.marks_signs e]
  | e :: f :: es => by
    simp [exprsSigns, collectExprs, Expr.marks_signs e, marks_exprsSigns (f :: es)]
theorem marks_optSigns (ws : List String) : ∀ o, marks (optSigns N ws o) = collectOpt markers o
  | none => rfl
  | some e => by simp [optSigns, collectOpt, Expr.marks_signs e]
theorem marks_branchesSigns : ∀ bs, marks (branchesSigns N bs) = collectBranches markers bs
  | [] => rfl
  | ⟨c, r⟩ :: bs => by
    simp [branchesSigns, collectBranches, Expr.marks_signs c, Expr.marks_signs r,
      marks_branchesSigns bs]
theorem marks_fieldsSigns : ∀ fs, marks (fieldsSigns N fs) = collectFields markers fs
  | [] => rfl
  | [⟨e, a⟩] => by simp [fieldsSigns, collectFields, Expr.marks_signs e]
  | ⟨e, a⟩ :: f :: fs => by
    simp [fieldsSigns, collectFields, Expr.marks_signs e, marks_fieldsSigns (f :: fs)]
theorem marks_ordersSigns : ∀ os, marks (ordersSigns N os) = collectOrders markers os
  | [] => rfl
  | [⟨e, a⟩] => by simp [ordersSigns, collectOrders, Expr.marks_signs e]
  | ⟨e, a⟩ :: o :: os => by
    simp [ordersSigns, collectOrders, Expr.marks_signs e, marks_ordersSigns (o :: os)]
theorem Table.marks_signs : ∀ t : Table, marks (t.signs N) = t.collect markers
  | .named _ _ => by simp [Table.signs, Table.collect, N.quiet]
  | .derived s _ => by simp [Table.signs, Table.collect, Select.marks_signs s]
theorem marks_optTableSigns : ∀ t, marks (optTableSigns N t) = collectOptTable markers t
  | none => rfl
  | some t => by simp [optTableSigns, collectOptTable, Table.marks_signs t]
theorem marks_joinsSigns : ∀ js, marks (joinsSigns N js) = collectJoins markers js
  | [] => rfl
  | ⟨_, t, c, _⟩ :: js => by
    simp [joinsSigns, collectJoins, Table.marks_signs t, marks_optSigns ["ON"] c,
      marks_joinsSigns js]
theorem marks_unionsSigns : ∀ us, marks (unionsSigns N us) = collectUnions markers us
  | [] => rfl
  | ⟨_, s⟩ :: us => by
    simp [unionsSigns, collectUnions, Select.marks_signs s, marks_unionsSigns us]
theorem Select.marks_signs : ∀ s : Select, marks (s.signs N) = s.collect markers
  | ⟨d, fs, t, js, c, gs, hv, os, l, o, us, f⟩ => by
    simp [Select.signs, Select.collect, marks_fieldsSigns fs, marks_optTableSigns t,
      marks_joinsSigns js, marks_optSigns ["WHERE"] c, marks_exprsSigns gs,
      marks_optSigns ["HAVING"] hv, marks_ordersSigns os, marks_optSigns ["LIMIT"] l,
      marks_optSigns ["OFFSET"] o, marks_unionsSigns us]
end

theorem marks_assignments : ∀ as : List Assignment,
    marks (commas (as.map (Assignment.signs N))) = collectAssignments markers as
  | [] => rfl
  | [⟨t, v⟩] => by
    simp [commas, collectAssignments, Assignment.signs, Expr.marks_signs t, Expr.marks_signs v]
  | ⟨t, v⟩ :: a :: as => by
    rw [commas_map_cons, collectAssignments, ← marks_assignments (a :: as)]
    simp [Assignment.signs, Expr.marks_signs t, Expr.marks_signs v]

/-- **The markers among the tokens of a query are those of its tree**, in order. -/
theorem Query.marks_signs (q : Query) : marks (q.signs N) = q.collect markers := by
  cases q with
  | select s => exact s.marks_signs
  | insert i =>
    have hcolumns : marks (if i.columns = [] then [] else parens (exprsSigns N i.columns))
        = collectExprs markers i.columns := by
      split
      · next h => rw [h]; rfl
      · rw [marks_parens, marks_exprsSigns]
    have hsource : marks (i.source.signs N) = i.source.collect markers := by
      cases i.source with
      | values rows => simp [InsertSource.signs, InsertSource.collect, marks_exprsSigns]
      | select s => exact s.marks_signs
    simp [Query.signs, Query.collect, Insert.signs, Insert.collect, i.table.marks_signs, hcolumns,
      hsource, marks_fieldsSigns]
  | update u =>
    simp [Query.signs, Query.collect, Update.signs, Update.collect, u.table.marks_signs,
      marks_assignments, marks_optSigns, tailSigns, marks_ordersSigns]
  | delete d =>
    simp [Query.signs, Query.collect, Delete.signs, Delete.collect, d.table.marks_signs,
      marks_optSigns, tailSigns, marks_ordersSigns]

end EntitySql
