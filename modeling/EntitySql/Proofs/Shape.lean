import Mathlib
import EntitySql.Proofs.Collector
import EntitySql.Proofs.Selects

/-!
# The shape of trees that are read from a text

A tree that comes from a text has no facts yet, its names and literals are made of the tokens that
were read, and some combinations never occur. `Shaped` states all of this, relative to a `Vocabulary`
of what tokens can hold:

* a list has two items or more, except on the right of a membership test. There an operand that
  stands in parentheses alone is a list of one (`Expr.Member`). As operators are folded after all
  operands are read, that list may be the leftmost operand of an arithmetic expression;
* a minus before a number is part of the number;
* a join without a condition follows a relation path;
* only the first select of a union has further parts.

* `Query.Shaped.covers`: what is inside a shaped query is shaped too, and has no facts.
-/

namespace EntitySql

/-- What the tokens of a text can hold. -/
structure Vocabulary where
  /-- The text of a single name. -/
  word : String → Prop
  /-- The name of a function. -/
  call : String → Prop
  /-- A name that may be put together from several tokens. -/
  name : String → Prop
  /-- The name of a marker. -/
  parameter : String → Prop
  literal : Literal → Prop
  name_word : ∀ {s}, word s → name s
  name_segment : ∀ {s t}, name s → word t → name (s ++ "." ++ t)
  name_wildcard : ∀ {s}, name s → name (s ++ "." ++ "*")
  literal_bool : ∀ b, literal (.bool b)
  literal_null : literal .null
  literal_negate : ∀ {l l'}, literal l → l.negate? = some l' → literal l'

/-- A token whose content belongs to the vocabulary. -/
structure Vocabulary.Admits (V : Vocabulary) (t : Token) : Prop where
  word : t.kind = .identifier → V.word t.text
  call : t.kind = .identifier → V.call t.text
  literal : t.kind = .literal → ∀ l, Literal.ofToken? t.text = some l → V.literal l
  parameter : t.kind = .parameter → ∀ n, t.text.toList = ':' :: n → V.parameter (String.ofList n)

/-- A list or a subquery, which stand in parentheses of their own. -/
def Expr.isGroup : Expr → Bool
  | .list _ | .subquery _ => true
  | _ => false

variable (V : Vocabulary)

/-- An explicit alias. -/
def LabelShaped (label : Option String) : Prop := ∀ a, label = some a → V.word a

mutual
def Expr.Shaped : Expr → Prop
  | .ident i => (V.name i.value ∨ i.value = "*") ∧ i.resolution = none
  | .literal l => V.literal l
  | .marker _ => True
  | .named m => V.parameter m.name ∧ m.ty = none
  | .call name _ args => V.call name ∧ ExprsShaped args
  | .list items => 2 ≤ items.length ∧ ExprsShaped items
  | .arith _ l r | .logic _ l r => l.Shaped ∧ r.Shaped
  | .compare op l r =>
    l.Shaped ∧ (op.isMembership = false → r.Shaped)
      ∧ (op.isMembership = true → r.Member ∧ Precedence.comparison < r.precedence)
  | .unary .not e => e.Shaped
  | .unary .negate e => e.Shaped ∧ ∀ l, e = .literal l → l.negate? = none
  | .case operand bs otherwise =>
    OptShaped operand ∧ bs ≠ [] ∧ BranchesShaped bs ∧ OptShaped otherwise
  | .subquery s => s.Shaped
/-- The right side of a membership test. -/
def Expr.Member : Expr → Prop
  | .list items => items ≠ [] ∧ (∀ e, items = [e] → e.isGroup = false) ∧ ExprsShaped items
  | .subquery s => s.Shaped
  | .arith op l r => l.Member ∧ op.precedence ≤ l.precedence ∧ r.Shaped
  | _ => False
def ExprsShaped : List Expr → Prop
  | [] => True
  | e :: es => e.Shaped ∧ ExprsShaped es
def OptShaped : Option Expr → Prop
  | none => True
  | some e => e.Shaped
def BranchesShaped : List Branch → Prop
  | [] => True
  | ⟨c, r⟩ :: bs => c.Shaped ∧ r.Shaped ∧ BranchesShaped bs
def FieldsShaped : List ResultField → Prop
  | [] => True
  | ⟨e, a⟩ :: fs => e.Shaped ∧ LabelShaped V a ∧ FieldsShaped fs
def OrdersShaped : List OrderItem → Prop
  | [] => True
  | ⟨e, _⟩ :: os => e.Shaped ∧ OrdersShaped os
def Table.Shaped : Table → Prop
  | .named name a => V.name name ∧ LabelShaped V a
  | .derived s a => s.Shaped ∧ LabelShaped V a
def OptTableShaped : Option Table → Prop
  | none => True
  | some t => t.Shaped
def JoinsShaped : List Join → Prop
  | [] => True
  | ⟨_, t, condition, path⟩ :: js =>
    t.Shaped ∧ OptShaped condition ∧ path = t.name?.bind RelationPath.ofName?
      ∧ (condition = none → path ≠ none) ∧ JoinsShaped js
def UnionsShaped : List UnionPart → Prop
  | [] => True
  | ⟨_, s⟩ :: us => s.Shaped ∧ s.unions = [] ∧ UnionsShaped us
def Select.Shaped : Select → Prop
  | ⟨_, fields, source, joins, criteria, grouping, having, ordering, limit, offset, unions, facts⟩ =>
    fields ≠ [] ∧ FieldsShaped fields ∧ OptTableShaped source ∧ JoinsShaped joins ∧ OptShaped criteria
      ∧ ExprsShaped grouping ∧ OptShaped having ∧ OrdersShaped ordering ∧ OptShaped limit
      ∧ OptShaped offset ∧ UnionsShaped unions ∧ facts = {}
end

variable {V}

/-! ## Lists of parts -/

theorem exprsShaped_iff {es : List Expr} : ExprsShaped V es ↔ ∀ e ∈ es, e.Shaped V := by
  induction es with
  | nil => simp [ExprsShaped]
  | cons e es ih => simp only [ExprsShaped, ih, List.forall_mem_cons]

theorem branchesShaped_iff {bs : List Branch} :
    BranchesShaped V bs ↔ ∀ b ∈ bs, b.condition.Shaped V ∧ b.result.Shaped V := by
  induction bs with
  | nil => simp [BranchesShaped]
  | cons b bs ih =>
    obtain ⟨c, r⟩ := b
    simp only [BranchesShaped, ih, List.forall_mem_cons, and_assoc]

theorem fieldsShaped_iff {fs : List ResultField} :
    FieldsShaped V fs ↔ ∀ f ∈ fs, f.expr.Shaped V ∧ LabelShaped V f.label := by
  induction fs with
  | nil => simp [FieldsShaped]
  | cons f fs ih =>
    obtain ⟨e, a⟩ := f
    simp only [FieldsShaped, ih, List.forall_mem_cons, and_assoc]

theorem ordersShaped_iff {os : List OrderItem} : OrdersShaped V os ↔ ∀ o ∈ os, o.expr.Shaped V := by
  induction os with
  | nil => simp [OrdersShaped]
  | cons o os ih =>
    obtain ⟨e, a⟩ := o
    simp only [OrdersShaped, ih, List.forall_mem_cons]

/-- A join of a shaped tree. -/
def Join.Shaped (V : Vocabulary) (j : Join) : Prop :=
  j.table.Shaped V ∧ OptShaped V j.condition ∧ j.path = j.table.name?.bind RelationPath.ofName?
    ∧ (j.condition = none → j.path ≠ none)

theorem joinsShaped_iff {js : List Join} : JoinsShaped V js ↔ ∀ j ∈ js, j.Shaped V := by
  induction js with
  | nil => simp [JoinsShaped]
  | cons j js ih =>
    obtain ⟨kind, t, c, p⟩ := j
    simp only [JoinsShaped, ih, List.forall_mem_cons, Join.Shaped, and_assoc]

theorem unionsShaped_iff {us : List UnionPart} :
    UnionsShaped V us ↔ ∀ u ∈ us, u.select.Shaped V ∧ u.select.unions = [] := by
  induction us with
  | nil => simp [UnionsShaped]
  | cons u us ih =>
    obtain ⟨all, s⟩ := u
    simp only [UnionsShaped, ih, List.forall_mem_cons, and_assoc]

/-! ## Statements -/

/-- The name of a column, which is no wildcard of its own. -/
def Expr.NameShaped (V : Vocabulary) (e : Expr) : Prop := ∃ s, V.name s ∧ e = .name s

/-- A row of values. -/
def Expr.RowShaped (V : Vocabulary) (e : Expr) : Prop :=
  ∃ items, e = .list items ∧ items ≠ [] ∧ ExprsShaped V items

def InsertSource.Shaped (V : Vocabulary) : InsertSource → Prop
  | .values rows => rows ≠ [] ∧ ∀ r ∈ rows, r.RowShaped V
  | .select s => s.Shaped V

structure Insert.Shaped (V : Vocabulary) (i : Insert) : Prop where
  table : i.table.Shaped V
  columns : ∀ e ∈ i.columns, e.NameShaped V
  source : i.source.Shaped V
  returning : FieldsShaped V i.returning
  facts : i.facts = {}

structure Update.Shaped (V : Vocabulary) (u : Update) : Prop where
  table : u.table.Shaped V
  nonempty : u.assignments ≠ []
  assignments : ∀ a ∈ u.assignments, a.target.NameShaped V ∧ a.value.Shaped V
  criteria : OptShaped V u.criteria
  ordering : OrdersShaped V u.ordering
  limit : OptShaped V u.limit
  offset : OptShaped V u.offset
  facts : u.facts = {}

structure Delete.Shaped (V : Vocabulary) (d : Delete) : Prop where
  table : d.table.Shaped V
  criteria : OptShaped V d.criteria
  ordering : OrdersShaped V d.ordering
  limit : OptShaped V d.limit
  offset : OptShaped V d.offset
  facts : d.facts = {}

/-- A query as it is read from a text. -/
def Query.Shaped (V : Vocabulary) : Query → Prop
  | .select s => s.Shaped V
  | .insert i => i.Shaped V
  | .update u => u.Shaped V
  | .delete d => d.Shaped V

/-! ## Inside a tree -/

/-- Facts of which none say anything. -/
def Blank (fs : List Facts) : Prop := ∀ f ∈ fs, f = {}

/-- What can be inside a shaped tree: each expression has the shape of one, of the right side of a membership test or
of a row, each select has its shape, and the facts are blank. -/
structure Vocabulary.Covers (V : Vocabulary) (es : List Expr) (ss : List Select) (fs : List Facts) : Prop where
  exprs : ∀ e ∈ es, e.Shaped V ∨ e.Member V ∨ e.RowShaped V
  selects : Everywhere (·.Shaped V) ss
  facts : Blank fs

namespace Vocabulary.Covers

variable {es es' : List Expr} {ss ss' : List Select} {fs fs' fl fo : List Facts}

theorem nil : V.Covers [] [] [] := ⟨List.forall_mem_nil _, .nil, List.forall_mem_nil _⟩

theorem append (h : V.Covers es ss fs) (h' : V.Covers es' ss' fs') :
    V.Covers (es ++ es') (ss ++ ss') (fs ++ fs') :=
  ⟨List.forall_mem_append.mpr ⟨h.exprs, h'.exprs⟩, h.selects.append h'.selects,
    List.forall_mem_append.mpr ⟨h.facts, h'.facts⟩⟩

theorem node (h : V.Covers es ss fs) {e : Expr} (he : e.Shaped V ∨ e.Member V ∨ e.RowShaped V) :
    V.Covers (e :: es) ss fs := ⟨List.forall_mem_cons.mpr ⟨he, h.exprs⟩, h.selects, h.facts⟩

theorem blank (h : V.Covers es ss fs) : V.Covers es ss ({} :: fs) :=
  ⟨h.exprs, h.selects, List.forall_mem_cons.mpr ⟨rfl, h.facts⟩⟩

/-- Limit and offset are gathered together. -/
theorem paged (h : V.Covers es ss (fs ++ fl ++ fo)) : V.Covers es ss (fs ++ (fl ++ fo)) := List.append_assoc .. ▸ h

theorem ofExprs {es : List Expr} (h : ∀ e ∈ es, V.Covers e.nodes e.selects (e.collect scopes)) :
    V.Covers (exprsNodes es) (exprsSelects es) (collectExprs scopes es) := by
  induction es with
  | nil => exact .nil
  | cons e es ih =>
    obtain ⟨he, hes⟩ := List.forall_mem_cons.mp h
    exact he.append (ih hes)

end Vocabulary.Covers

mutual
theorem Expr.Shaped.covers : ∀ e : Expr, e.Shaped V → V.Covers e.nodes e.selects (e.collect scopes)
  | .ident _, h | .literal _, h | .marker _, h | .named _, h => .node .nil (.inl h)
  | .call _ _ args, h => (ExprsShaped.covers args h.2).node (.inl h)
  | .list items, h => (ExprsShaped.covers items h.2).node (.inl h)
  | .arith _ l r, h | .logic _ l r, h => ((Expr.Shaped.covers l h.1).append (Expr.Shaped.covers r h.2)).node (.inl h)
  | .compare op l r, h => by
    refine ((Expr.Shaped.covers l h.1).append ?_).node (.inl h)
    cases hop : op.isMembership with
    | false => exact Expr.Shaped.covers r (h.2.1 hop)
    | true => exact Expr.Member.covers r (h.2.2 hop).1
  | .unary .not e, h => (Expr.Shaped.covers e h).node (.inl h)
  | .unary .negate e, h => (Expr.Shaped.covers e h.1).node (.inl h)
  | .case o bs e, h => (((OptShaped.covers o h.1).append (BranchesShaped.covers bs h.2.2.1)).append
      (OptShaped.covers e h.2.2.2)).node (.inl h)
  | .subquery s, h => (Select.Shaped.covers s h).node (.inl h)
theorem Expr.Member.covers : ∀ e : Expr, e.Member V → V.Covers e.nodes e.selects (e.collect scopes)
  | .list items, h => (ExprsShaped.covers items h.2.2).node (.inr (.inl h))
  | .subquery s, h => (Select.Shaped.covers s h).node (.inl h)
  | .arith _ l r, h => ((Expr.Member.covers l h.1).append (Expr.Shaped.covers r h.2.2)).node (.inr (.inl h))
theorem ExprsShaped.covers : ∀ es, ExprsShaped V es →
    V.Covers (exprsNodes es) (exprsSelects es) (collectExprs scopes es)
  | [], _ => .nil
  | e :: es, h => (Expr.Shaped.covers e h.1).append (ExprsShaped.covers es h.2)
theorem OptShaped.covers : ∀ o, OptShaped V o → V.Covers (optNodes o) (optSelects o) (collectOpt scopes o)
  | none, _ => .nil
  | some e, h => Expr.Shaped.covers e h
theorem BranchesShaped.covers : ∀ bs, BranchesShaped V bs →
    V.Covers (branchesNodes bs) (branchesSelects bs) (collectBranches scopes bs)
  | [], _ => .nil
  | ⟨c, r⟩ :: bs, h => ((Expr.Shaped.covers c h.1).append (Expr.Shaped.covers r h.2.1)).append
      (BranchesShaped.covers bs h.2.2)
theorem FieldsShaped.covers : ∀ fs, FieldsShaped V fs →
    V.Covers (fieldsNodes fs) (fieldsSelects fs) (collectFields scopes fs)
  | [], _ => .nil
  | ⟨e, _⟩ :: fs, h => (Expr.Shaped.covers e h.1).append (FieldsShaped.covers fs h.2.2)
theorem OrdersShaped.covers : ∀ os, OrdersShaped V os →
    V.Covers (ordersNodes os) (ordersSelects os) (collectOrders scopes os)
  | [], _ => .nil
  | ⟨e, _⟩ :: os, h => (Expr.Shaped.covers e h.1).append (OrdersShaped.covers os h.2)
theorem Table.Shaped.covers : ∀ t : Table, t.Shaped V → V.Covers t.nodes t.selects (t.collect scopes)
  | .named _ _, _ => .nil
  | .derived s _, h => Select.Shaped.covers s h.1
theorem OptTableShaped.covers : ∀ t, OptTableShaped V t →
    V.Covers (optTableNodes t) (optTableSelects t) (collectOptTable scopes t)
  | none, _ => .nil
  | some t, h => Table.Shaped.covers t h
theorem JoinsShaped.covers : ∀ js, JoinsShaped V js →
    V.Covers (joinsNodes js) (joinsSelects js) (collectJoins scopes js)
  | [], _ => .nil
  | ⟨_, t, c, _⟩ :: js, h =>
    ((Table.Shaped.covers t h.1).append (OptShaped.covers c h.2.1)).append (JoinsShaped.covers js h.2.2.2.2)
theorem UnionsShaped.covers : ∀ us, UnionsShaped V us →
    V.Covers (unionsNodes us) (unionsSelects us) (collectUnions scopes us)
  | [], _ => .nil
  | ⟨_, s⟩ :: us, h => (Select.Shaped.covers s h.1).append (UnionsShaped.covers us h.2.2)
theorem Select.Shaped.covers : ∀ s : Select, s.Shaped V → V.Covers s.nodes s.selects (s.collect scopes)
  | ⟨_, fs, t, js, c, gs, hv, os, l, o, us, f⟩, h => by
    obtain ⟨-, hfs, ht, hjs, hc, hgs, hhv, hos, hl, ho, hus, hf⟩ := id h
    have hinside := ((((((((FieldsShaped.covers fs hfs).append (OptTableShaped.covers t ht)).append
      (JoinsShaped.covers js hjs)).append (OptShaped.covers c hc)).append (ExprsShaped.covers gs hgs)).append
      (OptShaped.covers hv hhv)).append (OrdersShaped.covers os hos)).append (OptShaped.covers l hl)).append
      (OptShaped.covers o ho) |>.paged.append (UnionsShaped.covers us hus)
    exact ⟨hinside.exprs, List.forall_mem_cons.mpr ⟨h, hinside.selects⟩, List.forall_mem_cons.mpr ⟨hf, hinside.facts⟩⟩
end

theorem Expr.NameShaped.covers {e : Expr} (h : e.NameShaped V) : V.Covers e.nodes e.selects (e.collect scopes) := by
  obtain ⟨s, hs, rfl⟩ := h
  exact .node .nil (.inl ⟨.inl hs, rfl⟩)

theorem InsertSource.Shaped.covers : ∀ {s : InsertSource}, s.Shaped V → V.Covers s.nodes s.selects (s.collect scopes)
  | .values _, h => .ofExprs fun r hr => by
    obtain ⟨items, rfl, -, hitems⟩ := id (h.2 r hr)
    exact (ExprsShaped.covers items hitems).node (.inr (.inr (h.2 _ hr)))
  | .select s, h => Select.Shaped.covers s h

theorem covers_assignments {as : List Assignment} (h : ∀ a ∈ as, a.target.NameShaped V ∧ a.value.Shaped V) :
    V.Covers (as.flatMap fun a => a.target.nodes ++ a.value.nodes)
      (as.flatMap fun a => a.target.selects ++ a.value.selects) (collectAssignments scopes as) := by
  induction as with
  | nil => exact .nil
  | cons a as ih =>
    obtain ⟨⟨ht, hv⟩, has⟩ := List.forall_mem_cons.mp h
    exact (ht.covers.append (Expr.Shaped.covers _ hv)).append (ih has)

/-- **What is inside a query read from a text has the shape of such**, and no facts. -/
theorem Query.Shaped.covers {q : Query} (h : q.Shaped V) : V.Covers q.nodes q.selects (q.collect scopes) := by
  cases q with
  | select s => exact Select.Shaped.covers s h
  | insert i =>
    rw [Query.collect, Insert.collect, h.facts]
    exact ((((Table.Shaped.covers _ h.table).append (.ofExprs fun e he => (h.columns e he).covers)).append
      h.source.covers).append (FieldsShaped.covers _ h.returning)).blank
  | update u =>
    rw [Query.collect, Update.collect, h.facts]
    exact ((((((Table.Shaped.covers _ h.table).append (covers_assignments h.assignments)).append
      (OptShaped.covers _ h.criteria)).append (OrdersShaped.covers _ h.ordering)).append
      (OptShaped.covers _ h.limit)).append (OptShaped.covers _ h.offset)).paged.blank
  | delete d =>
    rw [Query.collect, Delete.collect, h.facts]
    exact (((((Table.Shaped.covers _ h.table).append (OptShaped.covers _ h.criteria)).append
      (OrdersShaped.covers _ h.ordering)).append (OptShaped.covers _ h.limit)).append
      (OptShaped.covers _ h.offset)).paged.blank

theorem Query.Shaped.facts_eq {q : Query} (h : q.Shaped V) : q.facts = {} := by
  cases q with
  | select s =>
    cases s
    exact h.2.2.2.2.2.2.2.2.2.2.2
  | insert | update | delete => exact h.facts

end EntitySql
