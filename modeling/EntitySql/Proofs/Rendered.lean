import Mathlib
import EntitySql.Dialect.Rendering
import EntitySql.Proofs.Erasure
import EntitySql.Proofs.Outcome

/-!
# Scanning rendered SQL

The generic SQL of a query is scanned as the tokens of the erased query. As with the text of a query, each
part of the SQL ends in a token, and what is put behind it starts a new one.

* `Rendering.lays_query`: the SQL of a query is scanned as the tokens of what it says.
-/

namespace EntitySql

open Sign Outcome

/-! ## The text of pieces -/

theorem minusText_of_minus {s : String} {tail : List Char} (h : s.toList = '-' :: tail) :
    minusText s = "-(" ++ s ++ ")" := by
  simp only [minusText, h]

theorem minusText_of_other {s : String} (h : ∀ tail, s.toList = '-' :: tail → False) :
    minusText s = "-" ++ s := by
  unfold minusText
  split
  · next hs => exact (h _ hs).elim
  · rfl

namespace Dialect

variable (d : Dialect)

@[simp] theorem spell_nil : d.spell [] = "" := rfl

@[simp] theorem spell_text (s : String) (ps : Sql) : d.spell (.text s :: ps) = s ++ d.spell ps := rfl

@[simp] theorem spell_append (s t : Sql) : d.spell (s ++ t) = d.spell s ++ d.spell t := by
  induction s with
  | nil => exact String.empty_append.symm
  | cons p s ih => rw [List.cons_append, spell, spell, ih, String.append_assoc]

@[simp] theorem spell_ofText (s : String) : d.spell (.ofText s) = s := String.append_empty

theorem spell_join (sep : String) : ∀ ss : List Sql,
    d.spell (Sql.join sep ss) = Text.join sep (ss.map d.spell)
  | [] => rfl
  | [s] => rfl
  | s :: t :: ss => by
    show d.spell (s ++ .text sep :: Sql.join sep (t :: ss))
      = d.spell s ++ sep ++ Text.join sep ((t :: ss).map d.spell)
    rw [spell_append, spell_text, spell_join sep (t :: ss), String.append_assoc]

@[simp] theorem spell_enclosed (s : Sql) : d.spell (Sql.enclosed s) = "(" ++ d.spell s ++ ")" := by
  simp [Sql.enclosed, String.append_assoc]

@[simp] theorem spell_wrapIf (b : Bool) (s : Sql) : d.spell (Sql.wrapIf b s) = wrap b (d.spell s) := by
  cases b with
  | false => rfl
  | true => exact d.spell_enclosed s

@[simp] theorem spell_minus (s : Sql) : d.spell (Rendering.minus d s) = minusText (d.spell s) := by
  unfold Rendering.minus
  split
  · next hs =>
    rw [minusText_of_minus hs, spell_text, spell_enclosed, ← String.append_assoc, ← String.append_assoc]
    rfl
  · next hno => rw [minusText_of_other hno, spell_text]

/-- An operator between two operands. -/
theorem spell_operator (left right : Sql) (op : String) :
    d.spell (left ++ .text (" " ++ op ++ " ") :: right)
      = d.spell left ++ " " ++ op ++ " " ++ d.spell right := by
  simp only [spell_append, spell_text, String.append_assoc]

theorem spell_clause {keyword k : String} (hk : keyword = " " ++ k ++ " ") (parts : List Sql) :
    d.spell (Rendering.clause keyword parts)
      = clauseText k (d.spell (Sql.join ", " parts)) (!parts.isEmpty) := by
  unfold Rendering.clause clauseText
  cases parts with
  | nil => rfl
  | cons p parts => rw [hk]; rfl

end Dialect

/-! ## Names and constants -/

theorem Lays.exprName (s : String) :
    Lays (Dialect.generic.quoteIdentifier s) ((Expr.name s).signs .quoted) := by
  rw [Expr.name, Expr.signs]
  split
  · next hstar =>
    have hs : s = "*" := hstar
    rw [hs]
    exact Lays.symbol (s := "*") (by decide)
  · exact .quoteIdentifier s

/-- An alias is one token. -/
theorem Lays.alias {a : String} (h : Text.Single a) : Lays (Dialect.generic.quoteIdentifier a) [.name a] := by
  have hlays := Lays.quoteIdentifier a
  rw [Lettering.signs_quoted (Text.segments_plain h.1), bare_of_ne h.2] at hlays
  exact hlays

theorem Dialect.literal_generic (l : Literal) : Dialect.generic.literal l = l.text := by
  cases l with
  | bool b => cases b <;> rfl
  | _ => rfl

theorem Dialect.isName_function : ∀ x ∈ Dialect.generic.functions.entries, Token.IsName x.2.name := by
  decide +kernel

/-- Functions are written by names that need no quotes. -/
theorem Dialect.isName_functionName {name : String} (h : Token.IsName name) (args : Nat) :
    Token.IsName (Dialect.generic.functionName name args) := by
  unfold Dialect.functionName FunctionTable.native?
  split
  · next f hf =>
    split
    · exact Dialect.isName_function _ (Pairs.mem_of_find? hf)
    · exact h
  · exact h

/-! ## Lists of parts -/

/-- SQL for each of some parts, scanned as its tokens. -/
def Spells {α : Type} (g : α → List Sign) : List Sql → List α → Prop :=
  List.Forall₂ fun s a => Lays (Dialect.generic.spell s) (g a)

section

variable {α : Type} {g : α → List Sign}

theorem Spells.isEmpty_eq {ss : List Sql} {as : List α} (h : Spells g ss as) : ss.isEmpty = as.isEmpty := by
  cases h <;> rfl

theorem Spells.commas {ss : List Sql} {as : List α} (h : Spells g ss as) :
    Lays (Dialect.generic.spell (Sql.join ", " ss)) (commas (as.map g)) := by
  rw [Dialect.spell_join]
  induction h with
  | nil => exact Trails.empty.toLays
  | @cons s a ss as hs hss ih =>
    cases hss with
    | nil =>
      rw [List.map_singleton, List.map_singleton, Sign.commas, List.flatMap_nil, List.append_nil]
      exact hs
    | @cons t b ss as ht hss =>
      rw [commas_map_cons, List.map_cons, Text.join_cons_of_ne_nil (by simp), String.append_assoc]
      exact hs.append (.comma ih)

end

/-- The tokens of a field. -/
def fieldSigns (f : ResultField) : List Sign := f.expr.signs .quoted ++ fieldAliasSigns f.label

/-- The tokens of an order item. -/
def orderSigns (o : OrderItem) : List Sign := o.expr.signs .quoted ++ directionSigns o.ascending

/-- A row count after its keyword. -/
def countText (keyword : String) : Option Sql → String
  | none => ""
  | some s => keyword ++ Dialect.generic.spell s

theorem Dialect.spell_pagination (limit offset : Option Sql) :
    Dialect.generic.spell (Dialect.generic.pagination limit offset)
      = countText " LIMIT " limit ++ countText " OFFSET " offset := by
  cases limit <;> cases offset <;> simp [Dialect.pagination, countText, String.append_assoc]

/-! ## Trees -/

/-- Checks under which the SQL of a tree is scanned part by part. -/
structure Checks.Scannable (w : Checks) : Prop where
  literal : ∀ {l}, w.literal l → l.IsPlain
  call : ∀ {name}, w.call name → Token.IsName name
  compare : ∀ {op}, w.compare op → op ≠ .contains
  label : ∀ {a}, w.label a → Text.Single a

theorem Checks.scannable_written : Checks.written.Scannable := ⟨id, id, id, id⟩

namespace Rendering

theorem head_quoteIdentifier (s : String) : (Dialect.generic.quoteIdentifier s).toList.head? ≠ some '-' := by
  obtain ⟨g, gs, hs⟩ := List.exists_cons_of_ne_nil (Text.segments_ne_nil s)
  have hhead : (Dialect.generic.quoteSegment g).toList.head? = some '*'
      ∨ (Dialect.generic.quoteSegment g).toList.head? = some '\x22' := by
    by_cases hg : g = "*"
    · rw [hg]
      exact .inl rfl
    · rw [Token.toList_quoteSegment hg]
      exact .inr rfl
  have hfirst : (Dialect.generic.quoteIdentifier s).toList.head?
      = (Dialect.generic.quoteSegment g).toList.head? := by
    rw [Dialect.quoteIdentifier, hs]
    cases gs with
    | nil => rfl
    | cons g' gs =>
      rw [List.map_cons, Text.join_cons_of_ne_nil (by simp), String.append_assoc]
      rcases hhead with hc | hc <;> rw [head?_append hc, hc]
  rw [hfirst]
  rcases hhead with hc | hc <;> rw [hc] <;> decide

theorem spell_binary {b b' : Bool} {op : String} {sql left right : Sql}
    (h : sql = Sql.wrapIf b left ++ .text (" " ++ op ++ " ") :: Sql.wrapIf b' right) :
    Dialect.generic.spell sql = wrap b (Dialect.generic.spell left) ++ " " ++ op ++ " "
      ++ wrap b' (Dialect.generic.spell right) := by
  rw [h, Dialect.spell_operator, Dialect.spell_wrapIf, Dialect.spell_wrapIf]

/-- Concatenation is written with its operator, as other arithmetic is. -/
theorem arith_eq_ok {op : ArithOp} {l r : Expr} {sql : Sql} (h : expr .generic (.arith op l r) = .ok sql) :
    ∃ left right, expr .generic l = .ok left ∧ expr .generic r = .ok right
      ∧ Dialect.generic.spell sql = wrap (l.needsParens op.precedence none) (Dialect.generic.spell left) ++ " "
        ++ op.text ++ " " ++ wrap (r.needsParens (op.precedence + 1) none) (Dialect.generic.spell right) := by
  simp only [expr, bind_eq_ok] at h
  obtain ⟨left, hl, right, hr, h⟩ := h
  refine ⟨left, right, hl, hr, spell_binary ?_⟩
  cases op <;> cases h <;> rfl

/-- All comparisons but one are written with their operators. -/
theorem compare_eq_ok {op : CompareOp} {l r : Expr} {sql : Sql}
    (h : expr .generic (.compare op l r) = .ok sql) (hop : op ≠ .contains) :
    ∃ left right, expr .generic l = .ok left ∧ expr .generic r = .ok right
      ∧ Dialect.generic.spell sql = wrap (l.needsParens op.precedence none) (Dialect.generic.spell left) ++ " "
        ++ op.text ++ " " ++ wrap (r.needsParens (op.precedence + 1) none) (Dialect.generic.spell right) := by
  simp only [expr, bind_eq_ok] at h
  obtain ⟨left, hl, right, hr, h⟩ := h
  refine ⟨left, right, hl, hr, spell_binary ?_⟩
  cases op with
  | contains => exact absurd rfl hop
  | _ => cases h; rfl

theorem lays_columns : ∀ {es : List Expr} {ss}, columns .generic es = .ok ss →
    Spells (Expr.signs .quoted) ss (es.map Expr.erasedColumn)
  | [], _, h => by
    cases h
    exact .nil
  | e :: es, _, h => by
    simp only [columns, bind_eq_ok, pure_eq_ok] at h
    obtain ⟨_, he, _, hes, rfl⟩ := h
    refine .cons ?_ (lays_columns hes)
    cases e with
    | ident i =>
      cases he
      rw [Dialect.spell_ofText]
      exact .exprName i.name
    | _ => cases he

theorem lays_target {t : Table} {sql : Sql} (h : target .generic t = .ok sql) :
    Lays (Dialect.generic.spell sql) (t.erasedTarget.signs .quoted) := by
  cases t with
  | named name a =>
    cases h
    have htarget := (Lays.quoteIdentifier name).append .empty
    rw [String.append_empty] at htarget
    rw [Dialect.spell_ofText]
    exact htarget
  | derived s a => cases h

/-- The SQL of a computation is scanned as those tokens. -/
abbrev LaysOut (ps : List Sign) (x : Except RenderError Sql) : Prop :=
  Gives (fun sql => Lays (Dialect.generic.spell sql) ps) x

/-- The same for what follows other tokens. -/
abbrev TrailsOut (ps : List Sign) (x : Except RenderError Sql) : Prop :=
  Gives (fun sql => Trails (Dialect.generic.spell sql) ps) x

theorem lays_list {ss : List Sql} {es : List Expr} (h : Spells (Expr.signs .quoted) ss es) :
    Lays (Dialect.generic.spell (Sql.enclosed (Sql.join ", " ss))) ((Expr.list es).signs .quoted) := by
  rw [Dialect.spell_enclosed, Expr.signs, exprsSigns_eq]
  exact (Trails.parens h.commas).toLays

theorem lays_enclosed {sql : Sql} {ps : List Sign} (h : Lays (Dialect.generic.spell sql) ps) :
    Lays (Dialect.generic.spell (Sql.enclosed sql)) (parens ps) := by
  rw [Dialect.spell_enclosed]
  exact (Trails.parens h).toLays

section

variable {w : Checks} (hw : w.Scannable)

include hw

set_option linter.unusedSectionVars false

theorem lays_label_table {a : Option String} (h : LabelFormed w a) :
    Trails (Dialect.generic.spell (label .generic " " a)) (tableAliasSigns a) := by
  cases a with
  | none => exact .empty
  | some a =>
    show Trails (" " ++ (Dialect.generic.quoteIdentifier a ++ "")) [.name a]
    rw [String.append_empty]
    exact .space (.alias (hw.label (h a rfl)))

theorem lays_label_field {a : Option String} (h : LabelFormed w a) :
    Trails (Dialect.generic.spell (label .generic " AS " a)) (fieldAliasSigns a) := by
  cases a with
  | none => exact .empty
  | some a =>
    show Trails (" AS " ++ (Dialect.generic.quoteIdentifier a ++ "")) [.keyword "AS", .name a]
    rw [String.append_empty]
    exact .clause " AS " ["AS"] (by decide) rfl (.alias (hw.label (h a rfl)))

/-- Whether the SQL of an operand starts with a minus. -/
theorem head_expr {e : Expr} {sql : Sql} (hsql : expr .generic e = .ok sql) (h : e.Formed w)
    (hb : e.needsParens UnaryOp.negate.precedence none = false) :
    (Dialect.generic.spell sql).toList.head? = some '-' ↔ e.isNegative = true := by
  have hleaf : e.isLeaf = true := Expr.isLeaf_of_precedence (Expr.le_precedence hb)
  cases e with
  | arith | compare | logic => cases hleaf
  | ident i =>
    cases hsql
    rw [Dialect.spell_ofText]
    exact iff_of_false (head_quoteIdentifier i.value) Bool.false_ne_true
  | literal l =>
    cases hsql
    rw [Dialect.spell_ofText, Dialect.literal_generic]
    exact Literal.head_text (hw.literal h)
  | marker m =>
    simp only [expr] at hsql
    split at hsql
    · cases hsql
      exact Expr.head_ne_minus (head?_append (s := "?") (c := '?') rfl "") (by decide) rfl
    · cases hsql
  | named m => cases hsql
  | call name d args =>
    simp only [expr, bind_eq_ok, pure_eq_ok] at hsql
    obtain ⟨ss, -, rfl⟩ := hsql
    refine iff_of_false ?_ Bool.false_ne_true
    simp only [List.cons_append, Dialect.spell_text, String.append_assoc]
    exact (Dialect.isName_functionName (hw.call h.1) _).head_ne _
  | list items =>
    simp only [expr, bind_eq_ok, pure_eq_ok] at hsql
    obtain ⟨ss, -, rfl⟩ := hsql
    rw [Dialect.spell_enclosed, String.append_assoc]
    exact Expr.head_ne_minus (head?_append (c := '(') rfl _) (by decide) rfl
  | unary op e =>
    cases op with
    | not =>
      have htight : Precedence.unary ≤ Precedence.not := Expr.le_precedence hb
      exact absurd htight (by decide)
    | negate =>
      simp only [expr, bind_eq_ok, pure_eq_ok] at hsql
      obtain ⟨s, -, rfl⟩ := hsql
      refine iff_of_true ?_ rfl
      rw [Dialect.spell_minus, minusText]
      split
      · rw [String.append_assoc]
        exact head?_append rfl _
      · exact head?_append rfl _
  | case o bs e =>
    simp only [expr, bind_eq_ok, pure_eq_ok] at hsql
    obtain ⟨_, -, _, -, _, -, rfl⟩ := hsql
    simp only [List.cons_append, Dialect.spell_text]
    exact Expr.head_ne_minus (head?_append (c := 'C') rfl _) (by decide) rfl
  | subquery s =>
    simp only [expr, bind_eq_ok, pure_eq_ok] at hsql
    obtain ⟨_, -, rfl⟩ := hsql
    rw [Dialect.spell_enclosed, String.append_assoc]
    exact Expr.head_ne_minus (head?_append (c := '(') rfl _) (by decide) rfl

mutual
theorem lays_expr : ∀ e : Expr, e.Formed w → LaysOut (e.erased.signs .quoted) (expr .generic e)
  | .ident i, _ => .pure (by rw [Dialect.spell_ofText]; exact .exprName i.value)
  | .literal l, hl => .pure (by
    rw [Dialect.spell_ofText, Dialect.literal_generic, Expr.erased, Expr.signs]
    exact .literal (hw.literal hl))
  | .marker m, _ => by
    simp only [expr]
    split
    · exact .pure (.anonymous _)
    · exact .error
  | .named m, _ => .error
  | .call name d args, hf => .bind (lays_exprs args hf.2) fun _ hss => .pure (by
    have hopening : (if d = true then "(DISTINCT " else "(") = "(" ++ (if d = true then "DISTINCT " else "") := by
      cases d <;> rfl
    have hcall := (Lays.name (Dialect.isName_functionName (hw.call hf.1) args.length)).append
      (.parens (Lays.distinct d hss.commas))
    rw [Expr.erased, Expr.signs, exprsSigns_eq]
    simpa only [List.cons_append, Dialect.spell_text, Dialect.spell_append, Dialect.spell_nil,
      String.append_empty, hopening, String.append_assoc, List.nil_append] using hcall)
  | .list items, hf => .bind (lays_exprs items hf.2) fun _ hss => .pure (lays_list hss)
  | .arith op l r, hf => by
    intro _ h
    obtain ⟨_, _, hl, hr, hspell⟩ := arith_eq_ok h
    rw [hspell, Expr.erased, Expr.signs, l.needsParens_erased, r.needsParens_erased]
    exact .binary (.arith op) ((lays_expr l hf.1 hl).wrap _) ((lays_expr r hf.2 hr).wrap _)
  | .compare op l r, ⟨hop, hl, hno, hyes⟩ => by
    intro _ h
    obtain ⟨_, _, hl', hr', hspell⟩ := compare_eq_ok h (hw.compare hop)
    rw [hspell, Expr.erased, Expr.signs, l.needsParens_erased, r.needsParens_erased]
    refine .binary (.compare op) ((lays_expr l hl hl').wrap _) (Lays.wrap _ ?_)
    cases hm : op.isMembership with
    | false => exact lays_expr r (hno hm) hr'
    | true => exact lays_member r (hyes hm).1 hr'
  | .logic op l r, hf =>
    .bind (lays_expr l hf.1) fun _ hl => .bind (lays_expr r hf.2) fun _ hr => .pure (by
      rw [Dialect.spell_operator, Dialect.spell_wrapIf, Dialect.spell_wrapIf, Expr.erased, Expr.signs,
        l.needsParens_erased, r.needsParens_erased]
      exact Lays.binary (.logic op) (hl.wrap _) (hr.wrap _))
  | .unary .not e, hf => .bind (lays_expr e hf) fun _ h => .pure (by
    rw [Dialect.spell_text, Dialect.spell_wrapIf, Expr.erased, Expr.signs, e.needsParens_erased]
    exact .opening "NOT " ["NOT"] (by decide) rfl (h.wrap _))
  | .unary .negate e, hf => .bind (lays_expr e hf.1) fun hs h => .pure (by
    rw [Dialect.spell_minus, Dialect.spell_wrapIf, Expr.erased, Expr.signs, e.needsParens_erased,
      e.isNegative_erased]
    exact .negated h (head_expr hw hs hf.1))
  | .case o bs e, ⟨ho, _, hbs, he⟩ => .bind (lays_opt .space o ho : TrailsOut (optSigns .quoted [] _) _) fun _ ho =>
    .bind (lays_branches bs hbs) fun _ hbs => .bind (lays_opt .elseClause e he) fun _ he => .pure (by
      have hcase := (Lays.keyword (s := "CASE") (by decide)).append (((ho.append hbs).append he).append
        (.space (.keyword (s := "END") (by decide))))
      rw [Expr.erased, Expr.signs]
      simpa only [List.cons_append, Dialect.spell_text, Dialect.spell_append, Dialect.spell_nil,
        String.append_empty, String.append_assoc, List.singleton_append, List.nil_append,
        show " " ++ "END" = " END" from rfl] using hcase)
  | .subquery s, hf => .bind (lays_select s hf) fun _ h => .pure (lays_enclosed h)
theorem lays_member : ∀ e : Expr, e.FormedMember w → LaysOut (e.erased.signs .quoted) (expr .generic e)
  | .list items, hf => .bind (lays_exprs items hf.2.2) fun _ hss => .pure (lays_list hss)
  | .subquery s, hf => .bind (lays_select s hf) fun _ h => .pure (lays_enclosed h)
  | .arith op l r, hf => by
    intro _ h
    obtain ⟨_, _, hl, hr, hspell⟩ := arith_eq_ok h
    rw [hspell, Expr.erased, Expr.signs, l.needsParens_erased, r.needsParens_erased]
    exact .binary (.arith op) ((lays_member l hf.1 hl).wrap _) ((lays_expr r hf.2.2 hr).wrap _)
  | .ident _, hf | .literal _, hf | .marker _, hf | .named _, hf | .call .., hf | .compare .., hf
  | .logic .., hf | .unary .., hf | .case .., hf => hf.elim
theorem lays_exprs : ∀ es : List Expr, ExprsFormed w es →
    Gives (Spells (Expr.signs .quoted) · (erasedExprs es)) (exprs .generic es)
  | [], _ => .pure .nil
  | e :: es, hf => .bind (lays_expr e hf.1) fun _ he => .bind (lays_exprs es hf.2) fun _ hes => .pure (.cons he hes)
theorem lays_opt {k : String} {ws : List String} (hk : ∀ {s ps}, Lays s ps → Trails (k ++ s) (phrase ws ++ ps)) :
    ∀ o : Option Expr, OptFormed w o → TrailsOut (optSigns .quoted ws (erasedOpt o)) (optExpr .generic k o)
  | none, _ => .pure .empty
  | some e, hf => .bind (lays_expr e hf) fun _ he => .pure (hk he)
theorem lays_count {k : String} {ws : List String} (hk : ∀ {s ps}, Lays s ps → Trails (k ++ s) (phrase ws ++ ps)) :
    ∀ o : Option Expr, OptFormed w o →
    Gives (fun sql => Trails (countText k sql) (optSigns .quoted ws (erasedOpt o))) (count? .generic o)
  | none, _ => .pure .empty
  | some e, hf => .bind (lays_expr e hf) fun _ he => .pure (hk he)
theorem lays_branches : ∀ bs : List Branch, BranchesFormed w bs →
    TrailsOut (branchesSigns .quoted (erasedBranches bs)) (branches .generic bs)
  | [], _ => .pure .empty
  | ⟨c, r⟩ :: bs, hf => .bind (lays_expr c hf.1) fun _ hc => .bind (lays_expr r hf.2.1) fun _ hr =>
    .bind (lays_branches bs hf.2.2) fun _ hbs => .pure (by
      have hbranch := ((Trails.whenClause hc).append (.thenClause hr)).append hbs
      simpa only [erasedBranches, branchesSigns, List.cons_append, Dialect.spell_text, Dialect.spell_append,
        String.append_assoc, List.append_assoc, phrase, List.map_cons, List.map_nil, List.nil_append]
        using hbranch)
theorem lays_fields : ∀ fs : List ResultField, FieldsFormed w fs →
    Gives (Spells fieldSigns · (erasedFields fs)) (fields .generic fs)
  | [], _ => .pure .nil
  | ⟨e, a⟩ :: fs, hf => .bind (lays_expr e hf.1) fun _ he => .bind (lays_fields fs hf.2.2) fun _ hfs =>
    .pure (.cons (by rw [Dialect.spell_append]; exact he.append (lays_label_field hw hf.2.1)) hfs)
theorem lays_orders : ∀ os : List OrderItem, OrdersFormed w os →
    Gives (Spells orderSigns · (erasedOrders os)) (orders .generic os)
  | [], _ => .pure .nil
  | ⟨e, ascending⟩ :: os, hf => .bind (lays_expr e hf.1) fun _ he => .bind (lays_orders os hf.2) fun _ hos => by
    refine .pure (.cons ?_ hos)
    rw [Dialect.spell_append, Dialect.spell_text, Dialect.spell_nil, String.append_empty]
    exact he.append (.direction ascending)
theorem lays_table {joined : Bool} : ∀ t : Table, t.Formed w joined →
    LaysOut (t.erased.signs .quoted) (table .generic t)
  | .named name _, hf => .pure ((Lays.quoteIdentifier name).append (lays_label_table hw hf.2))
  | .derived s _, hf => .bind (lays_select s hf.1) fun _ hs => .pure (by
    rw [Dialect.spell_append]
    exact (lays_enclosed hs).append (lays_label_table hw hf.2))
theorem lays_optTable : ∀ t : Option Table, OptTableFormed w t →
    TrailsOut (optTableSigns .quoted (erasedOptTable t)) (optTable .generic t)
  | none, _ => .pure .empty
  | some t, hf => .bind (lays_table t hf) fun _ ht => .pure (.fromClause ht)
theorem lays_joins : ∀ js : List Join, JoinsFormed w js →
    TrailsOut (joinsSigns .quoted (erasedJoins js)) (joins .generic js)
  | [], _ => .pure .empty
  | ⟨_, t, none, _⟩ :: _, _ => .error
  | ⟨kind, t, some c, _⟩ :: js, hf => .bind (lays_table t hf.1) fun _ ht => .bind (lays_expr c hf.2.1) fun _ hc =>
    .bind (lays_joins js hf.2.2.2) fun _ hjs => .pure (by
      have hjoin := ((Trails.joinKind kind ht).append (.onClause hc)).append hjs
      simpa only [erasedJoins, joinsSigns, erasedOpt, optSigns, List.cons_append, Dialect.spell_text,
        Dialect.spell_append, String.append_assoc, List.append_assoc] using hjoin)
theorem lays_unions : ∀ us : List UnionPart, UnionsFormed w us →
    TrailsOut (unionsSigns .quoted (erasedUnions us)) (unions .generic us)
  | [], _ => .pure .empty
  | ⟨all, s⟩ :: us, hf => .bind (lays_select s hf.1) fun _ hs => .bind (lays_unions us hf.2.2) fun _ hus => .pure (by
    rw [Dialect.spell_append, Dialect.spell_text]
    cases all with
    | false => exact (Trails.unionClause hs).append hus
    | true => exact (Trails.unionAllClause hs).append hus)
theorem lays_select : ∀ s : Select, s.Formed w → LaysOut (s.erased.signs .quoted) (select .generic s)
  | ⟨d, fs, t, js, c, gs, hv, os, l, o, us, f⟩, ⟨hfs, ht, hjs, hc, hgs, hhv, hos, hl, ho, hus, _⟩ => by
    refine .bind (lays_fields fs hfs) fun _ hfs => .bind (lays_optTable t ht) fun _ ht =>
      .bind (lays_joins js hjs) fun _ hjs => .bind (lays_opt .whereClause c hc) fun _ hc =>
      .bind (lays_exprs gs hgs) fun _ hgs => .bind (lays_opt .havingClause hv hhv) fun _ hhv =>
      .bind (lays_orders os hos) fun _ hos => .bind (lays_count .limitClause l hl) fun _ hl =>
      .bind (lays_count .offsetClause o ho) fun _ ho => .bind (lays_unions us hus) fun _ hus => .pure ?_
    have hselect : Lays _ (Select.signs .quoted (Select.erased ⟨d, fs, t, js, c, gs, hv, os, l, o, us, f⟩)) :=
      .select (by rw [fieldsSigns_eq]; exact hfs.commas) ht hjs hc (by rw [exprsSigns_eq]; exact hgs.commas) hhv
        (by rw [ordersSigns_eq]; exact hos.commas) hl ho hus
    have hopening : (if d = true then "SELECT DISTINCT " else "SELECT ")
        = "SELECT " ++ (if d = true then "DISTINCT " else "") := by cases d <;> rfl
    simpa only [List.cons_append, Dialect.spell_append, Dialect.spell_text, Dialect.spell_pagination,
      Dialect.spell_clause _ (show " GROUP BY " = " " ++ "GROUP BY" ++ " " from rfl),
      Dialect.spell_clause _ (show " ORDER BY " = " " ++ "ORDER BY" ++ " " from rfl),
      hgs.isEmpty_eq, hos.isEmpty_eq, hopening, String.append_assoc] using hselect
end

/-! ## Statements -/

theorem lays_tail {os : List OrderItem} {l o : Option Expr} (hos : OrdersFormed w os) (hl : OptFormed w l)
    (ho : OptFormed w o) :
    TrailsOut (tailSigns .quoted (erasedOrders os) (erasedOpt l) (erasedOpt o)) (tail .generic os l o) := by
  refine .bind (lays_orders hw os hos) fun _ hos => .bind (lays_count hw .limitClause l hl) fun _ hl =>
    .bind (lays_count hw .offsetClause o ho) fun _ ho => .pure ?_
  rw [Dialect.spell_append, Dialect.spell_pagination,
    Dialect.spell_clause _ (show " ORDER BY " = " " ++ "ORDER BY" ++ " " from rfl), hos.isEmpty_eq,
    ← String.append_assoc]
  exact .tail (by rw [ordersSigns_eq]; exact hos.commas) hl ho

theorem lays_rows : ∀ {rs : List Expr}, (∀ r ∈ rs, r.RowFormed w) →
    Gives (Spells (Expr.signs .quoted) · (erasedExprs rs)) (rows .generic rs)
  | [], _ => .pure .nil
  | r :: rs, hf => by
    obtain ⟨⟨items, rfl, -, hitems⟩, hmore⟩ := List.forall_mem_cons.mp hf
    -- a row may have one item, unlike a list elsewhere
    exact .bind (.bind (lays_exprs hw items hitems) fun _ hss => .pure (lays_list hss)) fun _ hr =>
      .bind (lays_rows hmore) fun _ hrs => .pure (.cons hr hrs)

theorem lays_insertSource : ∀ {s : InsertSource}, s.Formed w →
    TrailsOut (s.erased.signs .quoted) (insertSource .generic s)
  | .values rs, hf => .bind (lays_rows hw hf.2) fun _ hrs => .pure (by
    rw [Dialect.spell_text, InsertSource.erased, InsertSource.signs, exprsSigns_eq]
    exact .clause " VALUES " ["VALUES"] (by decide) rfl hrs.commas)
  | .select s, hf => .bind (lays_select hw s hf) fun _ hs => .pure (.space hs)

theorem lays_insert {i : Insert} {sql : Sql} (h : insert .generic i = .ok sql) (hf : i.Formed w) :
    Lays (Dialect.generic.spell sql) ((Query.insert i).erased.signs .quoted) := by
  simp only [insert, bind_eq_ok] at h
  obtain ⟨t, ht, cs, hcs, s, hs, h⟩ := h
  rw [if_pos (show Dialect.generic.supportsReturning = true from rfl), bind_eq_ok] at h
  obtain ⟨fs, hfs, h⟩ := h
  have hcolumns : Trails
      (Dialect.generic.spell (if cs.isEmpty then [] else .text " " :: Sql.enclosed (Sql.join ", " cs)))
      (if (i.columns.map Expr.erasedColumn).isEmpty then []
        else parens (exprsSigns .quoted (i.columns.map Expr.erasedColumn))) := by
    have hnames := lays_columns hcs
    rw [← hnames.isEmpty_eq, exprsSigns_eq]
    split
    · exact .empty
    · rw [Dialect.spell_text, Dialect.spell_enclosed]
      exact .space (Trails.parens hnames.commas).toLays
  have hreturning : Trails (Dialect.generic.spell (clause " RETURNING " fs))
      (clauseSigns ["RETURNING"] (fieldsSigns .quoted (erasedFields i.returning))
        (!(erasedFields i.returning).isEmpty)) := by
    have hfields := lays_fields hw _ hf.returning hfs
    rw [fieldsSigns_eq, Dialect.spell_clause _ (show " RETURNING " = " " ++ "RETURNING" ++ " " from rfl),
      hfields.isEmpty_eq]
    exact .clauseText ["RETURNING"] (by decide) rfl hfields.commas _
  have hinsert := Lays.opening "INSERT INTO " ["INSERT", "INTO"] (by decide) rfl
    ((lays_target ht).append (hcolumns.append ((lays_insertSource hw hf.source hs).append hreturning)))
  cases h
  rw [Query.erased, Query.signs, Insert.signs]
  simpa only [List.cons_append, Dialect.spell_text, Dialect.spell_append, String.append_assoc,
    List.append_assoc] using hinsert

theorem lays_assignments : ∀ {as : List Assignment}, (∀ a ∈ as, a.target.TargetFormed w ∧ a.value.Formed w) →
    Gives (Spells (Assignment.signs .quoted) · (as.map Assignment.erased)) (assignments .generic as)
  | [], _ => .pure .nil
  | ⟨t, v⟩ :: as, hf => by
    obtain ⟨⟨⟨i, hi, -⟩, hvalue⟩, hmore⟩ := List.forall_mem_cons.mp hf
    dsimp only at hi hvalue
    subst hi
    refine .bind .any fun ht _ => .bind (lays_expr hw v hvalue) fun _ hv =>
      .bind (lays_assignments hmore) fun _ has => .pure (.cons ?_ has)
    cases ht
    have hassign := (Lays.exprName i.value).append (.space ((Lays.symbol (s := "=") (by decide)).append
      (.space hv)))
    rw [Assignment.erased, Assignment.signs, Dialect.spell_append, Dialect.spell_text, Dialect.spell_ofText,
      show " = " = " " ++ ("=" ++ " ") from rfl]
    simpa only [Expr.erased, String.append_assoc, List.singleton_append] using hassign

/-- **The SQL of a query is scanned as the tokens of what it says.** -/
theorem lays_query {q : Query} (hf : q.Formed w) : LaysOut (q.erased.signs .quoted) (query .generic q) := by
  cases q with
  | select s => exact lays_select hw s hf
  | insert i => exact fun _ h => lays_insert hw h hf
  | update u =>
    refine .bind (lays_assignments hw hf.assignments) fun _ has => .bind (lays_table hw _ hf.table) fun _ ht =>
      .bind (lays_opt hw .whereClause _ hf.criteria) fun _ hc =>
      .bind (lays_tail hw hf.ordering hf.limit hf.offset) fun _ htail => .pure ?_
    have hset := Trails.clause " SET " ["SET"] (by decide) rfl has.commas
    have hupdate := Lays.opening "UPDATE " ["UPDATE"] (by decide) rfl
      (ht.append (hset.append (hc.append htail)))
    rw [Query.erased, Query.signs, Update.signs]
    simpa only [List.cons_append, Dialect.spell_text, Dialect.spell_append, String.append_assoc,
      List.append_assoc, Sign.phrase, List.map_cons, List.map_nil, List.nil_append] using hupdate
  | delete d =>
    refine .bind (lays_table hw _ hf.table) fun _ ht => .bind (lays_opt hw .whereClause _ hf.criteria) fun _ hc =>
      .bind (lays_tail hw hf.ordering hf.limit hf.offset) fun _ htail => .pure ?_
    have hdelete := Lays.opening "DELETE FROM " ["DELETE", "FROM"] (by decide) rfl
      (ht.append (hc.append htail))
    rw [Query.erased, Query.signs, Delete.signs]
    simpa only [List.cons_append, Dialect.spell_text, Dialect.spell_append, String.append_assoc,
      List.append_assoc] using hdelete

end

end Rendering

end EntitySql
