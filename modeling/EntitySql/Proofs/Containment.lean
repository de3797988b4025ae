import Mathlib
import EntitySql.Proofs.Memberships
import EntitySql.Proofs.Parts
import EntitySql.Proofs.Renderable
import EntitySql.Proofs.Rendered
import EntitySql.Proofs.RoundTrip

/-!
# The SQL of `CONTAINS`

`l CONTAINS r` is written `l LIKE '%' || r || '%'`, with `r` in parentheses where a comparison asks for
them. An operand that binds as loosely as `||` gets none, so that its own operators end up in the chain of
the pattern, and the SQL says something else of it than that it stands between two percent signs.

* `Expr.signs_afterPercent`: the tree that `'%' || r` is read as.
* **`Expr.ofText_contains`**: what the SQL of a containment is read as, and when that is the pattern.
-/

namespace EntitySql

open Sign Parse Outcome

variable {N : Lettering} {V : Vocabulary}

/-! ## Native functions -/

mutual
/-- The expression with its functions called by the names of the generic dialect. -/
def Expr.native : Expr → Expr
  | .ident i => .ident i
  | .literal l => .literal l
  | .marker m => .marker m
  | .named m => .named m
  | .call name distinct args =>
    .call (Dialect.generic.functionName name args.length) distinct (nativeExprs args)
  | .list items => .list (nativeExprs items)
  | .arith op l r => .arith op l.native r.native
  | .compare op l r => .compare op l.native r.native
  | .logic op l r => .logic op l.native r.native
  | .unary op e => .unary op e.native
  | .case operand bs otherwise => .case (nativeOpt operand) (nativeBranches bs) (nativeOpt otherwise)
  | .subquery s => .subquery s.native
def nativeExprs : List Expr → List Expr
  | [] => []
  | e :: es => e.native :: nativeExprs es
def nativeOpt : Option Expr → Option Expr
  | none => none
  | some e => some e.native
def nativeBranches : List Branch → List Branch
  | [] => []
  | ⟨c, r⟩ :: bs => ⟨c.native, r.native⟩ :: nativeBranches bs
def nativeFields : List ResultField → List ResultField
  | [] => []
  | ⟨e, a⟩ :: fs => ⟨e.native, a⟩ :: nativeFields fs
def nativeOrders : List OrderItem → List OrderItem
  | [] => []
  | ⟨e, ascending⟩ :: os => ⟨e.native, ascending⟩ :: nativeOrders os
def Table.native : Table → Table
  | .named name a => .named name a
  | .derived s a => .derived s.native a
def nativeOptTable : Option Table → Option Table
  | none => none
  | some t => some t.native
def nativeJoins : List Join → List Join
  | [] => []
  | ⟨kind, t, condition, path⟩ :: js => ⟨kind, t.native, nativeOpt condition, path⟩ :: nativeJoins js
def nativeUnions : List UnionPart → List UnionPart
  | [] => []
  | ⟨all, s⟩ :: us => ⟨all, s.native⟩ :: nativeUnions us
def Select.native : Select → Select
  | ⟨distinct, fields, source, joins, criteria, grouping, having, ordering, limit, offset, unions, facts⟩ =>
    ⟨distinct, nativeFields fields, nativeOptTable source, nativeJoins joins, nativeOpt criteria,
      nativeExprs grouping, nativeOpt having, nativeOrders ordering, nativeOpt limit, nativeOpt offset,
      nativeUnions unions, facts⟩
end

namespace Expr

variable (e : Expr)

theorem precedence_native : e.native.precedence = e.precedence := by
  cases e <;> rfl

theorem isGroup_native : e.native.isGroup = e.isGroup := by
  cases e <;> rfl

theorem isNegative_native : e.native.isNegative = e.isNegative := by
  cases e with
  | unary op e => cases op <;> rfl
  | _ => rfl

theorem needsParens_native (required : Nat) (outer : Option LogicOp) :
    e.native.needsParens required outer = e.needsParens required outer := by
  unfold needsParens
  rw [precedence_native]
  cases e with
  | logic op l r => cases outer <;> rfl
  | _ => rfl

end Expr

theorem length_nativeExprs (es : List Expr) : (nativeExprs es).length = es.length := by
  induction es with
  | nil => rfl
  | cons e es ih => exact congrArg (· + 1) ih

/-! ### The shape of a native tree -/

section

variable (hV : ∀ {name args}, V.call name → V.call (Dialect.generic.functionName name args))

include hV

set_option linter.unusedSectionVars false

mutual
theorem Expr.Shaped.native : ∀ e : Expr, e.Shaped V → e.native.Shaped V
  | .ident _, h | .literal _, h | .marker _, h | .named _, h => h
  | .call _ _ args, h => ⟨hV h.1, ExprsShaped.native args h.2⟩
  | .list items, h => ⟨(length_nativeExprs items).symm ▸ h.1, ExprsShaped.native items h.2⟩
  | .arith _ l r, h | .logic _ l r, h => ⟨Expr.Shaped.native l h.1, Expr.Shaped.native r h.2⟩
  | .compare _ l r, ⟨hl, hno, hyes⟩ =>
    ⟨Expr.Shaped.native l hl, fun hm => Expr.Shaped.native r (hno hm),
      fun hm => ⟨Expr.Member.native r (hyes hm).1, r.precedence_native.symm ▸ (hyes hm).2⟩⟩
  | .unary .not e, h => (Expr.Shaped.native e h :)
  | .unary .negate e, h => by
    refine ⟨Expr.Shaped.native e h.1, fun l hl => h.2 l ?_⟩
    cases e with
    | literal _ => exact hl
    | _ => cases hl
  | .case o bs e, ⟨ho, hne, hbs, he⟩ => by
    refine ⟨OptShaped.native o ho, ?_, BranchesShaped.native bs hbs, OptShaped.native e he⟩
    match bs, hne with
    | ⟨_, _⟩ :: _, _ => exact List.cons_ne_nil _ _
  | .subquery s, h => Select.Shaped.native s h
theorem Expr.Member.native : ∀ e : Expr, e.Member V → e.native.Member V
  | .list items, ⟨hne, hone, hitems⟩ => by
    refine ⟨?_, ?_, ExprsShaped.native items hitems⟩
    · cases items with
      | nil => exact hne
      | cons _ _ => exact List.cons_ne_nil _ _
    · intro e he
      match items, he with
      | [i], he =>
        cases he
        rw [i.isGroup_native]
        exact hone i rfl
  | .subquery s, h => Select.Shaped.native s h
  | .arith _ l r, ⟨hl, hprec, hr⟩ =>
    ⟨Expr.Member.native l hl, l.precedence_native.symm ▸ hprec, Expr.Shaped.native r hr⟩
theorem ExprsShaped.native : ∀ es : List Expr, ExprsShaped V es → ExprsShaped V (nativeExprs es)
  | [], _ => trivial
  | e :: es, h => ⟨Expr.Shaped.native e h.1, ExprsShaped.native es h.2⟩
theorem OptShaped.native : ∀ o : Option Expr, OptShaped V o → OptShaped V (nativeOpt o)
  | none, _ => trivial
  | some e, h => Expr.Shaped.native e h
theorem BranchesShaped.native : ∀ bs : List Branch, BranchesShaped V bs → BranchesShaped V (nativeBranches bs)
  | [], _ => trivial
  | ⟨c, r⟩ :: bs, h =>
    ⟨Expr.Shaped.native c h.1, Expr.Shaped.native r h.2.1, BranchesShaped.native bs h.2.2⟩
theorem FieldsShaped.native : ∀ fs : List ResultField, FieldsShaped V fs → FieldsShaped V (nativeFields fs)
  | [], _ => trivial
  | ⟨e, _⟩ :: fs, h => ⟨Expr.Shaped.native e h.1, h.2.1, FieldsShaped.native fs h.2.2⟩
theorem OrdersShaped.native : ∀ os : List OrderItem, OrdersShaped V os → OrdersShaped V (nativeOrders os)
  | [], _ => trivial
  | ⟨e, _⟩ :: os, h => ⟨Expr.Shaped.native e h.1, OrdersShaped.native os h.2⟩
theorem Table.Shaped.native : ∀ t : Table, t.Shaped V → t.native.Shaped V
  | .named _ _, h => h
  | .derived s _, h => ⟨Select.Shaped.native s h.1, h.2⟩
theorem OptTableShaped.native : ∀ t : Option Table, OptTableShaped V t → OptTableShaped V (nativeOptTable t)
  | none, _ => trivial
  | some t, h => Table.Shaped.native t h
theorem JoinsShaped.native : ∀ js : List Join, JoinsShaped V js → JoinsShaped V (nativeJoins js)
  | [], _ => trivial
  | ⟨_, t, cond, path⟩ :: js, ⟨ht, hcond, hpath, hone, hjs⟩ => by
    have hname : t.native.name? = t.name? := by cases t <;> rfl
    refine ⟨Table.Shaped.native t ht, OptShaped.native cond hcond, hname.symm ▸ hpath, fun hnone => hone ?_,
      JoinsShaped.native js hjs⟩
    cases cond with
    | none => rfl
    | some _ => cases hnone
theorem UnionsShaped.native : ∀ us : List UnionPart, UnionsShaped V us → UnionsShaped V (nativeUnions us)
  | [], _ => trivial
  | ⟨_, s⟩ :: us, ⟨hs, hnil, hus⟩ => by
    refine ⟨Select.Shaped.native s hs, ?_, UnionsShaped.native us hus⟩
    obtain ⟨_, _, _, _, _, _, _, _, _, _, unions, _⟩ := s
    cases hnil
    rfl
theorem Select.Shaped.native : ∀ s : Select, s.Shaped V → s.native.Shaped V
  | ⟨_, fs, t, js, cond, gs, hv, os, l, o, us, _⟩,
      ⟨hne, hfs, ht, hjs, hcond, hgs, hhv, hos, hl, ho, hus, hfacts⟩ => by
    refine ⟨?_, FieldsShaped.native fs hfs, OptTableShaped.native t ht, JoinsShaped.native js hjs,
      OptShaped.native cond hcond, ExprsShaped.native gs hgs, OptShaped.native hv hhv,
      OrdersShaped.native os hos, OptShaped.native l hl, OptShaped.native o ho, UnionsShaped.native us hus,
      hfacts⟩
    match fs, hne with
    | ⟨_, _⟩ :: _, _ => exact List.cons_ne_nil _ _
end

end

/-! ### The tokens of a native tree

SQL shows markers by their ordinals, which they have no more than positions before they are resolved. So
the trees that have none are compared. -/

mutual
theorem Expr.signs_native : ∀ e : Expr, e.collect markers = [] → e.native.signs N = e.erased.signs N
  | .ident _, _ | .literal _, _ => rfl
  | .marker _, h | .named _, h => by cases h
  | .call _ _ args, h => by
    rw [Expr.native, Expr.erased, Expr.signs, Expr.signs, exprsSigns_eq, exprsSigns_eq, signs_nativeExprs args h]
  | .list items, h => by
    rw [Expr.native, Expr.erased, Expr.signs, Expr.signs, exprsSigns_eq, exprsSigns_eq, signs_nativeExprs items h]
  | .arith _ l r, h | .compare _ l r, h | .logic _ l r, h => by
    obtain ⟨hl, hr⟩ := List.append_eq_nil_iff.mp h
    rw [Expr.native, Expr.erased, Expr.signs, Expr.signs, Expr.signs_native l hl, Expr.signs_native r hr,
      l.needsParens_native, l.needsParens_erased, r.needsParens_native, r.needsParens_erased]
  | .unary .not e, h => by
    rw [Expr.native, Expr.erased, Expr.signs, Expr.signs, Expr.signs_native e h, e.needsParens_native,
      e.needsParens_erased]
  | .unary .negate e, h => by
    rw [Expr.native, Expr.erased, Expr.signs, Expr.signs, Expr.signs_native e h, e.needsParens_native,
      e.needsParens_erased, e.isNegative_native, e.isNegative_erased]
  | .case o bs e, h => by
    simp only [Expr.collect, List.append_eq_nil_iff] at h
    rw [Expr.native, Expr.erased, Expr.signs, Expr.signs, signs_nativeOpt o h.1.1, signs_nativeBranches bs h.1.2,
      signs_nativeOpt e h.2]
  | .subquery s, h => by
    rw [Expr.native, Expr.erased, Expr.signs, Expr.signs, Select.signs_native s h]
theorem signs_nativeExprs : ∀ es, collectExprs markers es = [] →
    (nativeExprs es).map (Expr.signs N) = (erasedExprs es).map (Expr.signs N)
  | [], _ => rfl
  | e :: es, h => by
    obtain ⟨he, hes⟩ := List.append_eq_nil_iff.mp h
    rw [nativeExprs, erasedExprs, List.map_cons, List.map_cons, Expr.signs_native e he, signs_nativeExprs es hes]
theorem signs_nativeOpt {words : List String} : ∀ o, collectOpt markers o = [] →
    optSigns N words (nativeOpt o) = optSigns N words (erasedOpt o)
  | none, _ => rfl
  | some e, h => by rw [nativeOpt, erasedOpt, optSigns, optSigns, Expr.signs_native e h]
theorem signs_nativeBranches : ∀ bs, collectBranches markers bs = [] →
    branchesSigns N (nativeBranches bs) = branchesSigns N (erasedBranches bs)
  | [], _ => rfl
  | ⟨c, r⟩ :: bs, h => by
    simp only [collectBranches, List.append_eq_nil_iff] at h
    rw [nativeBranches, erasedBranches, branchesSigns, branchesSigns, Expr.signs_native c h.1.1,
      Expr.signs_native r h.1.2, signs_nativeBranches bs h.2]
theorem signs_nativeFields : ∀ fs, collectFields markers fs = [] →
    (nativeFields fs).map (fun f => f.expr.signs N ++ fieldAliasSigns f.label)
      = (erasedFields fs).map fun f => f.expr.signs N ++ fieldAliasSigns f.label
  | [], _ => rfl
  | ⟨e, _⟩ :: fs, h => by
    obtain ⟨he, hfs⟩ := List.append_eq_nil_iff.mp h
    rw [nativeFields, erasedFields, List.map_cons, List.map_cons, Expr.signs_native e he, signs_nativeFields fs hfs]
theorem signs_nativeOrders : ∀ os, collectOrders markers os = [] →
    (nativeOrders os).map (fun o => o.expr.signs N ++ directionSigns o.ascending)
      = (erasedOrders os).map fun o => o.expr.signs N ++ directionSigns o.ascending
  | [], _ => rfl
  | ⟨e, _⟩ :: os, h => by
    obtain ⟨he, hos⟩ := List.append_eq_nil_iff.mp h
    rw [nativeOrders, erasedOrders, List.map_cons, List.map_cons, Expr.signs_native e he, signs_nativeOrders os hos]
theorem Table.signs_native : ∀ t : Table, t.collect markers = [] → t.native.signs N = t.erased.signs N
  | .named _ _, _ => rfl
  | .derived s _, h => by
    rw [Table.native, Table.erased, Table.signs, Table.signs, Select.signs_native s h]
theorem signs_nativeOptTable : ∀ t, collectOptTable markers t = [] →
    optTableSigns N (nativeOptTable t) = optTableSigns N (erasedOptTable t)
  | none, _ => rfl
  | some t, h => by
    rw [nativeOptTable, erasedOptTable, optTableSigns, optTableSigns, Table.signs_native t h]
theorem signs_nativeJoins : ∀ js, collectJoins markers js = [] →
    joinsSigns N (nativeJoins js) = joinsSigns N (erasedJoins js)
  | [], _ => rfl
  | ⟨_, t, cond, _⟩ :: js, h => by
    simp only [collectJoins, List.append_eq_nil_iff] at h
    rw [nativeJoins, erasedJoins, joinsSigns, joinsSigns, Table.signs_native t h.1.1, signs_nativeOpt cond h.1.2,
      signs_nativeJoins js h.2]
theorem signs_nativeUnions : ∀ us, collectUnions markers us = [] →
    unionsSigns N (nativeUnions us) = unionsSigns N (erasedUnions us)
  | [], _ => rfl
  | ⟨_, s⟩ :: us, h => by
    obtain ⟨hs, hus⟩ := List.append_eq_nil_iff.mp h
    rw [nativeUnions, erasedUnions, unionsSigns, unionsSigns, Select.signs_native s hs, signs_nativeUnions us hus]
theorem Select.signs_native : ∀ s : Select, s.collect markers = [] → s.native.signs N = s.erased.signs N
  | ⟨_, fs, t, js, cond, gs, hv, os, l, o, us, _⟩, h => by
    simp only [Select.collect, markers_facts, markers_paging, List.append_eq_nil_iff] at h
    obtain ⟨⟨⟨⟨⟨⟨⟨⟨⟨-, hfs⟩, ht⟩, hjs⟩, hcond⟩, hgs⟩, hhv⟩, hos⟩, hl, ho⟩, hus⟩ := h
    have hgrouping : (nativeExprs gs).isEmpty = (erasedExprs gs).isEmpty := by cases gs <;> rfl
    have hordering : (nativeOrders os).isEmpty = (erasedOrders os).isEmpty := by
      match os with
      | [] | ⟨_, _⟩ :: _ => rfl
    rw [Select.native, Select.erased, Select.signs, Select.signs]
    simp only [fieldsSigns_eq, exprsSigns_eq, ordersSigns_eq, hgrouping, hordering, signs_nativeFields fs hfs,
      signs_nativeOptTable t ht, signs_nativeJoins js hjs, signs_nativeOpt cond hcond, signs_nativeExprs gs hgs,
      signs_nativeOpt hv hhv, signs_nativeOrders os hos, signs_nativeOpt l hl, signs_nativeOpt o ho,
      signs_nativeUnions us hus]
end

theorem Expr.collect_native {e : Expr} (h : e.collect markers = []) : e.native.collect markers = [] := by
  rw [← e.native.marks_signs (N := .quoted), e.signs_native h, e.erased.marks_signs, e.collect_erased, h,
    List.map_nil]

/-! ## The pattern -/

namespace Expr

/-- The literal `'%'`. -/
def percent : Expr := .literal (.string "%")

/-- `'%' || e` as it is read where `e` stands without parentheses for binding no looser than `||`: the
percent sign goes before the first operand of a chain. -/
def afterPercent : Expr → Expr
  | .arith op l r =>
    if op.precedence = Precedence.additive then .arith op l.afterPercent r
    else .arith .concat percent (.arith op l r)
  | e => .arith .concat percent e

/-- Nothing but arithmetic binds as `||` does. -/
theorem precedence_ne_additive {e : Expr} (h : ∀ op l r, e ≠ .arith op l r) :
    e.precedence ≠ Precedence.additive := by
  cases e with
  | arith op l r => exact absurd rfl (h op l r)
  | compare op l r => cases op <;> exact nofun
  | logic op l r => cases op <;> exact nofun
  | unary op e => cases op <;> exact nofun
  | _ => exact nofun

theorem precedence_afterPercent (e : Expr) : e.afterPercent.precedence = Precedence.additive := by
  cases e with
  | arith op l r =>
    rw [afterPercent]
    split
    · assumption
    · rfl
  | _ => rfl

theorem afterPercent_of_ne {e : Expr} (h : e.precedence ≠ Precedence.additive) :
    e.afterPercent = .arith .concat percent e := by
  cases e with
  | arith op l r => exact if_neg h
  | _ => rfl

/-- An operand stays whole exactly if it is no chain of additive operators: no chain is its own last
operand. -/
theorem afterPercent_eq_iff {e : Expr} :
    e.afterPercent = .arith .concat percent e ↔ e.precedence ≠ Precedence.additive := by
  refine ⟨fun h hadditive => ?_, afterPercent_of_ne⟩
  cases e with
  | arith op l r =>
    rw [afterPercent, if_pos (show op.precedence = Precedence.additive from hadditive)] at h
    injection h with _ _ h
    exact absurd (congrArg sizeOf h) (by simp)
  | _ => exact absurd hadditive (precedence_ne_additive nofun)

theorem signs_afterPercent_of_ne {e : Expr} (h : e.precedence ≠ Precedence.additive) :
    e.afterPercent.signs N = percent.signs N ++ (Operator.arith .concat).signs
      ++ wrapSigns (e.needsParens Precedence.additive none) (e.signs N) := by
  have hparens : e.needsParens (Precedence.additive + 1) none = e.needsParens Precedence.additive none := by
    have hiff : e.precedence < Precedence.additive + 1 ↔ e.precedence < Precedence.additive := by omega
    simp only [needsParens, hiff]
  rw [afterPercent_of_ne h, signs, show ArithOp.concat.precedence = Precedence.additive from rfl, hparens]
  rfl

/-- **The tokens of `'%' || e`**, with `e` in parentheses only where it binds looser than `||`. -/
theorem signs_afterPercent : ∀ e : Expr, e.afterPercent.signs N = percent.signs N
    ++ (Operator.arith .concat).signs ++ wrapSigns (e.needsParens Precedence.additive none) (e.signs N)
  | .arith op l r => by
    by_cases h : op.precedence = Precedence.additive
    · have hl : l.afterPercent.needsParens op.precedence none = false :=
        needsParens_none (h.trans l.precedence_afterPercent.symm).le
      have he : (arith op l r).needsParens Precedence.additive none = false := needsParens_none h.ge
      rw [afterPercent, if_pos h, signs, signs, hl, he, h]
      simp only [wrapSigns, Bool.false_eq_true, if_false, signs_afterPercent l, List.append_assoc]
    · exact signs_afterPercent_of_ne h
  | .compare .. | .logic .. | .unary .. | .ident _ | .literal _ | .marker _ | .named _ | .call .. | .list _
  | .case .. | .subquery _ => signs_afterPercent_of_ne (precedence_ne_additive nofun)

theorem collect_afterPercent : ∀ e : Expr, e.afterPercent.collect markers = e.collect markers
  | .arith op l r => by
    rw [afterPercent]
    split
    · rw [collect, collect, collect_afterPercent l]
    · rfl
  | .compare .. | .logic .. | .unary .. | .ident _ | .literal _ | .marker _ | .named _ | .call .. | .list _
  | .case .. | .subquery _ => rfl

theorem Shaped.afterPercent (hpercent : V.literal (.string "%")) : ∀ {e : Expr}, e.Shaped V →
    e.afterPercent.Shaped V
  | .arith op l r, h => by
    rw [Expr.afterPercent]
    split
    · exact ⟨Shaped.afterPercent hpercent h.1, h.2⟩
    · exact ⟨hpercent, h⟩
  | .compare .., h | .logic .., h | .unary .., h | .ident _, h | .literal _, h | .marker _, h | .named _, h
  | .call .., h | .list _, h | .case .., h | .subquery _, h => ⟨hpercent, h⟩

end Expr

/-! ## Reading the SQL -/

theorem Expr.ofText_shaped {text : String} {ts : List Token} {e : Expr} (h : Expr.ofText text = .ok e)
    (hts : Token.scan text = .ok ts) (hV : ∀ t ∈ ts, V.Admits t) : e.Shaped V :=
  (Parse.Builds.whole (Grammar.builds_finished (.nested fun n => Grammar.builds_expr (Rules.sound_upTo n)))
    (fun _ _ hd => Grammar.finished_atEnd hd) hts hV h).2

/-- A text that is scanned as the tokens of an expression is read as that expression. -/
theorem Expr.ofText_of_lays (hN : N.Legible V) {e : Expr} (he : e.Shaped V) {text : String}
    (hlays : Lays text (e.signs N)) (hmarks : Mark.Sequence 0 (e.collect markers)) :
    Expr.ofText text = .ok e := by
  refine Parse.run_of_lays (p := fun r => do let e ← Grammar.expr r; finish; pure e) (fun n hn => ?_) hlays
    (e.marks_signs (N := N) ▸ hmarks)
  have hread := Grammar.reads_expr (Rules.recovers_upTo hN n) hn he .nil
  rw [List.append_nil] at hread
  exact hread.bind (Grammar.reads_finish.bind .pure)

/-- What is asked of the operands of a containment beyond their names. -/
def Checks.operand : Checks where
  literal := Literal.IsPlain
  call := Token.IsName
  compare op := op ≠ .contains
  label := Text.Single

/-- An operand that SQL can say: it is read from a text without quoted names and with plain numbers, has no
markers, no containment of its own and no alias of several segments, and can be rendered. -/
structure Comparand (text : String) (e : Expr) : Prop where
  read : Expr.ofText text = .ok e
  tokens : ∃ ts, Token.scan text = .ok ts
    ∧ ∀ t ∈ ts, t.isQuoted = false ∧ (t.isNumber = true → t.isPlainInteger = true)
  unmarked : e.collect markers = []
  uncontained : .comparison .contains ∉ e.parts
  labels : ∀ x ∈ e.parts, x.Labels Text.Single
  renders : Succeeds (Rendering.expr .generic e)

namespace Comparand

variable {text : String} {e : Expr}

theorem shaped (h : Comparand text e) : e.Shaped .plain := by
  obtain ⟨ts, hts, hplain⟩ := h.tokens
  exact Expr.ofText_shaped h.read hts fun t ht =>
    Vocabulary.admits_plain hts ht (hplain t ht).1 (hplain t ht).2

theorem formed (h : Comparand text e) : e.Formed .operand := by
  refine Expr.Shaped.formed (V := .plain)
    (Q := fun x => x ≠ .comparison .contains ∧ x.Labels Text.Single) ?_ e h.shaped fun x hx =>
      ⟨fun hcontains => h.uncontained (hcontains ▸ hx), h.labels x hx⟩
  exact { literal := id, call := fun hname _ => hname, compare := fun hop heq => hop.1 (heq ▸ rfl),
          label := fun _ hlabel => hlabel.2 }

theorem quotable (h : Comparand text e) : e.Shaped .quotable := by
  obtain ⟨ts, hts, hplain⟩ := h.tokens
  refine Expr.ofText_shaped h.read hts fun t ht => Vocabulary.admits_quotable hts ht ?_
  obtain ⟨hquoted, hnumber⟩ := hplain t ht
  cases hn : t.isNumber with
  | false => simp [Token.isQuotable, hquoted, hn]
  | true => simp [Token.isQuotable, hquoted, hnumber hn]

/-- The SQL of an operand is scanned as the tokens of its native form. -/
theorem lays (h : Comparand text e) {sql : Sql} (hsql : Rendering.expr .generic e = .ok sql) :
    Lays (Dialect.generic.spell sql) (e.native.signs .quoted) :=
  e.signs_native h.unmarked ▸ Rendering.lays_expr ⟨id, id, id, id⟩ e h.formed hsql

end Comparand

theorem Dialect.spell_contains (left right : Sql) :
    Dialect.generic.spell (Dialect.generic.contains left right)
      = Dialect.generic.spell left ++ " " ++ "LIKE" ++ " " ++ ("\x27%\x27" ++ " " ++ "||" ++ " "
        ++ Dialect.generic.spell right ++ " " ++ "||" ++ " " ++ "\x27%\x27") := by
  simp only [contains, concat, spell_append, spell_text, spell_join, spell_ofText, List.map_cons, List.map_nil,
    Text.join, String.append_assoc]
  rfl

/-- The tokens of a containment in SQL are those of the comparison with the chain that it is read as. -/
theorem Expr.signs_like_afterPercent (l r : Expr) :
    (Expr.compare .like l (.arith .concat r.afterPercent percent)).signs N
      = wrapSigns (l.needsParens Precedence.comparison none) (l.signs N) ++ (Operator.compare .like).signs
        ++ (percent.signs N ++ (Operator.arith .concat).signs
          ++ wrapSigns (r.needsParens (Precedence.comparison + 1) none) (r.signs N)
          ++ (Operator.arith .concat).signs ++ percent.signs N) := by
  have hpattern : (Expr.arith .concat r.afterPercent percent).needsParens (CompareOp.like.precedence + 1) none
      = false := needsParens_none (Nat.le_refl _)
  have hchain : r.afterPercent.needsParens ArithOp.concat.precedence none = false :=
    needsParens_none r.precedence_afterPercent.ge
  rw [Expr.signs, Expr.signs, hpattern, hchain, signs_afterPercent]
  rfl

/-- **The SQL of a containment compares with the pattern `'%' || r || '%'`**, in which `r` stays whole exactly
if it is no chain of additive operators. Otherwise the first percent sign is taken into the chain. -/
theorem Expr.ofText_contains {text text' : String} {l r : Expr} (hl : Comparand text l) (hr : Comparand text' r) :
    ∃ sql, Rendering.expr .generic (.compare .contains l r) = .ok sql
      ∧ Expr.ofText (Dialect.generic.spell sql)
        = .ok (.compare .like l.native (.arith .concat r.native.afterPercent percent))
      ∧ (Expr.ofText (Dialect.generic.spell sql)
          = .ok (.compare .like l.native (.arith .concat (.arith .concat percent r.native) percent))
        ↔ r.precedence ≠ Precedence.additive) := by
  obtain ⟨left, hleft⟩ := hl.renders
  obtain ⟨right, hright⟩ := hr.renders
  refine ⟨_, by simp only [Rendering.expr, hleft, hright]; rfl, ?_⟩
  have hpercent : Lays "\x27%\x27" (percent.signs .quoted) := Lays.literal (l := .string "%") trivial
  have hlays := Lays.binary (.compare .like) ((hl.lays hleft).wrap (l.needsParens Precedence.comparison none))
    (.binary (.arith .concat) (.binary (.arith .concat) hpercent
      ((hr.lays hright).wrap (r.needsParens (Precedence.comparison + 1) none))) hpercent)
  have hmarks : (Expr.compare .like l.native (.arith .concat r.native.afterPercent percent)).collect markers
      = [] := by
    show l.native.collect markers ++ (r.native.afterPercent.collect markers ++ []) = []
    rw [collect_native hl.unmarked, collect_afterPercent, collect_native hr.unmarked]
    rfl
  have hshaped : (Expr.compare .like l.native (.arith .concat r.native.afterPercent percent)).Shaped .quotable :=
    ⟨Shaped.native (fun _ => trivial) l hl.quotable,
      fun _ => ⟨.afterPercent trivial (Shaped.native (fun _ => trivial) r hr.quotable), trivial⟩, nofun⟩
  have hread : Expr.ofText (Dialect.generic.spell (Dialect.generic.contains
        (Sql.wrapIf (l.needsParens CompareOp.contains.precedence none) left)
        (Sql.wrapIf (r.needsParens (CompareOp.contains.precedence + 1) none) right)))
      = .ok (.compare .like l.native (.arith .concat r.native.afterPercent percent)) := by
    refine Expr.ofText_of_lays Lettering.legible_quoted hshaped ?_ (by rw [hmarks]; trivial)
    rw [Dialect.spell_contains, Dialect.spell_wrapIf, Dialect.spell_wrapIf, signs_like_afterPercent,
      l.needsParens_native, r.needsParens_native]
    exact hlays
  refine ⟨hread, ?_⟩
  rw [hread, Except.ok.injEq, compare.injEq, arith.injEq, afterPercent_eq_iff, r.precedence_native]
  simp

theorem Expr.ofText_contains_length : ∃ sql,
    Rendering.expr .generic (.compare .contains (.name "a") (.call "length" false [.name "b"])) = .ok sql
      ∧ Expr.ofText (Dialect.generic.spell sql) = .ok (.compare .like (.name "a")
        (.arith .concat (.arith .concat percent (.call "CHAR_LENGTH" false [.name "b"])) percent)) := by
  have hl : Comparand "a" (.name "a") := by
    refine ⟨by decide +kernel, ⟨_, rfl, by decide +kernel⟩, rfl, nofun, nofun, ⟨_, rfl⟩⟩
  have hr : Comparand "length(b)" (.call "length" false [.name "b"]) := by
    refine ⟨by decide +kernel, ⟨_, rfl, by decide +kernel⟩, rfl, by decide, by decide, ⟨_, rfl⟩⟩
  obtain ⟨sql, hsql, -, hwhole⟩ := ofText_contains hl hr
  exact ⟨sql, hsql, hwhole.mpr (by decide)⟩

/-- A subquery whose field has an alias of two segments. -/
def Expr.segmented : Expr :=
  .subquery ⟨false, [⟨.name "x", some "a.b"⟩], some (.named "t" none), [], none, [], none, [], none, none, [], {}⟩

/-- A sum is torn apart, and an alias of two segments is not read back at all. -/
theorem Expr.contains_torn :
    (Dialect.generic.spell <$> Rendering.expr .generic
        (.compare .contains (.name "a") (.arith .add (.name "b") (.name "c")))
      = .ok "\x22a\x22 LIKE \x27%\x27 || \x22b\x22 + \x22c\x22 || \x27%\x27"
    ∧ Expr.ofText "\x22a\x22 LIKE \x27%\x27 || \x22b\x22 + \x22c\x22 || \x27%\x27"
      = .ok (.compare .like (.name "a")
        (.arith .concat (.arith .add (.arith .concat percent (.name "b")) (.name "c")) percent)))
    ∧ Expr.ofText "(SELECT x AS a.b FROM t)" = .ok segmented
    ∧ Dialect.generic.spell <$> Rendering.expr .generic (.compare .contains segmented (.literal (.string "z")))
      = .ok "(SELECT \x22x\x22 AS \x22a\x22.\x22b\x22 FROM \x22t\x22) LIKE \x27%\x27 || \x27z\x27 || \x27%\x27"
    ∧ (Expr.ofText
        "(SELECT \x22x\x22 AS \x22a\x22.\x22b\x22 FROM \x22t\x22) LIKE \x27%\x27 || \x27z\x27 || \x27%\x27").isOk
      = false := by
  decide +kernel

end EntitySql
