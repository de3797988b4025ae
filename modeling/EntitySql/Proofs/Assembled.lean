import Mathlib
import EntitySql.Draft
import EntitySql.Proofs.Outcome

/-!
# What a draft is built into

A draft is built part by part, and the values of its parts are collected on the way. Here it is said once
what each part becomes: which expression takes the place of which condition, row or assignment, and under
which indices its values are found.

* `Assembly.Chain`: parts become others in turn, each with the values that it adds.
* `Assembly.conditions_eq_ok`: condition entries, with groups and connectives, become an expression that
  joins their tests.
* `Draft.select_eq_ok` and its siblings: the clauses of the four statements.
-/

namespace EntitySql

open Outcome

/-- The marker of the value with that index. -/
def Expr.argument (i : Nat) : Expr := .marker { position := some i }

/-- The markers of `k` values, the first of them with index `n`. -/
def Expr.arguments (n k : Nat) : List Expr := (List.range' n k).map argument

theorem Expr.arguments_succ (n k : Nat) : arguments n (k + 1) = argument n :: arguments (n + 1) k := rfl

namespace Assembly

variable {α β : Type}

/-! ## Parts in turn -/

/-- Parts become others in turn. `R n b a new` says that `b` becomes `a`, whose values `new` have indices
from `n` on. -/
inductive Chain (R : Nat → β → α → List Value → Prop) :
    List Value → List β → List α → List Value → Prop where
  | nil (vs : List Value) : Chain R vs [] [] vs
  | cons {vs new vs' : List Value} {b : β} {a : α} {bs : List β} {as : List α} :
      R vs.length b a new → Chain R (vs ++ new) bs as vs' → Chain R vs (b :: bs) (a :: as) vs'

namespace Chain

variable {R : Nat → β → α → List Value → Prop}

theorem append {vs us vs' : List Value} {bs cs : List β} {as ds : List α} (h : Chain R vs bs as us)
    (g : Chain R us cs ds vs') : Chain R vs (bs ++ cs) (as ++ ds) vs' := by
  induction h with
  | nil => exact g
  | cons hb _ ih => exact .cons hb (ih g)

/-- Values are only added. -/
theorem isPrefix {vs vs' : List Value} {bs : List β} {as : List α} (h : Chain R vs bs as vs') :
    vs <+: vs' := by
  induction h with
  | nil => exact List.prefix_rfl
  | cons _ _ ih => exact (List.prefix_append _ _).trans ih

/-- Each part becomes one of the others, and its values stand among those collected. -/
theorem exists_mem {vs vs' : List Value} {bs : List β} {as : List α} (h : Chain R vs bs as vs') {b : β}
    (hb : b ∈ bs) : ∃ a ∈ as, ∃ before new, R before.length b a new ∧ before ++ new <+: vs' := by
  induction h with
  | nil => cases hb
  | cons hhead htail ih =>
    rcases List.mem_cons.mp hb with rfl | hb
    · exact ⟨_, List.mem_cons_self, _, _, hhead, htail.isPrefix⟩
    · obtain ⟨a, ha, hwhere⟩ := ih hb
      exact ⟨a, List.mem_cons_of_mem _ ha, hwhere⟩

/-- The items of a list, one after the other. -/
theorem of_each (f : β → Assembly α) {g : List β → Assembly (List α)} (hnil : g [] = pure [])
    (hcons : ∀ b bs, g (b :: bs) = (do return (← f b) :: (← g bs)))
    (hf : ∀ {b vs a vs'}, f b vs = .ok a vs' → ∃ new, R vs.length b a new ∧ vs' = vs ++ new) :
    ∀ {bs : List β} {vs as vs'}, g bs vs = .ok as vs' → Chain R vs bs as vs'
  | [], vs, as, vs', h => by
    rw [hnil] at h
    obtain ⟨rfl, rfl⟩ := read_pure_eq_ok.mp h
    exact .nil _
  | b :: bs, vs, as, vs', h => by
    rw [hcons] at h
    obtain ⟨a, us, ha, h⟩ := read_bind_eq_ok.mp h
    obtain ⟨as, us', has, h⟩ := read_bind_eq_ok.mp h
    obtain ⟨rfl, rfl⟩ := read_pure_eq_ok.mp h
    obtain ⟨new, hnew, rfl⟩ := hf ha
    exact .cons hnew (of_each f hnil hcons hf has)

/-- Parts that add no values. -/
theorem forall₂ {P : β → α → Prop} {vs vs' : List Value} {bs : List β} {as : List α}
    (h : Chain (fun _ b a new => P b a ∧ new = []) vs bs as vs') : List.Forall₂ P bs as ∧ vs = vs' := by
  induction h with
  | nil => exact ⟨.nil, rfl⟩
  | cons hb _ ih =>
    obtain ⟨hP, rfl⟩ := hb
    exact ⟨.cons hP ih.1, (List.append_nil _).symm.trans ih.2⟩

end Chain

/-! ## Values -/

theorem parameter_eq_ok {v : Value} {vs vs' : List Value} {e : Expr} (h : parameter v vs = .ok e vs') :
    e = .argument vs.length ∧ vs' = vs ++ [v] := by
  cases h
  exact ⟨rfl, rfl⟩

theorem parameters_eq_ok : ∀ {items vs vs' : List Value} {es : List Expr}, parameters items vs = .ok es vs' →
    es = Expr.arguments vs.length items.length ∧ vs' = vs ++ items
  | [], vs, vs', es, h => by
    obtain ⟨rfl, rfl⟩ := read_pure_eq_ok.mp h
    exact ⟨rfl, (List.append_nil _).symm⟩
  | v :: items, vs, vs', es, h => by
    obtain ⟨e, us, he, h⟩ := read_bind_eq_ok.mp h
    obtain ⟨es, us', hes, h⟩ := read_bind_eq_ok.mp h
    obtain ⟨rfl, rfl⟩ := read_pure_eq_ok.mp h
    obtain ⟨rfl, rfl⟩ := parameter_eq_ok he
    obtain ⟨rfl, rfl⟩ := parameters_eq_ok hes
    refine ⟨?_, by rw [List.append_assoc, List.singleton_append]⟩
    rw [List.length_append, List.length_singleton, List.length_cons, Expr.arguments_succ]

/-! ## Conditions -/

/-- The test of a property by an operator against a value. Its values `new` have indices from `n` on. -/
inductive Tests (n : Nat) (property : String) : CompareOp → Value → Expr → List Value → Prop where
  | member {op : CompareOp} {items : List Value} : op.isMembership = true →
      Tests n property op (.array items)
        (.compare op (.name property) (.list (Expr.arguments n items.length))) items
  | null : Tests n property .eq .null (.compare .is (.name property) (.literal .null)) []
  | notNull : Tests n property .notEq .null (.compare .isNot (.name property) (.literal .null)) []
  | value {op : CompareOp} {v : Value} : op.isMembership = false → v.isNull = false →
      Tests n property op v (.compare op (.name property) (.argument n)) [v]

theorem comparison_eq_ok {property : String} {op : CompareOp} {v : Value} {vs vs' : List Value} {e : Expr}
    (h : comparison property op v vs = .ok e vs') :
    ∃ new, Tests vs.length property op v e new ∧ vs' = vs ++ new := by
  unfold comparison at h
  split at h
  · next hop =>
    obtain ⟨r, us, hr, h⟩ := read_bind_eq_ok.mp h
    obtain ⟨rfl, rfl⟩ := read_pure_eq_ok.mp h
    unfold membership at hr
    split at hr
    · cases hr
    · split at hr
      · obtain ⟨es, us', hes, hr⟩ := read_bind_eq_ok.mp hr
        obtain ⟨rfl, rfl⟩ := read_pure_eq_ok.mp hr
        obtain ⟨rfl, rfl⟩ := parameters_eq_ok hes
        exact ⟨_, .member hop, rfl⟩
      · cases hr
    · cases hr
  · next hop =>
    split at h
    · next hnull =>
      obtain rfl : v = .null := by
        cases v <;> first | rfl | cases hnull
      split at h
      · obtain ⟨rfl, rfl⟩ := read_pure_eq_ok.mp h
        exact ⟨[], .null, (List.append_nil _).symm⟩
      · obtain ⟨rfl, rfl⟩ := read_pure_eq_ok.mp h
        exact ⟨[], .notNull, (List.append_nil _).symm⟩
      · cases h
    · next hnull =>
      obtain ⟨r, us, hr, h⟩ := read_bind_eq_ok.mp h
      obtain ⟨rfl, rfl⟩ := read_pure_eq_ok.mp h
      obtain ⟨rfl, rfl⟩ := parameter_eq_ok hr
      exact ⟨[v], .value (Bool.eq_false_iff.mpr hop) (Bool.eq_false_iff.mpr hnull), rfl⟩

end Assembly

mutual
/-- The entries of a condition that test something, in order. -/
def Condition.tests : Condition → List Condition
  | .field key v => [.field key v]
  | .raw e => [.raw e]
  | .group entries => testsOf entries
  | .connective _ => []
/-- The entries among conditions that test something, in order, those of groups among them. -/
def testsOf : List Condition → List Condition
  | [] => []
  | c :: cs => c.tests ++ testsOf cs
end

namespace Assembly

variable {vs vs' : List Value}

/-- An entry that tests something becomes an expression, whose values `new` have indices from `n` on. -/
inductive Means (n : Nat) : Condition → Expr → List Value → Prop where
  | field {key : String} {v : Value} {op : CompareOp} {e : Expr} {new : List Value} :
      operator? (splitKey (Text.trim key)).2 = some op →
      Tests n (splitKey (Text.trim key)).1 op v e new → Means n (.field key v) e new
  | raw (e : Expr) : Means n (.raw e) e []

theorem condition_eq_ok {key : String} {v : Value} {e : Expr} (h : condition key v vs = .ok e vs') :
    ∃ new, Means vs.length (.field key v) e new ∧ vs' = vs ++ new := by
  unfold condition at h
  cases hop : operator? (splitKey (Text.trim key)).2 with
  | none =>
    simp only [hop] at h
    cases h
  | some op =>
    simp only [hop] at h
    obtain ⟨new, htests, rfl⟩ := comparison_eq_ok h
    exact ⟨new, .field hop htests, rfl⟩

/-- Expressions joined by connectives, in their order. Without any there is nothing. -/
inductive Joined : List Expr → Option Expr → Prop where
  | nil : Joined [] none
  | single (e : Expr) : Joined [e] (some e)
  | logic (op : LogicOp) {es es' : List Expr} {l r : Expr} :
      Joined es (some l) → Joined es' (some r) → Joined (es ++ es') (some (.logic op l r))

theorem Joined.eq_nil {es : List Expr} (h : Joined es none) : es = [] := by
  cases h
  rfl

theorem Joined.attach {es es' : List Expr} {folded : Option Expr} {e : Expr} (op : LogicOp)
    (h : Joined es folded) (h' : Joined es' (some e)) : Joined (es ++ es') (some (attach folded op e)) := by
  cases folded with
  | none =>
    rw [h.eq_nil]
    exact h'
  | some left => exact .logic op h h'

mutual
/-- One more entry. What a group tests is joined on its own first. -/
theorem entry_eq_ok {folded : Option Expr} {op : LogicOp} {es : List Expr} {vs vs' : List Value}
    {next : Option Expr × LogicOp} (hes : Joined es folded) (c : Condition)
    (h : entry folded op c vs = .ok next vs') :
    ∃ es', Chain Means vs c.tests es' vs' ∧ Joined (es ++ es') next.1 := by
  cases c with
  | connective op =>
    obtain ⟨rfl, rfl⟩ := read_pure_eq_ok.mp h
    exact ⟨[], .nil _, by rwa [List.append_nil]⟩
  | field key v =>
    obtain ⟨e, us, he, h⟩ := read_bind_eq_ok.mp h
    obtain ⟨rfl, rfl⟩ := read_pure_eq_ok.mp h
    obtain ⟨new, hmeans, rfl⟩ := condition_eq_ok he
    exact ⟨[e], .cons hmeans (.nil _), hes.attach op (.single e)⟩
  | raw e =>
    obtain ⟨rfl, rfl⟩ := read_pure_eq_ok.mp h
    refine ⟨[e], .cons (.raw e) ?_, hes.attach op (.single e)⟩
    rw [List.append_nil]
    exact .nil _
  | group entries =>
    obtain ⟨inner, us, hinner, h⟩ := read_bind_eq_ok.mp h
    obtain ⟨es', hchain, hjoined⟩ := fold_eq_ok .nil entries hinner
    rw [List.nil_append] at hjoined
    cases inner with
    | some e =>
      obtain ⟨rfl, rfl⟩ := read_pure_eq_ok.mp h
      exact ⟨es', hchain, hes.attach op hjoined⟩
    | none =>
      obtain ⟨rfl, rfl⟩ := read_pure_eq_ok.mp h
      refine ⟨es', hchain, ?_⟩
      rwa [hjoined.eq_nil, List.append_nil]
/-- The entries after those folded so far. -/
theorem fold_eq_ok {folded : Option Expr} {op : LogicOp} {es : List Expr} {vs vs' : List Value}
    {o : Option Expr} (hes : Joined es folded) (cs : List Condition) (h : fold folded op cs vs = .ok o vs') :
    ∃ es', Chain Means vs (testsOf cs) es' vs' ∧ Joined (es ++ es') o := by
  cases cs with
  | nil =>
    obtain ⟨rfl, rfl⟩ := read_pure_eq_ok.mp h
    exact ⟨[], .nil _, by rwa [List.append_nil]⟩
  | cons c cs =>
    obtain ⟨next, us, hnext, h⟩ := read_bind_eq_ok.mp h
    obtain ⟨es₁, hchain₁, hjoined⟩ := entry_eq_ok hes c hnext
    obtain ⟨es₂, hchain₂, hjoined⟩ := fold_eq_ok hjoined cs h
    exact ⟨es₁ ++ es₂, hchain₁.append hchain₂, List.append_assoc .. ▸ hjoined⟩
end

/-- **Condition entries become an expression that joins their tests**, in order and with none left out. -/
theorem conditions_eq_ok {cs : List Condition} {o : Option Expr}
    (h : conditions cs vs = .ok o vs') : ∃ es, Chain Means vs (testsOf cs) es vs' ∧ Joined es o :=
  fold_eq_ok .nil cs h

/-! ## Rows and assignments -/

/-- The row as a list, whose values `new` have indices from `n` on: one for each column, and the row has no
others. -/
def RowMeans (columns : List String) (n : Nat) (row : List (String × Value)) (e : Expr)
    (new : List Value) : Prop :=
  e = .list (Expr.arguments n new.length) ∧ List.Forall₂ (fun c v => Pairs.find? c row = some v) columns new
    ∧ row.length = columns.length

theorem cells_eq_ok {row : List (String × Value)} : ∀ {columns : List String} {es : List Expr}
    {vs vs' : List Value}, cells row columns vs = .ok es vs' → ∃ new,
      List.Forall₂ (fun c v => Pairs.find? c row = some v) columns new
        ∧ es = Expr.arguments vs.length new.length ∧ vs' = vs ++ new
  | [], es, vs, vs', h => by
    obtain ⟨rfl, rfl⟩ := read_pure_eq_ok.mp h
    exact ⟨[], .nil, rfl, (List.append_nil _).symm⟩
  | column :: columns, es, vs, vs', h => by
    obtain ⟨e, us, he, h⟩ := read_bind_eq_ok.mp h
    obtain ⟨es, us', hes, h⟩ := read_bind_eq_ok.mp h
    obtain ⟨rfl, rfl⟩ := read_pure_eq_ok.mp h
    unfold cell at he
    cases hv : Pairs.find? column row with
    | none =>
      rw [hv] at he
      cases he
    | some v =>
      rw [hv] at he
      obtain ⟨rfl, rfl⟩ := parameter_eq_ok he
      obtain ⟨new, hnew, rfl, rfl⟩ := cells_eq_ok hes
      refine ⟨v :: new, .cons hv hnew, ?_, by rw [List.append_assoc, List.singleton_append]⟩
      rw [List.length_append, List.length_singleton, List.length_cons, Expr.arguments_succ]

theorem valuesRows_eq_ok {columns : List String} {rows : List (List (String × Value))} {es : List Expr}
    (h : valuesRows columns rows vs = .ok es vs') : Chain (RowMeans columns) vs rows es vs' := by
  refine .of_each (valuesRow columns) rfl (fun _ _ => rfl) ?_ h
  intro row vs e vs' h
  obtain ⟨items, us, hitems, h⟩ := read_bind_eq_ok.mp h
  split at h
  · next hlength =>
    obtain ⟨rfl, rfl⟩ := read_pure_eq_ok.mp h
    obtain ⟨new, hnew, rfl, rfl⟩ := cells_eq_ok hitems
    exact ⟨new, ⟨rfl, hnew, hlength⟩, rfl⟩
  · cases h

/-- The assignment of a value to a property, the value having index `n`. -/
def AssignmentMeans (n : Nat) (pv : String × Value) (a : Assignment) (new : List Value) : Prop :=
  a = ⟨.name pv.1, .argument n⟩ ∧ new = [pv.2]

theorem assignments_eq_ok {pvs : List (String × Value)} {as : List Assignment}
    (h : assignments pvs vs = .ok as vs') : Chain AssignmentMeans vs pvs as vs' := by
  refine .of_each (fun pv : String × Value => (do return ⟨.name pv.1, ← parameter pv.2⟩ : Assembly Assignment))
    rfl (fun _ _ => by simp [assignments]) ?_ h
  intro pv vs a vs' h
  obtain ⟨e, us, he, h⟩ := read_bind_eq_ok.mp h
  obtain ⟨rfl, rfl⟩ := read_pure_eq_ok.mp h
  obtain ⟨rfl, rfl⟩ := parameter_eq_ok he
  exact ⟨[pv.2], ⟨rfl, rfl⟩, rfl⟩

/-! ## Parts written as text -/

theorem ofParse_eq_ok {α : Type} {x : Except ParseError α} {a : α}
    (h : ofParse x vs = .ok a vs') : x = .ok a ∧ vs = vs' := by
  cases x with
  | error e => cases h
  | ok b =>
    obtain ⟨rfl, rfl⟩ := read_pure_eq_ok.mp (show (pure b : Assembly α) vs = _ from h)
    exact ⟨rfl, rfl⟩

theorem resultFields_eq_ok {texts : List String} {fs : List ResultField}
    (h : resultFields texts vs = .ok fs vs') :
    List.Forall₂ (fun text f => Parse.detached Grammar.field text = .ok f) texts fs ∧ vs = vs' := by
  refine Chain.forall₂ (.of_each _ (show resultFields [] = pure [] from rfl) (fun _ _ => rfl) ?_ h)
  intro text vs f vs' h
  obtain ⟨hf, rfl⟩ := ofParse_eq_ok h
  exact ⟨[], ⟨hf, rfl⟩, (List.append_nil _).symm⟩

theorem orders_eq_ok {texts : List String} {os : List OrderItem} (h : orders texts vs = .ok os vs') :
    List.Forall₂ (fun text o => Parse.detached Grammar.order text = .ok o) texts os ∧ vs = vs' := by
  refine Chain.forall₂ (.of_each order (show orders [] = pure [] from rfl) (fun _ _ => rfl) ?_ h)
  intro text vs o vs' h
  obtain ⟨ho, rfl⟩ := ofParse_eq_ok h
  exact ⟨[], ⟨ho, rfl⟩, (List.append_nil _).symm⟩

end Assembly

/-! ## Clauses -/

/-- What a requested join becomes: the table under its alias, with the condition that its text says or along
the relation that its target names. -/
inductive DraftJoin.Means (j : DraftJoin) : Join → Prop where
  | written {text : String} {e : Expr} : j.condition = some text → Expr.ofDetached text = .ok e →
      Means j ⟨j.kind, .named j.target j.label, some e, none⟩
  | related {path : RelationPath} : j.condition = none → RelationPath.ofName? j.target = some path →
      Means j ⟨j.kind, .named j.target j.label, none, some path⟩

namespace Draft

open Assembly

theorem joinAll_eq_ok {js : List DraftJoin} {xs : List Join} {vs vs' : List Value}
    (h : joinAll js vs = .ok xs vs') : List.Forall₂ DraftJoin.Means js xs ∧ vs = vs' := by
  refine Chain.forall₂ (.of_each join (show joinAll [] = pure [] from rfl) (fun _ _ => rfl) ?_ h)
  intro j vs x vs' h
  unfold join at h
  cases hcondition : j.condition with
  | some text =>
    rw [hcondition] at h
    obtain ⟨e, us, he, h⟩ := read_bind_eq_ok.mp h
    obtain ⟨rfl, rfl⟩ := read_pure_eq_ok.mp h
    obtain ⟨hparsed, rfl⟩ := ofParse_eq_ok he
    exact ⟨[], ⟨.written hcondition hparsed, rfl⟩, (List.append_nil _).symm⟩
  | none =>
    rw [hcondition] at h
    cases hpath : RelationPath.ofName? j.target with
    | some path =>
      rw [hpath] at h
      obtain ⟨rfl, rfl⟩ := read_pure_eq_ok.mp h
      exact ⟨[], ⟨.related hcondition hpath, rfl⟩, (List.append_nil _).symm⟩
    | none =>
      rw [hpath] at h
      cases h

theorem joined_foldl {es : List Expr} {e : Expr} {xs : List Expr} {xss : List (List Expr)}
    (he : Joined xs (some e)) (hes : List.Forall₂ (fun xs e => Joined xs (some e)) xss es) :
    Joined (xs ++ xss.flatten) (some (es.foldl (fun l r => .logic .and l r) e)) := by
  induction hes generalizing e xs with
  | nil => rwa [List.flatten_nil, List.append_nil]
  | cons hr _ ih =>
    rw [List.flatten_cons, ← List.append_assoc]
    exact ih (.logic .and he hr)

theorem restrictions_eq_ok : ∀ {filters : List (List Condition)} {es : List Expr} {vs vs' : List Value},
    restrictions filters vs = .ok es vs' → ∃ xss, Chain Means vs (filters.flatMap testsOf) xss.flatten vs'
      ∧ List.Forall₂ (fun xs e => Joined xs (some e)) xss es
  | [], es, vs, vs', h => by
    obtain ⟨rfl, rfl⟩ := read_pure_eq_ok.mp h
    exact ⟨[], .nil _, .nil⟩
  | cs :: filters, es, vs, vs', h => by
    obtain ⟨o, us, ho, h⟩ := read_bind_eq_ok.mp h
    obtain ⟨xs, hchain, hjoined⟩ := conditions_eq_ok ho
    cases o with
    | some e =>
      obtain ⟨es, us', hes, h⟩ := read_bind_eq_ok.mp h
      obtain ⟨rfl, rfl⟩ := read_pure_eq_ok.mp h
      obtain ⟨xss, hchains, hjoineds⟩ := restrictions_eq_ok hes
      exact ⟨xs :: xss, hchain.append hchains, .cons hjoined hjoineds⟩
    | none =>
      obtain ⟨xss, hchains, hjoineds⟩ := restrictions_eq_ok h
      cases hjoined.eq_nil
      exact ⟨xss, hchain.append hchains, hjoineds⟩

variable {d : Draft} {vs vs' : List Value}

/-- The restriction of a statement joins the tests of all filters. -/
def Restricts (d : Draft) (vs : List Value) (criteria : Option Expr) (vs' : List Value) : Prop :=
  ∃ es, Chain Means vs (d.filters.flatMap testsOf) es vs' ∧ Joined es criteria

theorem criteria_eq_ok {o : Option Expr} (h : d.criteria vs = .ok o vs') : d.Restricts vs o vs' := by
  obtain ⟨es, us, hes, h⟩ := read_bind_eq_ok.mp h
  obtain ⟨rfl, rfl⟩ := read_pure_eq_ok.mp h
  obtain ⟨xss, hchain, hjoined⟩ := restrictions_eq_ok hes
  refine ⟨xss.flatten, hchain, ?_⟩
  cases hjoined with
  | nil => exact .nil
  | cons he hjoined => exact joined_foldl he hjoined

/-- A request that is not refused is not there. -/
theorem absent_of_reject {present : Bool} {what : String} {u : Unit}
    (h : d.reject present what vs = .ok u vs') : present = false ∧ vs = vs' := by
  unfold reject at h
  split at h
  · cases h
  · next hno => exact ⟨Bool.eq_false_iff.mpr hno, (read_pure_eq_ok.mp h).2⟩

/-- The order, the limit and the offset of a statement. -/
structure Pages (d : Draft) (ordering : List OrderItem) (limit offset : Option Expr) : Prop where
  ordering : List.Forall₂ (fun text o => Parse.detached Grammar.order text = .ok o) d.ordering ordering
  limit : limit = d.limit.map Expr.rowCount
  offset : offset = d.offset.map Expr.rowCount

/-- The clauses of a select. -/
structure Selects (d : Draft) (vs : List Value) (s : Select) (vs' : List Value) : Prop where
  rows : d.rows = []
  assignments : d.assignments = []
  distinct : s.distinct = d.distinct
  source : s.source = some d.table
  fields : d.fields = [] ∧ s.fields = [d.wildcard]
    ∨ List.Forall₂ (fun text f => Parse.detached Grammar.field text = .ok f) d.fields s.fields
  joins : List.Forall₂ DraftJoin.Means d.joins s.joins
  criteria : d.Restricts vs s.criteria vs'
  pages : d.Pages s.ordering s.limit s.offset
  rest : s.grouping = [] ∧ s.having = none ∧ s.unions = [] ∧ s.facts = {}

theorem select_eq_ok {s : Select} (h : d.select vs = .ok s vs') : d.Selects vs s vs' := by
  obtain ⟨_, us, hreject, h⟩ := read_bind_eq_ok.mp h
  obtain ⟨habsent, rfl⟩ := absent_of_reject hreject
  simp only [Bool.or_eq_false_iff, Bool.not_eq_false', List.isEmpty_iff] at habsent
  obtain ⟨fields, us₁, hfields, h⟩ := read_bind_eq_ok.mp h
  obtain ⟨joins, us₂, hjoins, h⟩ := read_bind_eq_ok.mp h
  obtain ⟨criteria, us₃, hcriteria, h⟩ := read_bind_eq_ok.mp h
  obtain ⟨ordering, us₄, hordering, h⟩ := read_bind_eq_ok.mp h
  obtain ⟨rfl, rfl⟩ := read_pure_eq_ok.mp h
  have hselected : (d.fields = [] ∧ fields = [d.wildcard]
      ∨ List.Forall₂ (fun text f => Parse.detached Grammar.field text = .ok f) d.fields fields) ∧ vs = us₁ := by
    unfold selected at hfields
    split at hfields
    · next hnone =>
      obtain ⟨rfl, rfl⟩ := read_pure_eq_ok.mp hfields
      exact ⟨.inl ⟨List.isEmpty_iff.mp hnone, rfl⟩, rfl⟩
    · exact (resultFields_eq_ok hfields).imp_left .inr
  obtain ⟨hselected, rfl⟩ := hselected
  obtain ⟨hmeans, rfl⟩ := joinAll_eq_ok hjoins
  obtain ⟨horders, rfl⟩ := orders_eq_ok hordering
  exact ⟨habsent.1, habsent.2, rfl, rfl, hselected, hmeans, criteria_eq_ok hcriteria, ⟨horders, rfl, rfl⟩,
    rfl, rfl, rfl, rfl⟩

/-- The clauses of an insert, whose columns are those of its first row. -/
structure Inserts (d : Draft) (vs : List Value) (i : Insert) (vs' : List Value) : Prop where
  filters : d.filters = []
  joins : d.joins = []
  ordering : d.ordering = []
  limit : d.limit = none
  offset : d.offset = none
  table : i.table = d.table
  rows : ∃ first rest rows, d.rows = first :: rest ∧ i.columns = (Pairs.keys first).map Expr.name
    ∧ i.source = .values rows ∧ Chain (RowMeans (Pairs.keys first)) vs d.rows rows vs'
  returning : List.Forall₂ (fun text f => Parse.detached Grammar.field text = .ok f) d.returning i.returning
  facts : i.facts = {}

theorem insert_eq_ok {i : Insert} (h : d.insert vs = .ok i vs') : d.Inserts vs i vs' := by
  obtain ⟨_, us, hreject, h⟩ := read_bind_eq_ok.mp h
  obtain ⟨habsent, rfl⟩ := absent_of_reject hreject
  obtain ⟨_, us', hreject', h⟩ := read_bind_eq_ok.mp h
  obtain ⟨habsent', rfl⟩ := absent_of_reject hreject'
  simp only [Bool.or_eq_false_iff, Bool.not_eq_false', List.isEmpty_iff, Option.isSome_eq_false_iff,
    Option.isNone_iff_eq_none] at habsent habsent'
  cases hrows : d.rows with
  | nil =>
    rw [hrows] at h
    cases h
  | cons first rest =>
    rw [hrows] at h
    obtain ⟨rows, us₁, hvalues, h⟩ := read_bind_eq_ok.mp h
    obtain ⟨returning, us₂, hreturning, h⟩ := read_bind_eq_ok.mp h
    obtain ⟨rfl, rfl⟩ := read_pure_eq_ok.mp h
    obtain ⟨hreturned, rfl⟩ := resultFields_eq_ok hreturning
    exact ⟨habsent.1, habsent.2, habsent'.1.1, habsent'.1.2, habsent'.2, rfl,
      ⟨first, rest, rows, hrows, rfl, rfl, hrows ▸ valuesRows_eq_ok hvalues⟩, hreturned, rfl⟩

/-- The clauses of an update. -/
structure Updates (d : Draft) (vs : List Value) (u : Update) (vs' : List Value) : Prop where
  rows : d.rows = []
  returning : d.returning = []
  table : u.table = d.table
  clauses : ∃ us, Chain AssignmentMeans vs d.assignments u.assignments us ∧ d.Restricts us u.criteria vs'
  pages : d.Pages u.ordering u.limit u.offset
  facts : u.facts = {}

theorem update_eq_ok {u : Update} (h : d.update vs = .ok u vs') : d.Updates vs u vs' := by
  obtain ⟨_, us, hreject, h⟩ := read_bind_eq_ok.mp h
  obtain ⟨habsent, rfl⟩ := absent_of_reject hreject
  simp only [Bool.or_eq_false_iff, Bool.not_eq_false', List.isEmpty_iff] at habsent
  by_cases hne : d.assignments.isEmpty = true
  · rw [if_pos hne] at h
    obtain ⟨_, _, h, -⟩ := read_bind_eq_ok.mp h
    cases h
  · rw [if_neg hne] at h
    obtain ⟨assigned, us₁, hassigned, h⟩ := read_bind_eq_ok.mp h
    obtain ⟨criteria, us₂, hcriteria, h⟩ := read_bind_eq_ok.mp h
    obtain ⟨ordering, us₃, hordering, h⟩ := read_bind_eq_ok.mp h
    obtain ⟨rfl, rfl⟩ := read_pure_eq_ok.mp h
    obtain ⟨horders, rfl⟩ := orders_eq_ok hordering
    exact ⟨habsent.1, habsent.2, rfl, ⟨us₁, assignments_eq_ok hassigned, criteria_eq_ok hcriteria⟩,
      ⟨horders, rfl, rfl⟩, rfl⟩

/-- The clauses of a delete. -/
structure Deletes (d : Draft) (vs : List Value) (x : Delete) (vs' : List Value) : Prop where
  rows : d.rows = []
  assignments : d.assignments = []
  table : x.table = d.table
  criteria : d.Restricts vs x.criteria vs'
  pages : d.Pages x.ordering x.limit x.offset
  facts : x.facts = {}

theorem delete_eq_ok {x : Delete} (h : d.delete vs = .ok x vs') : d.Deletes vs x vs' := by
  obtain ⟨_, us, hreject, h⟩ := read_bind_eq_ok.mp h
  obtain ⟨habsent, rfl⟩ := absent_of_reject hreject
  simp only [Bool.or_eq_false_iff, Bool.not_eq_false', List.isEmpty_iff] at habsent
  obtain ⟨criteria, us₁, hcriteria, h⟩ := read_bind_eq_ok.mp h
  obtain ⟨ordering, us₂, hordering, h⟩ := read_bind_eq_ok.mp h
  obtain ⟨rfl, rfl⟩ := read_pure_eq_ok.mp h
  obtain ⟨horders, rfl⟩ := orders_eq_ok hordering
  exact ⟨habsent.1, habsent.2, rfl, criteria_eq_ok hcriteria, ⟨horders, rfl, rfl⟩, rfl⟩

/-- What a draft is built into. -/
inductive Builds (d : Draft) (vs : List Value) : Query → List Value → Prop where
  | select {s : Select} {vs' : List Value} : d.statement = .select → d.Selects vs s vs' →
      Builds d vs (.select s) vs'
  | insert {i : Insert} {vs' : List Value} : d.statement = .insert → d.Inserts vs i vs' →
      Builds d vs (.insert i) vs'
  | update {u : Update} {vs' : List Value} : d.statement = .update → d.Updates vs u vs' →
      Builds d vs (.update u) vs'
  | delete {x : Delete} {vs' : List Value} : d.statement = .delete → d.Deletes vs x vs' →
      Builds d vs (.delete x) vs'

/-- **A built query has the clauses of its draft.** -/
theorem build_eq_ok {b : Built} (h : d.build = .ok b) : d.Builds [] b.query b.arguments := by
  unfold build at h
  split at h
  · next q arguments hq =>
    cases h
    change d.query [] = .ok q arguments at hq
    rw [query] at hq
    cases hstatement : d.statement with
    | select =>
      rw [hstatement] at hq
      obtain ⟨s, hs, rfl⟩ := read_map_eq_ok.mp hq
      exact .select hstatement (select_eq_ok hs)
    | insert =>
      rw [hstatement] at hq
      obtain ⟨i, hi, rfl⟩ := read_map_eq_ok.mp hq
      exact .insert hstatement (insert_eq_ok hi)
    | update =>
      rw [hstatement] at hq
      obtain ⟨u, hu, rfl⟩ := read_map_eq_ok.mp hq
      exact .update hstatement (update_eq_ok hu)
    | delete =>
      rw [hstatement] at hq
      obtain ⟨x, hx, rfl⟩ := read_map_eq_ok.mp hq
      exact .delete hstatement (delete_eq_ok hx)
  · cases h

end Draft

end EntitySql
