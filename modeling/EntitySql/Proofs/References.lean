import Mathlib
import EntitySql.Proofs.Carrying
import EntitySql.Proofs.Slots

/-!
# What names mean

Every name of a query stands at a spot (`Query.references`). The last three passes turn each name into a
column it can mean there, or leave it, and turn a wildcard into columns.

* `Query.Formed.covers`: the names and selects of a well-formed query pass its checks.
* `Query.Edited.unfolds`: an edit of names and wildcards, name by name.
* **`Query.resolve_becomes`**: each name of a resolved query is a column of a visible source, a wildcard, a
  result alias, or may belong to a raw table.
-/

namespace EntitySql

open Outcome

/-! ## The names of a query -/

/-- A name with where it stands. -/
structure Reference where
  spot : Spot
  ident : Identifier

mutual
def Expr.references (p : Spot) : Expr → List Reference
  | .ident i => [⟨p, i⟩]
  | .literal _ | .marker _ | .named _ => []
  | .call _ _ args => exprsReferences p args
  | .list items => exprsReferences p items
  | .arith _ l r | .compare _ l r | .logic _ l r => l.references p ++ r.references p
  | .unary _ e => e.references p
  | .case operand bs otherwise =>
    optReferences p operand ++ branchesReferences p bs ++ optReferences p otherwise
  | .subquery s => s.references p.scopes
def exprsReferences (p : Spot) : List Expr → List Reference
  | [] => []
  | e :: es => e.references p ++ exprsReferences p es
def optReferences (p : Spot) : Option Expr → List Reference
  | none => []
  | some e => e.references p
def branchesReferences (p : Spot) : List Branch → List Reference
  | [] => []
  | ⟨c, r⟩ :: bs => c.references p ++ r.references p ++ branchesReferences p bs
def fieldsReferences (p : Spot) : List ResultField → List Reference
  | [] => []
  | ⟨e, _⟩ :: fs => e.references p ++ fieldsReferences p fs
def ordersReferences (p : Spot) : List OrderItem → List Reference
  | [] => []
  | ⟨e, _⟩ :: os => e.references p ++ ordersReferences p os
/-- The names in a derived table, which sees nothing of the query around it. -/
def Table.references : Table → List Reference
  | .named _ _ => []
  | .derived s _ => s.references []
def optTableReferences : Option Table → List Reference
  | none => []
  | some t => t.references
def joinsReferences (p : Spot) : List Join → List Reference
  | [] => []
  | ⟨_, t, condition, _⟩ :: js => t.references ++ optReferences p condition ++ joinsReferences p js
def unionsReferences : List UnionPart → List Reference
  | [] => []
  | ⟨_, s⟩ :: us => s.references [] ++ unionsReferences us
/-- The names in a select that sees the given queries around it. Its result aliases are admitted where it
groups and orders. -/
def Select.references (visible : List View) : Select → List Reference
  | ⟨_, fields, source, joins, criteria, grouping, having, ordering, limit, offset, unions, facts⟩ =>
    fieldsReferences ⟨.ofSelect fields facts :: visible, false⟩ fields ++ optTableReferences source
      ++ joinsReferences ⟨.ofSelect fields facts :: visible, false⟩ joins
      ++ optReferences ⟨.ofSelect fields facts :: visible, false⟩ criteria
      ++ exprsReferences ⟨.ofSelect fields facts :: visible, true⟩ grouping
      ++ optReferences ⟨.ofSelect fields facts :: visible, true⟩ having
      ++ ordersReferences ⟨.ofSelect fields facts :: visible, true⟩ ordering
      ++ optReferences ⟨.ofSelect fields facts :: visible, false⟩ limit
      ++ optReferences ⟨.ofSelect fields facts :: visible, false⟩ offset ++ unionsReferences unions
end

def assignmentsReferences (p : Spot) : List Assignment → List Reference
  | [] => []
  | ⟨t, v⟩ :: as => t.references p ++ v.references p ++ assignmentsReferences p as

def InsertSource.references (p : Spot) : InsertSource → List Reference
  | .values rows => exprsReferences p rows
  | .select s => s.references []

/-- The names of a query in the order of its text. -/
def Query.references : Query → List Reference
  | .select s => s.references []
  | .insert i =>
    i.table.references ++ exprsReferences ⟨[.ofFacts i.facts], false⟩ i.columns
      ++ i.source.references ⟨[.ofFacts i.facts], false⟩
      ++ fieldsReferences ⟨[.ofFacts i.facts], false⟩ i.returning
  | .update u =>
    u.table.references ++ assignmentsReferences ⟨[.ofFacts u.facts], false⟩ u.assignments
      ++ optReferences ⟨[.ofFacts u.facts], false⟩ u.criteria
      ++ ordersReferences ⟨[.ofFacts u.facts], true⟩ u.ordering
      ++ optReferences ⟨[.ofFacts u.facts], false⟩ u.limit
      ++ optReferences ⟨[.ofFacts u.facts], false⟩ u.offset
  | .delete d =>
    d.table.references ++ optReferences ⟨[.ofFacts d.facts], false⟩ d.criteria
      ++ ordersReferences ⟨[.ofFacts d.facts], true⟩ d.ordering
      ++ optReferences ⟨[.ofFacts d.facts], false⟩ d.limit
      ++ optReferences ⟨[.ofFacts d.facts], false⟩ d.offset

/-! ## Inside a well-formed tree -/

/-- All selects are well formed, and all names pass the checks. -/
structure Checks.Covers (c : Checks) (ss : List Select) (as : List Reference) : Prop where
  selects : Everywhere (·.Formed c) ss
  idents : Everywhere (fun a => c.ident a.ident ∨ c.target a.ident) as

namespace Checks.Covers

variable {c : Checks} {ss ss' : List Select} {as as' : List Reference}

theorem nil : c.Covers [] [] := ⟨.nil, .nil⟩

theorem name {p : Spot} {i : Identifier} (h : c.ident i ∨ c.target i) : c.Covers [] [⟨p, i⟩] :=
  ⟨.nil, List.forall_mem_singleton.mpr h⟩

theorem select {s : Select} (hs : s.Formed c) (h : c.Covers ss as) : c.Covers (s :: ss) as :=
  ⟨List.forall_mem_cons.mpr ⟨hs, h.selects⟩, h.idents⟩

theorem append (h : c.Covers ss as) (h' : c.Covers ss' as') : c.Covers (ss ++ ss') (as ++ as') :=
  ⟨h.selects.append h'.selects, h.idents.append h'.idents⟩

theorem ofExprs {p : Spot} {es : List Expr} (h : ∀ e ∈ es, c.Covers e.selects (e.references p)) :
    c.Covers (exprsSelects es) (exprsReferences p es) := by
  induction es with
  | nil => exact .nil
  | cons e es ih =>
    obtain ⟨he, hes⟩ := List.forall_mem_cons.mp h
    exact he.append (ih hes)

end Checks.Covers

section

variable {c : Checks}

mutual
theorem Expr.Formed.covers {p} : ∀ e : Expr, e.Formed c → c.Covers e.selects (e.references p)
  | .ident _, h => .name (.inl h)
  | .literal _, _ | .marker _, _ | .named _, _ => .nil
  | .call _ _ args, h => ExprsFormed.covers args h.2
  | .list items, h => ExprsFormed.covers items h.2
  | .arith _ l r, h | .logic _ l r, h => (Expr.Formed.covers l h.1).append (Expr.Formed.covers r h.2)
  | .compare op l r, ⟨_, hl, hno, hyes⟩ => by
    refine (Expr.Formed.covers l hl).append ?_
    cases hm : op.isMembership with
    | false => exact Expr.Formed.covers r (hno hm)
    | true => exact Expr.FormedMember.covers r (hyes hm).1
  | .unary .not e, h => (Expr.Formed.covers e h :)
  | .unary .negate e, h => Expr.Formed.covers e h.1
  | .case o bs e, h =>
    ((OptFormed.covers o h.1).append (BranchesFormed.covers bs h.2.2.1)).append (OptFormed.covers e h.2.2.2)
  | .subquery s, h => Select.Formed.covers s h
theorem Expr.FormedMember.covers {p} : ∀ e : Expr, e.FormedMember c → c.Covers e.selects (e.references p)
  | .list items, h => ExprsFormed.covers items h.2.2
  | .subquery s, h => Select.Formed.covers s h
  | .arith _ l r, h => (Expr.FormedMember.covers l h.1).append (Expr.Formed.covers r h.2.2)
  | .ident _, h | .literal _, h | .marker _, h | .named _, h | .call .., h | .compare .., h
  | .logic .., h | .unary .., h | .case .., h => h.elim
theorem ExprsFormed.covers {p} : ∀ es : List Expr, ExprsFormed c es →
    c.Covers (exprsSelects es) (exprsReferences p es)
  | [], _ => .nil
  | e :: es, h => (Expr.Formed.covers e h.1).append (ExprsFormed.covers es h.2)
theorem OptFormed.covers {p} : ∀ o : Option Expr, OptFormed c o → c.Covers (optSelects o) (optReferences p o)
  | none, _ => .nil
  | some e, h => Expr.Formed.covers e h
theorem BranchesFormed.covers {p} : ∀ bs : List Branch, BranchesFormed c bs →
    c.Covers (branchesSelects bs) (branchesReferences p bs)
  | [], _ => .nil
  | ⟨cond, r⟩ :: bs, h =>
    ((Expr.Formed.covers cond h.1).append (Expr.Formed.covers r h.2.1)).append (BranchesFormed.covers bs h.2.2)
theorem FieldsFormed.covers {p} : ∀ fs : List ResultField, FieldsFormed c fs →
    c.Covers (fieldsSelects fs) (fieldsReferences p fs)
  | [], _ => .nil
  | ⟨e, _⟩ :: fs, h => (Expr.Formed.covers e h.1).append (FieldsFormed.covers fs h.2.2)
theorem OrdersFormed.covers {p} : ∀ os : List OrderItem, OrdersFormed c os →
    c.Covers (ordersSelects os) (ordersReferences p os)
  | [], _ => .nil
  | ⟨e, _⟩ :: os, h => (Expr.Formed.covers e h.1).append (OrdersFormed.covers os h.2)
theorem Table.Formed.covers {joined} : ∀ t : Table, t.Formed c joined → c.Covers t.selects t.references
  | .named _ _, _ => .nil
  | .derived s _, h => Select.Formed.covers s h.1
theorem OptTableFormed.covers : ∀ t : Option Table, OptTableFormed c t →
    c.Covers (optTableSelects t) (optTableReferences t)
  | none, _ => .nil
  | some t, h => Table.Formed.covers t h
theorem JoinsFormed.covers {p} : ∀ js : List Join, JoinsFormed c js →
    c.Covers (joinsSelects js) (joinsReferences p js)
  | [], _ => .nil
  | ⟨_, t, cond, _⟩ :: js, h =>
    ((Table.Formed.covers t h.1).append (OptFormed.covers cond h.2.1)).append (JoinsFormed.covers js h.2.2.2)
theorem UnionsFormed.covers : ∀ us : List UnionPart, UnionsFormed c us →
    c.Covers (unionsSelects us) (unionsReferences us)
  | [], _ => .nil
  | ⟨_, s⟩ :: us, h => (Select.Formed.covers s h.1).append (UnionsFormed.covers us h.2.2)
theorem Select.Formed.covers {visible} : ∀ s : Select, s.Formed c → c.Covers s.selects (s.references visible)
  | ⟨_, fs, t, js, cond, gs, hv, os, l, o, us, f⟩, h => by
    obtain ⟨hfs, ht, hjs, hc, hgs, hhv, hos, hl, ho, hus, -⟩ := id h
    exact .select h ((((((((((FieldsFormed.covers fs hfs).append (OptTableFormed.covers t ht)).append
      (JoinsFormed.covers js hjs)).append (OptFormed.covers cond hc)).append (ExprsFormed.covers gs hgs)).append
      (OptFormed.covers hv hhv)).append (OrdersFormed.covers os hos)).append (OptFormed.covers l hl)).append
      (OptFormed.covers o ho)).append (UnionsFormed.covers us hus))
end

theorem Expr.TargetFormed.covers {p : Spot} {e : Expr} (h : e.TargetFormed c) :
    c.Covers e.selects (e.references p) := by
  obtain ⟨i, rfl, hi⟩ := h
  exact .name (.inr hi)

theorem InsertSource.Formed.covers {p : Spot} : ∀ {x : InsertSource}, x.Formed c → c.Covers x.selects (x.references p)
  | .values _, h => .ofExprs fun r hr => by
    obtain ⟨items, rfl, -, hitems⟩ := h.2 r hr
    exact ExprsFormed.covers items hitems
  | .select s, h => Select.Formed.covers s h

theorem covers_assigned {p : Spot} {as : List Assignment}
    (h : ∀ a ∈ as, a.target.TargetFormed c ∧ a.value.Formed c) :
    c.Covers (as.flatMap fun a => a.target.selects ++ a.value.selects) (assignmentsReferences p as) := by
  induction as with
  | nil => exact .nil
  | cons a as ih =>
    obtain ⟨⟨ht, hv⟩, has⟩ := List.forall_mem_cons.mp h
    exact (ht.covers.append (Expr.Formed.covers _ hv)).append (ih has)

/-- All selects and names of a well-formed query pass its checks. -/
theorem Query.Formed.covers {q : Query} (h : q.Formed c) : c.Covers q.selects q.references := by
  cases q with
  | select s => exact Select.Formed.covers s h
  | insert i =>
    exact (((Table.Formed.covers _ h.table).append (.ofExprs fun e he => (h.columns e he).covers)).append
      h.source.covers).append (FieldsFormed.covers _ h.returning)
  | update u =>
    exact (((((Table.Formed.covers _ h.table).append (covers_assigned h.assignments)).append
      (OptFormed.covers _ h.criteria)).append (OrdersFormed.covers _ h.ordering)).append
      (OptFormed.covers _ h.limit)).append (OptFormed.covers _ h.offset)
  | delete x =>
    exact ((((Table.Formed.covers _ h.table).append (OptFormed.covers _ h.criteria)).append
      (OrdersFormed.covers _ h.ordering)).append (OptFormed.covers _ h.limit)).append (OptFormed.covers _ h.offset)

end

/-! ## Lists that unfold -/

/-- Each element of the first list gives a part of the second, in the same order. -/
inductive Unfolds {α β : Type} (R : α → List β → Prop) : List α → List β → Prop
  | nil : Unfolds R [] []
  | cons {a as bs cs} : R a bs → Unfolds R as cs → Unfolds R (a :: as) (bs ++ cs)

namespace Unfolds

variable {α β γ : Type} {R : α → List β → Prop} {S : β → List γ → Prop}

theorem single {a : α} {bs : List β} (h : R a bs) : Unfolds R [a] bs := by
  have hcons := cons h nil
  rwa [List.append_nil] at hcons

theorem of_single {a : α} {bs : List β} (h : Unfolds R [a] bs) : R a bs := by
  cases h with
  | cons h hnil =>
    cases hnil
    rwa [List.append_nil]

theorem append {as as' : List α} {bs bs' : List β} (h : Unfolds R as bs) (h' : Unfolds R as' bs') :
    Unfolds R (as ++ as') (bs ++ bs') := by
  induction h with
  | nil => exact h'
  | cons ha _ ih =>
    rw [List.cons_append, List.append_assoc]
    exact .cons ha ih

theorem split {as as' : List α} {bs : List β} (h : Unfolds R (as ++ as') bs) :
    ∃ bs₁ bs₂, bs = bs₁ ++ bs₂ ∧ Unfolds R as bs₁ ∧ Unfolds R as' bs₂ := by
  induction as generalizing bs with
  | nil => exact ⟨[], bs, rfl, .nil, h⟩
  | cons a as ih =>
    cases h with
    | cons ha has =>
      obtain ⟨bs₁, bs₂, rfl, h₁, h₂⟩ := ih has
      exact ⟨_, bs₂, (List.append_assoc ..).symm, .cons ha h₁, h₂⟩

theorem comp {as : List α} {bs : List β} {cs : List γ} (h : Unfolds R as bs) (h' : Unfolds S bs cs) :
    Unfolds (fun a cs => ∃ bs, R a bs ∧ Unfolds S bs cs) as cs := by
  induction h generalizing cs with
  | nil =>
    cases h'
    exact .nil
  | cons ha _ ih =>
    obtain ⟨cs₁, cs₂, rfl, h₁, h₂⟩ := h'.split
    exact .cons ⟨_, ha, h₁⟩ (ih h₂)

theorem mono {T : α → List β → Prop} (hRT : ∀ a bs, R a bs → T a bs) {as : List α} {bs : List β}
    (h : Unfolds R as bs) : Unfolds T as bs := by
  induction h with
  | nil => exact .nil
  | cons ha _ ih => exact .cons (hRT _ _ ha) ih

theorem of_mem {P : α → Prop} {as : List α} {bs : List β} (h : Unfolds (fun a bs => P a → R a bs) as bs)
    (hP : ∀ a ∈ as, P a) : Unfolds R as bs := by
  induction h with
  | nil => exact .nil
  | cons ha _ ih =>
    obtain ⟨hhead, htail⟩ := List.forall_mem_cons.mp hP
    exact .cons (ha hhead) (ih htail)

/-- Each element of the second list comes from one of the first. -/
theorem exists_mem {as : List α} {bs : List β} (h : Unfolds R as bs) {b : β} (hb : b ∈ bs) :
    ∃ a ∈ as, ∃ cs, R a cs ∧ b ∈ cs := by
  induction h with
  | nil => cases hb
  | cons ha _ ih =>
    rcases List.mem_append.mp hb with hb | hb
    · exact ⟨_, List.mem_cons_self, _, ha, hb⟩
    · obtain ⟨a, hmem, hrest⟩ := ih hb
      exact ⟨a, List.mem_cons_of_mem _ hmem, hrest⟩

end Unfolds

/-! ## Edits, name by name -/

/-- Two spots with the same sources in sight. -/
structure Spot.Alike (p p' : Spot) : Prop where
  sources : p'.scopes.map (·.sources) = p.scopes.map (·.sources)
  labelled : p'.labelled = p.labelled

theorem Spot.Alike.trans {p p' p'' : Spot} (h : p.Alike p') (h' : p'.Alike p'') : p.Alike p'' :=
  ⟨h'.sources.trans h.sources, h'.labelled.trans h.labelled⟩

/-- An edit that leaves the sources of all queries alone, completes no joins, and replaces only names among
the fields. -/
structure Edit.Local (d : Edit) : Prop where
  facts : ∀ {ts f f'}, d.facts ts f f' → f'.sources = f.sources
  complete : ∀ {j new}, ¬ d.complete j new
  expand : ∀ {p f xs}, d.expand p f xs → ∃ i, f.expr = .ident i

/-- What an edit makes of a name that passes the checks. -/
inductive Reference.Turns (d : Edit) (c : Checks) : Reference → List Reference → Prop
  | edited {p p' i i'} : c.ident i → p.Alike p' → d.ident p i i' → Turns d c ⟨p, i⟩ [⟨p', i'⟩]
  | expanded {p p' i label xs} : c.ident i → p.Alike p' → d.expand p ⟨.ident i, label⟩ xs →
    Turns d c ⟨p, i⟩ (fieldsReferences p' xs)

theorem fieldsReferences_append (p : Spot) (fs gs : List ResultField) :
    fieldsReferences p (fs ++ gs) = fieldsReferences p fs ++ fieldsReferences p gs := by
  induction fs with
  | nil => rfl
  | cons f fs ih =>
    obtain ⟨e, label⟩ := f
    rw [List.cons_append, fieldsReferences, fieldsReferences, ih, List.append_assoc]

/-- What an edit makes of a name, if that passes the checks. -/
def Reference.TurnsChecked (d : Edit) (c : Checks) (a : Reference) (bs : List Reference) : Prop :=
  c.ident a.ident → a.Turns d c bs

section

variable {d : Edit} {c : Checks} (hd : d.Local)

include hd

set_option linter.unusedSectionVars false

/-- The spots in a select before and after the edit. -/
theorem alike_select {visible visible' : List View} (hv : visible'.map (·.sources) = visible.map (·.sources))
    {ts : List Table} {f f' : Facts} (hf : d.facts ts f f') (fs fs' : List ResultField) (labelled : Bool) :
    Spot.Alike ⟨.ofSelect fs f :: visible, labelled⟩ ⟨.ofSelect fs' f' :: visible', labelled⟩ := by
  refine ⟨?_, rfl⟩
  rw [List.map_cons, List.map_cons, hv]
  exact congrArg (· :: _) (hd.facts hf)

theorem alike_statement {ts : List Table} {f f' : Facts} (hf : d.facts ts f f') (labelled : Bool) :
    Spot.Alike ⟨[.ofFacts f], labelled⟩ ⟨[.ofFacts f'], labelled⟩ :=
  ⟨congrArg ([·]) (hd.facts hf), rfl⟩

mutual
theorem unfolds_expr {p p'} : ∀ (e : Expr) {e' : Expr}, p.Alike p' → e.Edited d p e' →
    Unfolds (Reference.TurnsChecked d c) (e.references p) (e'.references p')
  | .ident _, _, hp, .ident hi => .single fun hc => .edited hc hp hi
  | .literal _, _, _, .literal _ | .marker _, _, _, .marker _ | .named _, _, _, .named _
  | .named _, _, _, .replaced _ => .nil
  | .call _ _ args, _, hp, .call _ _ hargs => unfolds_exprs args hp hargs
  | .list items, _, hp, .list hitems => unfolds_exprs items hp hitems
  | .arith _ l r, _, hp, .arith _ hl hr | .compare _ l r, _, hp, .compare _ hl hr
  | .logic _ l r, _, hp, .logic _ hl hr => (unfolds_expr l hp hl).append (unfolds_expr r hp hr)
  | .unary _ e, _, hp, .unary _ he => (unfolds_expr e hp he :)
  | .case o bs e, _, hp, .case ho hbs he =>
    ((unfolds_opt o hp ho).append (unfolds_branches bs hp hbs)).append (unfolds_opt e hp he)
  | .subquery s, _, hp, .subquery hs => unfolds_select s hp.sources hs
termination_by structural e => e
theorem unfolds_exprs {p p'} : ∀ (es : List Expr) {es' : List Expr}, p.Alike p' → ExprsEdited d p es es' →
    Unfolds (Reference.TurnsChecked d c) (exprsReferences p es) (exprsReferences p' es')
  | [], _, _, .nil => .nil
  | e :: es, _, hp, .cons he hes => (unfolds_expr e hp he).append (unfolds_exprs es hp hes)
termination_by structural es => es
theorem unfolds_opt {p p'} : ∀ (o : Option Expr) {o' : Option Expr}, p.Alike p' → OptEdited d p o o' →
    Unfolds (Reference.TurnsChecked d c) (optReferences p o) (optReferences p' o')
  | none, _, _, .none => .nil
  | some e, _, hp, .some he => unfolds_expr e hp he
termination_by structural o => o
theorem unfolds_branches {p p'} : ∀ (bs : List Branch) {bs' : List Branch}, p.Alike p' →
    BranchesEdited d p bs bs' →
    Unfolds (Reference.TurnsChecked d c) (branchesReferences p bs) (branchesReferences p' bs')
  | [], _, _, .nil => .nil
  | ⟨cond, r⟩ :: bs, _, hp, .cons hc hr hbs =>
    ((unfolds_expr cond hp hc).append (unfolds_expr r hp hr)).append (unfolds_branches bs hp hbs)
termination_by structural bs => bs
theorem unfolds_fields {p p'} : ∀ (fs : List ResultField) {fs' : List ResultField}, p.Alike p' →
    FieldsEdited d p fs fs' →
    Unfolds (Reference.TurnsChecked d c) (fieldsReferences p fs) (fieldsReferences p' fs')
  | [], _, _, .nil => .nil
  | ⟨e, _⟩ :: fs, _, hp, .keep _ he hfs => (unfolds_expr e hp he).append (unfolds_fields fs hp hfs)
  | ⟨e, label⟩ :: fs, _, hp, .expand hx hfs => by
    obtain ⟨i, hi⟩ := hd.expand hx
    dsimp only at hi
    subst hi
    rw [fieldsReferences_append]
    exact .cons (fun hc => .expanded hc hp hx) (unfolds_fields fs hp hfs)
termination_by structural fs => fs
theorem unfolds_orders {p p'} : ∀ (os : List OrderItem) {os' : List OrderItem}, p.Alike p' →
    OrdersEdited d p os os' →
    Unfolds (Reference.TurnsChecked d c) (ordersReferences p os) (ordersReferences p' os')
  | [], _, _, .nil => .nil
  | ⟨e, _⟩ :: os, _, hp, .cons _ he hos => (unfolds_expr e hp he).append (unfolds_orders os hp hos)
termination_by structural os => os
theorem unfolds_table {joined} : ∀ (t : Table) {t' : Table}, t.Edited d joined t' →
    Unfolds (Reference.TurnsChecked d c) t.references t'.references
  | .named _ _, _, .named _ => .nil
  | .derived s _, _, .derived _ _ hs => unfolds_select s rfl hs
termination_by structural t => t
theorem unfolds_optTable : ∀ (t : Option Table) {t' : Option Table}, OptTableEdited d t t' →
    Unfolds (Reference.TurnsChecked d c) (optTableReferences t) (optTableReferences t')
  | none, _, .none => .nil
  | some t, _, .some ht => unfolds_table t ht
termination_by structural t => t
theorem unfolds_joins {p p'} : ∀ (js : List Join) {js' : List Join}, p.Alike p' → JoinsEdited d p js js' →
    Unfolds (Reference.TurnsChecked d c) (joinsReferences p js) (joinsReferences p' js')
  | [], _, _, .nil => .nil
  | ⟨_, t, cond, _⟩ :: js, _, hp, .keep _ ht hc hjs =>
    ((unfolds_table t ht).append (unfolds_opt cond hp hc)).append (unfolds_joins js hp hjs)
  | ⟨_, _, _, _⟩ :: _, _, _, .complete _ hnew _ => (hd.complete hnew).elim
termination_by structural js => js
theorem unfolds_unions : ∀ (us : List UnionPart) {us' : List UnionPart}, UnionsEdited d us us' →
    Unfolds (Reference.TurnsChecked d c) (unionsReferences us) (unionsReferences us')
  | [], _, .nil => .nil
  | ⟨_, s⟩ :: us, _, .cons _ _ hs hus => (unfolds_select s rfl hs).append (unfolds_unions us hus)
termination_by structural us => us
theorem unfolds_select {visible visible'} : ∀ (s : Select) {s' : Select},
    visible'.map (·.sources) = visible.map (·.sources) → s.Edited d visible s' →
    Unfolds (Reference.TurnsChecked d c) (s.references visible) (s'.references visible')
  | ⟨_, fs, t, js, cond, gs, hv, os, l, o, us, f⟩, _, hvis, .mk hfs ht hjs hc hgs hhv hos hl ho hus hf => by
    have hp := alike_select hd hvis hf fs
    exact (((((((((unfolds_fields fs (hp _ _) hfs).append (unfolds_optTable t ht)).append
      (unfolds_joins js (hp _ _) hjs)).append (unfolds_opt cond (hp _ _) hc)).append
      (unfolds_exprs gs (hp _ _) hgs)).append (unfolds_opt hv (hp _ _) hhv)).append
      (unfolds_orders os (hp _ _) hos)).append (unfolds_opt l (hp _ _) hl)).append
      (unfolds_opt o (hp _ _) ho)).append (unfolds_unions us hus)
termination_by structural s => s
end

theorem unfolds_insertSource {p p' : Spot} (hp : p.Alike p') {s s' : InsertSource} (h : s.Edited d p s') :
    Unfolds (Reference.TurnsChecked d c) (s.references p) (s'.references p') := by
  cases h with
  | values hrows => exact unfolds_exprs hd _ hp hrows
  | select _ hs => exact unfolds_select hd _ rfl hs

theorem unfolds_assignments : ∀ (as : List Assignment) {p p' : Spot} {as' : List Assignment}, p.Alike p' →
    AssignmentsEdited d p as as' →
    Unfolds (Reference.TurnsChecked d c) (assignmentsReferences p as) (assignmentsReferences p' as')
  | [], _, _, _, _, .nil => .nil
  | ⟨t, v⟩ :: as, _, _, _, hp, .cons ht hv has =>
    ((unfolds_expr hd t hp ht).append (unfolds_expr hd v hp hv)).append (unfolds_assignments as hp has)

theorem unfolds_query {q q' : Query} (h : q.Edited d q') :
    Unfolds (Reference.TurnsChecked d c) q.references q'.references := by
  cases h with
  | select hs => exact unfolds_select hd _ rfl hs
  | insert htable hcolumns hsource hreturning hfacts =>
    have hp := alike_statement hd hfacts
    exact (((unfolds_table hd _ htable).append (unfolds_exprs hd _ (hp _) hcolumns)).append
      (unfolds_insertSource hd (hp _) hsource)).append (unfolds_fields hd _ (hp _) hreturning)
  | update htable hassignments hc hos hl ho hfacts =>
    have hp := alike_statement hd hfacts
    exact (((((unfolds_table hd _ htable).append (unfolds_assignments hd _ (hp _) hassignments)).append
      (unfolds_opt hd _ (hp _) hc)).append (unfolds_orders hd _ (hp _) hos)).append
      (unfolds_opt hd _ (hp _) hl)).append (unfolds_opt hd _ (hp _) ho)
  | delete htable hc hos hl ho hfacts =>
    have hp := alike_statement hd hfacts
    exact ((((unfolds_table hd _ htable).append (unfolds_opt hd _ (hp _) hc)).append
      (unfolds_orders hd _ (hp _) hos)).append (unfolds_opt hd _ (hp _) hl)).append (unfolds_opt hd _ (hp _) ho)

/-- A local edit takes each name of a well-formed query to what it makes of it. -/
theorem Query.Edited.unfolds (ht : ∀ i, c.target i → c.ident i) {q q' : Query} (hf : q.Formed c)
    (h : q.Edited d q') : Unfolds (Reference.Turns d c) q.references q'.references :=
  (unfolds_query hd h).of_mem fun a ha => (hf.covers.idents a ha).elim id (ht a.ident)

end

/-! ## What a name can mean -/

/-- The sources in sight, the innermost first. -/
def Spot.sources (p : Spot) : List Source := p.scopes.flatMap fun v => v.sources.toList

/-- The result aliases that may be named. -/
def Spot.labels (p : Spot) : List String :=
  match p.scopes with
  | v :: _ => if p.labelled then v.labels else []
  | [] => []

/-- A qualifier means the first source that answers to it, in the innermost query that has one. -/
inductive Binds (qualifier : String) : List View → Source → Prop
  | here {v vs s before after} : v.sources.toList = before ++ s :: after →
    (∀ x ∈ before, x.answersTo qualifier = false) → s.answersTo qualifier = true → Binds qualifier (v :: vs) s
  | outer {v vs s} : (∀ x ∈ v.sources.toList, x.answersTo qualifier = false) → Binds qualifier vs s →
    Binds qualifier (v :: vs) s

theorem Binds.mem {q : String} {vs : List View} {s : Source} (h : Binds q vs s) (labelled : Bool) :
    s ∈ Spot.sources ⟨vs, labelled⟩ := by
  induction h with
  | here hlist _ _ => simp [Spot.sources, hlist]
  | outer _ _ ih => exact List.mem_append_right _ ih

/-- What a name stands for where it is written. -/
inductive Denotes (p : Spot) (w : Identifier) : Identifier → Prop
  /-- A field of a source, written with a qualifier that means the source. -/
  | qualified {q s path f} : Binds q p.scopes s → s.Declares path f → w.value = q ++ "." ++ path →
    Denotes p w ⟨s.qualifier ++ "." ++ f.column, some ⟨f.ty, f.nullable, s.entity.map (·.name), some path⟩⟩
  /-- A field of a source, written without one. -/
  | bare {s path f} : s ∈ p.sources → s.Declares path f → w.value = path →
    Denotes p w ⟨f.column, some ⟨f.ty, f.nullable, s.entity.map (·.name), some path⟩⟩
  | wildcard : w.isWildcard = true → Denotes p w w
  | label : w.qualifier? = none → w.value ∈ p.labels → Denotes p w w
  /-- A column of a raw table that the qualifier means. -/
  | raw {q s} {rest : List String} : Text.segments w.value = q :: rest → rest ≠ [] → Binds q p.scopes s →
    s.isRaw = true → Denotes p w w
  /-- A column that no source declares, while there are raw tables. -/
  | unknown {first : String} {rest : List String} {s : Source} : Text.segments w.value = first :: rest →
    (rest = [] ∨ ∀ x, ¬ Binds first p.scopes x) → (∀ x ∈ p.sources, x.property? first = none) →
    s ∈ p.sources → s.isRaw = true → Denotes p w w

/-- A wildcard is expanded to fields of sources of its own query. They are qualified if the wildcard is, or
if there are several sources. -/
def Expands (p : Spot) (w : Identifier) (bs : List Reference) : Prop :=
  w.isWildcard = true ∧ ∃ v around, p.scopes = v :: around ∧ ∀ b ∈ bs, p.Alike b.spot
    ∧ ∃ s ∈ v.sources.toList, (∀ q, w.qualifier? = some q → s.answersTo q = true) ∧ ∃ path f, s.Declares path f
      ∧ b.ident = ⟨if w.qualifier?.isSome || decide (1 < v.sources.size) then s.qualifier ++ "." ++ f.column
          else f.column, some ⟨f.ty, f.nullable, s.entity.map (·.name), some path⟩⟩

/-- What becomes of a name: what it denotes, or the fields of what that stands for if it is a wildcard. -/
inductive Reference.Becomes (a : Reference) : List Reference → Prop
  | single {p' i} : a.spot.Alike p' → Denotes a.spot a.ident i → Becomes a [⟨p', i⟩]
  | several {i bs} : Denotes a.spot a.ident i → Expands a.spot i bs → Becomes a bs

/-! ## Names mean what the passes make of them -/

section

variable {scopes : List Facts} {views : List View} (h : List.Forall₂ Columns.Offers scopes views)

include h

theorem binds_of_scopedSource? {q : String} {s : Source} (hs : scopedSource? scopes q = some s) :
    Binds q views s := by
  induction h with
  | nil => cases hs
  | cons hf _ ih =>
    rename_i f v fs vs _
    rw [scopedSource?, List.findSome?_cons] at hs
    cases hq : f.sources.byQualifier? q with
    | some s' =>
      rw [hq] at hs
      cases hs
      rw [Sources.byQualifier?, hf.sources, List.find?_eq_some_iff_append] at hq
      obtain ⟨hanswers, before, after, hlist, hbefore⟩ := hq
      exact .here hlist (fun x hx => by simpa using hbefore x hx) hanswers
    | none =>
      rw [hq] at hs
      rw [Sources.byQualifier?, hf.sources, List.find?_eq_none] at hq
      exact .outer (fun x hx => by simpa using hq x hx) (ih hs)

theorem not_binds_of_scopedSource? {q : String} (hs : scopedSource? scopes q = none) (s : Source) :
    ¬ Binds q views s := by
  intro hbinds
  induction h with
  | nil => cases hbinds
  | cons hf _ ih =>
    obtain ⟨hnone, hrest⟩ := List.findSome?_eq_none_iff.mp hs |> List.forall_mem_cons.mp
    rw [Sources.byQualifier?, hf.sources, List.find?_eq_none] at hnone
    cases hbinds with
    | here hlist _ hanswers => exact hnone s (by rw [hlist]; simp) hanswers
    | outer _ hbinds => exact ih (List.findSome?_eq_none_iff.mpr hrest) hbinds

theorem sources_eq (labelled : Bool) : Lookup.sources scopes = Spot.sources ⟨views, labelled⟩ := by
  unfold Lookup.sources Spot.sources
  induction h with
  | nil => rfl
  | cons hf _ ih => rw [List.flatMap_cons, List.flatMap_cons, hf.sources, ih]

theorem mem_labels_of_isLabel {labelled : Bool} {w : Identifier}
    (hw : Columns.isLabel ⟨scopes, labelled⟩ w = true) :
    w.qualifier? = none ∧ w.value ∈ Spot.labels ⟨views, labelled⟩ := by
  unfold Columns.isLabel at hw
  simp only [Bool.and_eq_true, Option.isNone_iff_eq_none] at hw
  obtain ⟨⟨hbare, rfl⟩, hlabel⟩ := hw
  refine ⟨hbare, ?_⟩
  cases h with
  | nil => cases hlabel
  | cons hf _ =>
    show w.value ∈ View.labels _
    rw [← hf.labels]
    simpa [Facts.isLabel] using hlabel

/-- A fresh name is resolved to what it denotes. -/
theorem denotes_of_resolve {labelled : Bool} {w i : Identifier} (hw : w.resolution = none)
    (hi : Columns.resolve ⟨scopes, labelled⟩ w = .ok i) : Denotes ⟨views, labelled⟩ w i := by
  unfold Columns.resolve at hi
  split at hi
  · next hstays =>
    cases hi
    simp only [Identifier.isResolved, hw, Option.isSome_none, Bool.false_or, Bool.or_eq_true] at hstays
    rcases hstays with hstays | hstays
    · exact .wildcard hstays
    · obtain ⟨hbare, hlabel⟩ := mem_labels_of_isLabel h hstays
      exact .label hbare hlabel
  · simp only [bind_eq_ok] at hi
    obtain ⟨found, hfound, hi⟩ := hi
    cases found with
    | some m =>
      cases hi
      obtain ⟨hdecl, ⟨hq, q, hvalue, hs⟩ | ⟨hq, hvalue, hs⟩⟩ := Lookup.find_eq_some hfound
      · have hcolumn : m.column = m.source.qualifier ++ "." ++ m.property.column := by
          rw [FieldMatch.column, if_pos hq]
        rw [hcolumn]
        exact .qualified (binds_of_scopedSource? h hs) hdecl hvalue
      · have hcolumn : m.column = m.property.column := by
          rw [FieldMatch.column, hq, if_neg Bool.false_ne_true]
        rw [hcolumn]
        exact .bare (sources_eq h labelled ▸ hs) hdecl hvalue
    | none =>
      cases hi
      obtain ⟨first, rest, hseg, ⟨hne, s, hs, hraw⟩ | ⟨hunbound, hundeclared, s, hs, hraw⟩⟩ :=
        Lookup.find_eq_none hfound
      · exact .raw hseg hne (binds_of_scopedSource? h hs) hraw
      · rw [sources_eq h labelled] at hundeclared hs
        exact .unknown hseg (hunbound.imp_right (not_binds_of_scopedSource? h)) hundeclared hs hraw

end

/-! ## Expansions -/

theorem mem_fieldsReferences {p : Spot} {fs : List ResultField} {b : Reference}
    (hb : b ∈ fieldsReferences p fs) : ∃ f ∈ fs, b ∈ f.expr.references p := by
  induction fs with
  | nil => cases hb
  | cons f fs ih =>
    obtain ⟨e, label⟩ := f
    rcases List.mem_append.mp hb with hb | hb
    · exact ⟨_, List.mem_cons_self, hb⟩
    · obtain ⟨f, hf, hb⟩ := ih hb
      exact ⟨f, List.mem_cons_of_mem _ hf, hb⟩

/-- The fields that take the place of a wildcard are those of the sources it means. -/
theorem expands_of_expansion {p p' : Spot} (hp : p.Alike p') {w : Identifier} {label : Option String}
    {xs : List ResultField} (h : Results.edit.expand p ⟨.ident w, label⟩ xs) :
    Expands p w (fieldsReferences p' xs) := by
  obtain ⟨v, around, hscopes, hx⟩ := h
  obtain ⟨i, ss, qualify, hi, hwild, hmeant, -, rfl⟩ := Results.expansion_eq_some hx
  cases hi
  refine ⟨hwild, v, around, hscopes, fun b hb => ?_⟩
  obtain ⟨x, hx, hb⟩ := mem_fieldsReferences hb
  obtain ⟨s, hs, hx⟩ := List.mem_flatMap.mp hx
  obtain ⟨path, f, hdecl, rfl⟩ := Results.mem_ofSource hx
  cases List.mem_singleton.mp hb
  refine ⟨hp, s, Results.mem_of_meant hmeant s hs, ?_, path, f, hdecl, ?_⟩
  · intro q hq
    obtain ⟨q', s', hq', hs', rfl, -⟩ | ⟨hnone, -, -⟩ := Results.meant_eq_ok hmeant
    · cases hq.symm.trans hq'
      cases List.mem_singleton.mp hs
      exact List.find?_some (p := fun s : Source => s.answersTo q) hs'
    · rw [hnone] at hq
      cases hq
  · have hqualify : qualify = (w.qualifier?.isSome || decide (1 < v.sources.size)) := by
      obtain ⟨q', s', hq', -, -, rfl⟩ | ⟨hnone, -, rfl⟩ := Results.meant_eq_ok hmeant
      · rw [hq', Option.isSome_some, Bool.true_or]
      · rw [hnone, Option.isSome_none, Bool.false_or]
    rw [← hqualify]

theorem Expands.of_alike {p p' : Spot} (hp : p.Alike p') {w : Identifier} {bs : List Reference}
    (h : Expands p' w bs) : Expands p w bs := by
  obtain ⟨hwild, v, around, hscopes, hall⟩ := h
  have hsources := hp.sources
  rw [hscopes, List.map_cons] at hsources
  obtain ⟨v', around', hscopes', hv, -⟩ := List.map_eq_cons_iff.mp hsources.symm
  refine ⟨hwild, v', around', hscopes', fun b hb => ?_⟩
  obtain ⟨hspot, hfield⟩ := hall b hb
  exact ⟨hp.trans hspot, hv ▸ hfield⟩

/-- References that are the same up to aliases in sight. -/
def Reference.Same (a b : Reference) : Prop := a.spot.Alike b.spot ∧ b.ident = a.ident

theorem Expands.same {p : Spot} {w : Identifier} {bs cs : List Reference} (h : Expands p w bs)
    (hsame : ∀ c ∈ cs, ∃ b ∈ bs, b.Same c) : Expands p w cs := by
  obtain ⟨hwild, v, around, hscopes, hall⟩ := h
  refine ⟨hwild, v, around, hscopes, fun c hc => ?_⟩
  obtain ⟨b, hb, hspot, hident⟩ := hsame c hc
  obtain ⟨hp, s, hs, hanswers, path, f, hdecl, hb⟩ := hall b hb
  exact ⟨hp.trans hspot, s, hs, hanswers, path, f, hdecl, hident.trans hb⟩

/-! ## The three passes -/

theorem Columns.edit_local : Columns.edit.Local where
  facts h := h
  complete h := h
  expand h := h.elim

theorem Results.edit_local : Results.edit.Local where
  facts h := h
  complete h := h
  expand := by
    rintro p f xs ⟨v, around, -, hx⟩
    obtain ⟨i, -, -, hi, -⟩ := expansion_eq_some hx
    exact ⟨i, hi⟩

theorem Parameters.edit_local : Parameters.edit.Local where
  facts h := h
  complete h := h
  expand h := h.elim

/-- The numbering of parameters leaves names alone. -/
theorem same_of_parameters {c : Checks} {a : Reference} {bs : List Reference}
    (h : a.Turns Parameters.edit c bs) : ∃ b, bs = [b] ∧ a.Same b := by
  cases h with
  | edited _ hp hi => exact ⟨_, rfl, hp, hi⟩
  | expanded _ _ hx => exact hx.elim

theorem Unfolds.same_of_mem {R : Reference → List Reference → Prop}
    (hR : ∀ a bs, R a bs → ∃ b, bs = [b] ∧ a.Same b) {as bs : List Reference} (h : Unfolds R as bs) :
    ∀ b ∈ bs, ∃ a ∈ as, a.Same b := by
  induction h with
  | nil => exact List.forall_mem_nil _
  | cons ha _ ih =>
    obtain ⟨b, rfl, hb⟩ := hR _ _ ha
    intro x hx
    rcases List.mem_append.mp hx with hx | hx
    · cases List.mem_singleton.mp hx
      exact ⟨_, List.mem_cons_self, hb⟩
    · obtain ⟨a, ha, hsame⟩ := ih x hx
      exact ⟨a, List.mem_cons_of_mem _ ha, hsame⟩

/-- What is asked of names that are not yet resolved. -/
def Checks.fresh : Checks where
  ident i := i.resolution = none
  target i := i.resolution = none

theorem Vocabulary.meets_fresh : Vocabulary.all.Meets (fun _ => True) .fresh where
  ident _ := rfl
  target _ := rfl

theorem Query.stages_fresh (n : Naming) : Query.Stages n (fun _ => true) .fresh .fresh .fresh {} {} {} where
  sources := { table := fun _ _ _ => ⟨trivial, fun _ _ => trivial⟩ }
  derived := {}
  joins := {
    complete := fun h ht _ => h.formed ht trivial trivial fun _ _ _ _ _ =>
      ⟨fun _ ⟨_, _, _, _⟩ => ⟨trivial, rfl, fun _ => rfl, nofun⟩, fun _ _ _ _ => ⟨trivial, trivial⟩⟩ }
  filters _ _ _ h _ := h.formed Vocabulary.meets_fresh (fun _ h _ => h)
    fun _ _ _ hx => ⟨Expr.shaped_of_ofDetached hx, fun _ _ => trivial⟩
  columns := { ident := fun _ _ _ => trivial, target := fun _ _ _ => trivial }
  results := { expand := fun _ ⟨_, _, _, hx⟩ => Results.formed_expansion (fun _ _ _ _ _ _ => trivial) hx }
  parameters := { mark := fun _ _ => trivial }

/-- What the three passes make of a fresh name. -/
theorem becomes_of_turns {a : Reference} {ds : List Reference}
    (h : ∃ bs, a.Turns Columns.edit .fresh bs ∧ Unfolds (fun b ds => ∃ cs, b.Turns Results.edit {} cs
      ∧ Unfolds (Reference.Turns Parameters.edit {}) cs ds) bs ds) : a.Becomes ds := by
  obtain ⟨bs, hcolumns, hrest⟩ := h
  cases hcolumns with
  | expanded _ _ hx => exact hx.elim
  | edited hfresh hp hi =>
    obtain ⟨scopes, hscopes, hi⟩ := hi
    have hdenotes := denotes_of_resolve hscopes hfresh hi
    obtain ⟨cs, hresults, hparameters⟩ := hrest.of_single
    cases hresults with
    | edited _ hp' hsame =>
      obtain ⟨⟨p'', i''⟩, rfl, hp'', hi''⟩ := same_of_parameters hparameters.of_single
      cases hi''.trans hsame
      exact .single ((hp.trans hp').trans hp'') hdenotes
    | expanded _ hp' hx =>
      have hexpands := (expands_of_expansion hp' hx).of_alike hp
      exact .several hdenotes (hexpands.same (hparameters.same_of_mem fun _ _ => same_of_parameters))

/-- The last three passes take each name of a query whose joins are completed to what becomes of it. -/
theorem Query.becomes_of_joined {n : Naming} {q j k l r : Query} (hq : q.Shaped .all) (hj : q.Joined n j)
    (hk : Columns.sweep.query j = .ok k) (hl : Results.query k = .ok l) (hr : Parameters.query l = .ok r) :
    Unfolds Reference.Becomes j.references r.references := by
  have hread : q.Formed .fresh := hq.formed Vocabulary.meets_fresh (fun _ _ => trivial) fun _ _ => trivial
  have hstages := Query.stages_fresh n
  have hlabels : j.facts.labels = [] := by
    rw [Joined.labels (A := fun _ => true) (fun _ _ => rfl) (strangers_none q) hj, hq.facts_eq]
  have hcolumns := Columns.edited hlabels hk
  have hresults := Results.edited hl
  have hjoined := hstages.joined_formed (fun _ _ => rfl) (strangers_none q) hread hj
  have hnamed := hstages.columns.query hcolumns hjoined
  have hexpanded := hstages.results.query hresults hnamed
  have hfirst := hcolumns.unfolds Columns.edit_local (fun _ h => h) hjoined
  have hsecond := hresults.unfolds Results.edit_local (fun _ h => h) hnamed
  have hthird := (Parameters.edited hr).unfolds Parameters.edit_local (fun _ h => h) hexpanded
  exact (hfirst.comp (hsecond.comp hthird)).mono fun _ _ => becomes_of_turns

/-- **Each name of a resolved query is one that it can mean.** The names of the query whose joins have been
completed become, one after the other, the names of the resolved query: a field of a visible source, with
the qualifier of the source exactly where one was written or a wildcard had one; a wildcard, a result alias,
or a name that may belong to a raw table, as written. -/
theorem Query.resolve_becomes {n : Naming} {text : String} {q r : Query} (hq : Query.ofText text = .ok q)
    (hr : q.resolve n = .ok r) :
    ∃ j, q.Joined n j ∧ Unfolds Reference.Becomes j.references r.references := by
  obtain ⟨j, hj, k, hk, l, hl, hr⟩ := resolve_joined hr
  exact ⟨j, hj, becomes_of_joined (Query.shaped_of_ofText hq) hj hk hl hr⟩

/-- Bosses that a log names, with all that is known of those below them. -/
def chiefsText : String :=
  "SELECT p.*, b.id AS chief FROM Person p JOIN p.boss b WHERE b.id IN (SELECT d.owner FROM "
    ++ "(SELECT owner FROM audit_log WHERE note = 1) d WHERE d.owner = p.id) ORDER BY chief"

theorem Query.resolve_becomes_chiefs : ∃ q r, Query.ofText chiefsText = .ok q
    ∧ q.resolve ⟨staff, false⟩ = .ok r
    ∧ ∃ j, q.Joined ⟨staff, false⟩ j ∧ Unfolds Reference.Becomes j.references r.references := by
  have hsome : (resolved? ⟨staff, false⟩ chiefsText).isSome = true := by
    unfold resolved? chiefsText
    rw [← String.ofList_append, ofText_ofList]
    decide +kernel
  obtain ⟨r, hresolved⟩ := Option.isSome_iff_exists.mp hsome
  obtain ⟨q, hq, hr⟩ := resolved?_eq_some hresolved
  exact ⟨q, r, hq, hr, resolve_becomes hq hr⟩

end EntitySql
