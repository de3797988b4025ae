import Mathlib
import EntitySql.Query.Tree

/-!
# The selects of a query

All selects of a query in the order of the text, each before those inside it (`Query.selects`), the
expressions in the same order (`Query.nodes`), and the selects with the facts of the queries around each
(`Query.enclosed`). A pass edits the selects of a query one by one, and puts some in between
(`Interleaved`).

* `Query.map_enclosed`: the selects of a query are those enclosed in it.
-/

namespace EntitySql

/-! ## All selects -/

mutual
/-- The selects of an expression, each before those inside it. -/
def Expr.selects : Expr → List Select
  | .ident _ | .literal _ | .marker _ | .named _ => []
  | .call _ _ args => exprsSelects args
  | .list items => exprsSelects items
  | .arith _ l r | .logic _ l r | .compare _ l r => l.selects ++ r.selects
  | .unary _ e => e.selects
  | .case operand bs otherwise => optSelects operand ++ branchesSelects bs ++ optSelects otherwise
  | .subquery s => s.selects
def exprsSelects : List Expr → List Select
  | [] => []
  | e :: es => e.selects ++ exprsSelects es
def optSelects : Option Expr → List Select
  | none => []
  | some e => e.selects
def branchesSelects : List Branch → List Select
  | [] => []
  | ⟨c, r⟩ :: bs => c.selects ++ r.selects ++ branchesSelects bs
def fieldsSelects : List ResultField → List Select
  | [] => []
  | ⟨e, _⟩ :: fs => e.selects ++ fieldsSelects fs
def ordersSelects : List OrderItem → List Select
  | [] => []
  | ⟨e, _⟩ :: os => e.selects ++ ordersSelects os
def Table.selects : Table → List Select
  | .named _ _ => []
  | .derived s _ => s.selects
def optTableSelects : Option Table → List Select
  | none => []
  | some t => t.selects
def joinsSelects : List Join → List Select
  | [] => []
  | ⟨_, t, condition, _⟩ :: js => t.selects ++ optSelects condition ++ joinsSelects js
def unionsSelects : List UnionPart → List Select
  | [] => []
  | ⟨_, s⟩ :: us => s.selects ++ unionsSelects us
def Select.selects : Select → List Select
  | ⟨distinct, fields, source, joins, criteria, grouping, having, ordering, limit, offset, unions, facts⟩ =>
    ⟨distinct, fields, source, joins, criteria, grouping, having, ordering, limit, offset, unions, facts⟩
      :: fieldsSelects fields ++ optTableSelects source ++ joinsSelects joins ++ optSelects criteria
      ++ exprsSelects grouping ++ optSelects having ++ ordersSelects ordering ++ optSelects limit
      ++ optSelects offset ++ unionsSelects unions
end

def InsertSource.selects : InsertSource → List Select
  | .values rows => exprsSelects rows
  | .select s => s.selects

/-- All selects of a query, also those inside others. -/
def Query.selects : Query → List Select
  | .select s => s.selects
  | .insert i => i.table.selects ++ exprsSelects i.columns ++ i.source.selects ++ fieldsSelects i.returning
  | .update u => u.table.selects ++ u.assignments.flatMap (fun a => a.target.selects ++ a.value.selects)
      ++ optSelects u.criteria ++ ordersSelects u.ordering ++ optSelects u.limit ++ optSelects u.offset
  | .delete d => d.table.selects ++ optSelects d.criteria ++ ordersSelects d.ordering ++ optSelects d.limit
      ++ optSelects d.offset

/-! ## All expressions -/

mutual
/-- The expressions in an expression, itself and those of subqueries included. -/
def Expr.nodes : Expr → List Expr
  | .ident i => [.ident i]
  | .literal l => [.literal l]
  | .marker m => [.marker m]
  | .named m => [.named m]
  | .call name distinct args => .call name distinct args :: exprsNodes args
  | .list items => .list items :: exprsNodes items
  | .arith op l r => .arith op l r :: (l.nodes ++ r.nodes)
  | .compare op l r => .compare op l r :: (l.nodes ++ r.nodes)
  | .logic op l r => .logic op l r :: (l.nodes ++ r.nodes)
  | .unary op e => .unary op e :: e.nodes
  | .case operand bs otherwise =>
    .case operand bs otherwise :: (optNodes operand ++ branchesNodes bs ++ optNodes otherwise)
  | .subquery s => .subquery s :: s.nodes
def exprsNodes : List Expr → List Expr
  | [] => []
  | e :: es => e.nodes ++ exprsNodes es
def optNodes : Option Expr → List Expr
  | none => []
  | some e => e.nodes
def branchesNodes : List Branch → List Expr
  | [] => []
  | ⟨c, r⟩ :: bs => c.nodes ++ r.nodes ++ branchesNodes bs
def fieldsNodes : List ResultField → List Expr
  | [] => []
  | ⟨e, _⟩ :: fs => e.nodes ++ fieldsNodes fs
def ordersNodes : List OrderItem → List Expr
  | [] => []
  | ⟨e, _⟩ :: os => e.nodes ++ ordersNodes os
def Table.nodes : Table → List Expr
  | .named _ _ => []
  | .derived s _ => s.nodes
def optTableNodes : Option Table → List Expr
  | none => []
  | some t => t.nodes
def joinsNodes : List Join → List Expr
  | [] => []
  | ⟨_, t, condition, _⟩ :: js => t.nodes ++ optNodes condition ++ joinsNodes js
def unionsNodes : List UnionPart → List Expr
  | [] => []
  | ⟨_, s⟩ :: us => s.nodes ++ unionsNodes us
def Select.nodes : Select → List Expr
  | ⟨_, fields, source, joins, criteria, grouping, having, ordering, limit, offset, unions, _⟩ =>
    fieldsNodes fields ++ optTableNodes source ++ joinsNodes joins ++ optNodes criteria
      ++ exprsNodes grouping ++ optNodes having ++ ordersNodes ordering ++ optNodes limit
      ++ optNodes offset ++ unionsNodes unions
end

def InsertSource.nodes : InsertSource → List Expr
  | .values rows => exprsNodes rows
  | .select s => s.nodes

/-- The expressions in a query, those inside others included. -/
def Query.nodes : Query → List Expr
  | .select s => s.nodes
  | .insert i => i.table.nodes ++ exprsNodes i.columns ++ i.source.nodes ++ fieldsNodes i.returning
  | .update u => u.table.nodes ++ u.assignments.flatMap (fun a => a.target.nodes ++ a.value.nodes)
      ++ optNodes u.criteria ++ ordersNodes u.ordering ++ optNodes u.limit ++ optNodes u.offset
  | .delete d => d.table.nodes ++ optNodes d.criteria ++ ordersNodes d.ordering ++ optNodes d.limit
      ++ optNodes d.offset

theorem fieldsSelects_append (fs gs : List ResultField) :
    fieldsSelects (fs ++ gs) = fieldsSelects fs ++ fieldsSelects gs := by
  induction fs with
  | nil => rfl
  | cons f fs ih =>
    obtain ⟨e, label⟩ := f
    rw [List.cons_append, fieldsSelects, fieldsSelects, ih, List.append_assoc]

theorem fieldsSelects_eq_nil {fs : List ResultField} (h : ∀ f ∈ fs, f.expr.selects = []) :
    fieldsSelects fs = [] := by
  induction fs with
  | nil => rfl
  | cons f fs ih =>
    obtain ⟨hf, hfs⟩ := List.forall_mem_cons.mp h
    obtain ⟨e, label⟩ := f
    rw [fieldsSelects, hf, ih hfs]
    rfl

theorem joinsSelects_append (js ks : List Join) :
    joinsSelects (js ++ ks) = joinsSelects js ++ joinsSelects ks := by
  induction js with
  | nil => rfl
  | cons j js ih =>
    obtain ⟨kind, t, c, path⟩ := j
    rw [List.cons_append, joinsSelects, joinsSelects, ih, ← List.append_assoc]

theorem joinsSelects_eq_nil : ∀ {js : List Join},
    (∀ j ∈ js, j.table.selects = [] ∧ optSelects j.condition = []) → joinsSelects js = []
  | [], _ => rfl
  | ⟨kind, t, c, path⟩ :: js, h => by
    obtain ⟨⟨ht, hc⟩, hjs⟩ := List.forall_mem_cons.mp h
    rw [joinsSelects, ht, hc, joinsSelects_eq_nil hjs]
    rfl

/-! ## Properties of all elements -/

/-- All elements satisfy `P`, as the parts of a tree that they are gathered from. -/
def Everywhere {α : Type} (P : α → Prop) (as : List α) : Prop := ∀ a ∈ as, P a

namespace Everywhere

variable {α : Type} {P : α → Prop} {as bs : List α}

theorem nil : Everywhere P [] := List.forall_mem_nil _

theorem append (h : Everywhere P as) (h' : Everywhere P bs) : Everywhere P (as ++ bs) :=
  List.forall_mem_append.mpr ⟨h, h'⟩

theorem left (h : Everywhere P (as ++ bs)) : Everywhere P as := (List.forall_mem_append.mp h).1

theorem right (h : Everywhere P (as ++ bs)) : Everywhere P bs := (List.forall_mem_append.mp h).2

end Everywhere

/-! ## Insertions between related elements -/

/-- The elements of the first list are related by `R` to those of the second, in order, but for elements
of `I` that are put in between. -/
inductive Interleaved {α β : Type} (R : α → β → Prop) (I : β → Prop) : List α → List β → Prop
  | nil : Interleaved R I [] []
  | keep {a b as bs} : R a b → Interleaved R I as bs → Interleaved R I (a :: as) (b :: bs)
  | insert {b as bs} : I b → Interleaved R I as bs → Interleaved R I as (b :: bs)

namespace Interleaved

variable {α β γ : Type} {R : α → β → Prop} {I : β → Prop} {as as' : List α} {bs bs' : List β}

theorem append (h : Interleaved R I as bs) (h' : Interleaved R I as' bs') :
    Interleaved R I (as ++ as') (bs ++ bs') := by
  induction h with
  | nil => exact h'
  | keep hab _ ih => exact .keep hab ih
  | insert hb _ ih => exact .insert hb ih

theorem of_forall : ∀ {bs : List β}, (∀ b ∈ bs, I b) → Interleaved R I [] bs
  | [], _ => .nil
  | _ :: _, h =>
    .insert (h _ List.mem_cons_self) (of_forall fun b hb => h b (List.mem_cons_of_mem _ hb))

theorem of_forall₂ (h : List.Forall₂ R as bs) : Interleaved R I as bs := by
  induction h with
  | nil => exact .nil
  | cons hab _ ih => exact .keep hab ih

theorem exists_of_mem (h : Interleaved R I as bs) : ∀ b ∈ bs, (∃ a ∈ as, R a b) ∨ I b := by
  induction h with
  | nil => exact List.forall_mem_nil _
  | keep hab _ ih =>
    refine List.forall_mem_cons.mpr ⟨.inl ⟨_, List.mem_cons_self, hab⟩, fun b hb => ?_⟩
    exact (ih b hb).imp_left fun ⟨a, ha, hr⟩ => ⟨a, List.mem_cons_of_mem _ ha, hr⟩
  | insert hb _ ih => exact List.forall_mem_cons.mpr ⟨.inr hb, ih⟩

/-- Related elements stay related under functions that respect it. -/
theorem map {α' β' : Type} {R' : α' → β' → Prop} {I' : β' → Prop} {f : α → α'} {g : β → β'}
    (h : Interleaved R I as bs) (hR : ∀ a b, R a b → R' (f a) (g b)) (hI : ∀ b, I b → I' (g b)) :
    Interleaved R' I' (as.map f) (bs.map g) := by
  induction h with
  | nil => exact .nil
  | keep hab _ ih => exact .keep (hR _ _ hab) ih
  | insert hb _ ih => exact .insert (hI _ hb) ih

theorem mono {R' : α → β → Prop} {I' : β → Prop} (h : Interleaved R I as bs) (hR : ∀ a b, R a b → R' a b)
    (hI : ∀ b, I b → I' b) : Interleaved R' I' as bs := by
  simpa using h.map (f := id) (g := id) hR hI

theorem comp {S : β → γ → Prop} {T : α → γ → Prop} {J : γ → Prop} {cs : List γ} (h : Interleaved R I as bs)
    (h' : Interleaved S J bs cs) (hRST : ∀ a b c, R a b → S b c → T a c) (hIS : ∀ b c, I b → S b c → J c) :
    Interleaved T J as cs := by
  induction h' generalizing as with
  | nil =>
    cases h
    exact .nil
  | keep hbc _ ih =>
    cases h with
    | keep hab h => exact .keep (hRST _ _ _ hab hbc) (ih h)
    | insert hb h => exact .insert (hIS _ _ hb hbc) (ih h)
  | insert hc _ ih => exact .insert hc (ih h)

theorem and_mem {P : β → Prop} (h : Interleaved R I as bs) (hP : ∀ b ∈ bs, P b) :
    Interleaved (fun a b => R a b ∧ P b) (fun b => I b ∧ P b) as bs := by
  induction h with
  | nil => exact .nil
  | keep hab _ ih =>
    obtain ⟨hb, hbs⟩ := List.forall_mem_cons.mp hP
    exact .keep ⟨hab, hb⟩ (ih hbs)
  | insert hb _ ih =>
    obtain ⟨hb', hbs⟩ := List.forall_mem_cons.mp hP
    exact .insert ⟨hb, hb'⟩ (ih hbs)

theorem exists_of_mem_left (h : Interleaved R I as bs) : ∀ a ∈ as, ∃ b, R a b := by
  induction h with
  | nil => exact List.forall_mem_nil _
  | keep hab _ ih => exact List.forall_mem_cons.mpr ⟨⟨_, hab⟩, ih⟩
  | insert _ _ ih => exact ih

theorem and_mem_left {P : α → Prop} (h : Interleaved R I as bs) (hP : ∀ a ∈ as, P a) :
    Interleaved (fun a b => P a ∧ R a b) I as bs := by
  induction h with
  | nil => exact .nil
  | keep hab _ ih =>
    obtain ⟨ha, has⟩ := List.forall_mem_cons.mp hP
    exact .keep ⟨ha, hab⟩ (ih has)
  | insert hb _ ih => exact .insert hb (ih hP)

end Interleaved

theorem forall₂_comp {α β γ : Type} {R : α → β → Prop} {S : β → γ → Prop} {T : α → γ → Prop}
    (hRST : ∀ a b c, R a b → S b c → T a c) {as : List α} {bs : List β} {cs : List γ}
    (h : List.Forall₂ R as bs) (h' : List.Forall₂ S bs cs) : List.Forall₂ T as cs := by
  induction h generalizing cs with
  | nil =>
    cases h'
    exact .nil
  | cons hab _ ih =>
    cases h' with
    | cons hbc hbs => exact .cons (hRST _ _ _ hab hbc) (ih hbs)

theorem exists_left_of_forall₂ {α β : Type} {R : α → β → Prop} {as : List α} {bs : List β}
    (h : List.Forall₂ R as bs) : ∀ b ∈ bs, ∃ a ∈ as, R a b := by
  intro b hb
  exact ((Interleaved.of_forall₂ (I := fun _ => False) h).exists_of_mem b hb).resolve_right id

/-! ## Selects with the queries around them -/

/-- A select with the facts of the queries around it, the innermost first. What stands inside an isolated
select does not see them. -/
structure Enclosed where
  around : List Facts
  isolated : Bool
  select : Select

/-- What is in sight in such a select, apart from its own facts. -/
def Enclosed.visible (x : Enclosed) : List Facts := if x.isolated then [] else x.around

mutual
/-- The selects of an expression, each before those inside it. -/
def Expr.enclosed (scopes : List Facts) : Expr → List Enclosed
  | .ident _ | .literal _ | .marker _ | .named _ => []
  | .call _ _ args => exprsEnclosed scopes args
  | .list items => exprsEnclosed scopes items
  | .arith _ l r | .logic _ l r | .compare _ l r => l.enclosed scopes ++ r.enclosed scopes
  | .unary _ e => e.enclosed scopes
  | .case operand bs otherwise =>
    optEnclosed scopes operand ++ branchesEnclosed scopes bs ++ optEnclosed scopes otherwise
  | .subquery s => s.enclosed scopes false
def exprsEnclosed (scopes : List Facts) : List Expr → List Enclosed
  | [] => []
  | e :: es => e.enclosed scopes ++ exprsEnclosed scopes es
def optEnclosed (scopes : List Facts) : Option Expr → List Enclosed
  | none => []
  | some e => e.enclosed scopes
def branchesEnclosed (scopes : List Facts) : List Branch → List Enclosed
  | [] => []
  | ⟨c, r⟩ :: bs => c.enclosed scopes ++ r.enclosed scopes ++ branchesEnclosed scopes bs
def fieldsEnclosed (scopes : List Facts) : List ResultField → List Enclosed
  | [] => []
  | ⟨e, _⟩ :: fs => e.enclosed scopes ++ fieldsEnclosed scopes fs
def ordersEnclosed (scopes : List Facts) : List OrderItem → List Enclosed
  | [] => []
  | ⟨e, _⟩ :: os => e.enclosed scopes ++ ordersEnclosed scopes os
def Table.enclosed (scopes : List Facts) : Table → List Enclosed
  | .named _ _ => []
  | .derived s _ => s.enclosed scopes true
def optTableEnclosed (scopes : List Facts) : Option Table → List Enclosed
  | none => []
  | some t => t.enclosed scopes
def joinsEnclosed (scopes : List Facts) : List Join → List Enclosed
  | [] => []
  | ⟨_, t, condition, _⟩ :: js =>
    t.enclosed scopes ++ optEnclosed scopes condition ++ joinsEnclosed scopes js
def unionsEnclosed (scopes : List Facts) : List UnionPart → List Enclosed
  | [] => []
  | ⟨_, s⟩ :: us => s.enclosed scopes true ++ unionsEnclosed scopes us
def Select.enclosed (around : List Facts) (isolated : Bool) : Select → List Enclosed
  | ⟨distinct, fs, source, js, criteria, grouping, having, ordering, limit, offset, us, facts⟩ =>
    let scopes := facts :: if isolated then [] else around
    ⟨around, isolated,
      ⟨distinct, fs, source, js, criteria, grouping, having, ordering, limit, offset, us, facts⟩⟩
      :: fieldsEnclosed scopes fs ++ optTableEnclosed scopes source ++ joinsEnclosed scopes js
      ++ optEnclosed scopes criteria ++ exprsEnclosed scopes grouping ++ optEnclosed scopes having
      ++ ordersEnclosed scopes ordering ++ optEnclosed scopes limit ++ optEnclosed scopes offset
      ++ unionsEnclosed scopes us
end

def InsertSource.enclosed (scopes : List Facts) : InsertSource → List Enclosed
  | .values rows => exprsEnclosed scopes rows
  | .select s => s.enclosed scopes true

def assignmentsEnclosed (scopes : List Facts) (as : List Assignment) : List Enclosed :=
  as.flatMap fun a => a.target.enclosed scopes ++ a.value.enclosed scopes

/-- All selects of a query with the queries around them. -/
def Query.enclosed : Query → List Enclosed
  | .select s => s.enclosed [] false
  | .insert i => i.table.enclosed [i.facts] ++ exprsEnclosed [i.facts] i.columns
      ++ i.source.enclosed [i.facts] ++ fieldsEnclosed [i.facts] i.returning
  | .update u => u.table.enclosed [u.facts] ++ assignmentsEnclosed [u.facts] u.assignments
      ++ optEnclosed [u.facts] u.criteria ++ ordersEnclosed [u.facts] u.ordering
      ++ optEnclosed [u.facts] u.limit ++ optEnclosed [u.facts] u.offset
  | .delete d => d.table.enclosed [d.facts] ++ optEnclosed [d.facts] d.criteria
      ++ ordersEnclosed [d.facts] d.ordering ++ optEnclosed [d.facts] d.limit ++ optEnclosed [d.facts] d.offset

/-! ## The selects alone -/

mutual
theorem Expr.map_enclosed {scopes} : ∀ e : Expr, (e.enclosed scopes).map (·.select) = e.selects
  | .ident _ | .literal _ | .marker _ | .named _ => rfl
  | .call _ _ args => map_exprsEnclosed args
  | .list items => map_exprsEnclosed items
  | .arith _ l r | .logic _ l r | .compare _ l r => by
    rw [Expr.enclosed, List.map_append, Expr.map_enclosed l, Expr.map_enclosed r, Expr.selects]
  | .unary _ e => (Expr.map_enclosed e :)
  | .case o bs e => by
    rw [Expr.enclosed, List.map_append, List.map_append, map_optEnclosed o, map_branchesEnclosed bs,
      map_optEnclosed e, Expr.selects]
  | .subquery s => (Select.map_enclosed s :)
theorem map_exprsEnclosed {scopes} : ∀ es : List Expr,
    (exprsEnclosed scopes es).map (·.select) = exprsSelects es
  | [] => rfl
  | e :: es => by
    rw [exprsEnclosed, List.map_append, Expr.map_enclosed e, map_exprsEnclosed es, exprsSelects]
theorem map_optEnclosed {scopes} : ∀ o : Option Expr,
    (optEnclosed scopes o).map (·.select) = optSelects o
  | none => rfl
  | some e => (Expr.map_enclosed e :)
theorem map_branchesEnclosed {scopes} : ∀ bs : List Branch,
    (branchesEnclosed scopes bs).map (·.select) = branchesSelects bs
  | [] => rfl
  | ⟨c, r⟩ :: bs => by
    rw [branchesEnclosed, List.map_append, List.map_append, Expr.map_enclosed c, Expr.map_enclosed r,
      map_branchesEnclosed bs, branchesSelects]
theorem map_fieldsEnclosed {scopes} : ∀ fs : List ResultField,
    (fieldsEnclosed scopes fs).map (·.select) = fieldsSelects fs
  | [] => rfl
  | ⟨e, _⟩ :: fs => by
    rw [fieldsEnclosed, List.map_append, Expr.map_enclosed e, map_fieldsEnclosed fs, fieldsSelects]
theorem map_ordersEnclosed {scopes} : ∀ os : List OrderItem,
    (ordersEnclosed scopes os).map (·.select) = ordersSelects os
  | [] => rfl
  | ⟨e, _⟩ :: os => by
    rw [ordersEnclosed, List.map_append, Expr.map_enclosed e, map_ordersEnclosed os, ordersSelects]
theorem Table.map_enclosed {scopes} : ∀ t : Table, (t.enclosed scopes).map (·.select) = t.selects
  | .named _ _ => rfl
  | .derived s _ => (Select.map_enclosed s :)
theorem map_optTableEnclosed {scopes} : ∀ t : Option Table,
    (optTableEnclosed scopes t).map (·.select) = optTableSelects t
  | none => rfl
  | some t => (Table.map_enclosed t :)
theorem map_joinsEnclosed {scopes} : ∀ js : List Join,
    (joinsEnclosed scopes js).map (·.select) = joinsSelects js
  | [] => rfl
  | ⟨_, t, c, _⟩ :: js => by
    rw [joinsEnclosed, List.map_append, List.map_append, Table.map_enclosed t, map_optEnclosed c,
      map_joinsEnclosed js, joinsSelects]
theorem map_unionsEnclosed {scopes} : ∀ us : List UnionPart,
    (unionsEnclosed scopes us).map (·.select) = unionsSelects us
  | [] => rfl
  | ⟨_, s⟩ :: us => by
    rw [unionsEnclosed, List.map_append, Select.map_enclosed s, map_unionsEnclosed us, unionsSelects]
theorem Select.map_enclosed {around isolated} : ∀ s : Select,
    (s.enclosed around isolated).map (·.select) = s.selects
  | ⟨_, fs, t, js, c, gs, hv, os, l, o, us, f⟩ => by
    simp only [Select.enclosed, Select.selects, List.map_cons, List.map_append, List.cons_append,
      map_fieldsEnclosed fs, map_optTableEnclosed t, map_joinsEnclosed js, map_optEnclosed c, map_exprsEnclosed gs,
      map_optEnclosed hv, map_ordersEnclosed os, map_optEnclosed l, map_optEnclosed o, map_unionsEnclosed us]
end

theorem InsertSource.map_enclosed (x : InsertSource) (scopes : List Facts) :
    (x.enclosed scopes).map (·.select) = x.selects := by
  cases x with
  | values rows => exact map_exprsEnclosed rows
  | select s => exact s.map_enclosed

/-- All selects of a query are enclosed in it. -/
theorem Query.map_enclosed (q : Query) : q.enclosed.map (·.select) = q.selects := by
  cases q with
  | select s => exact s.map_enclosed
  | insert i =>
    simp only [Query.enclosed, Query.selects, List.map_append, Table.map_enclosed, map_exprsEnclosed,
      InsertSource.map_enclosed, map_fieldsEnclosed]
  | update u =>
    simp only [Query.enclosed, Query.selects, assignmentsEnclosed, List.map_append, List.map_flatMap,
      Table.map_enclosed, Expr.map_enclosed, map_optEnclosed, map_ordersEnclosed]
  | delete d =>
    simp only [Query.enclosed, Query.selects, List.map_append, Table.map_enclosed, map_optEnclosed,
      map_ordersEnclosed]

theorem joinsEnclosed_append (scopes : List Facts) (js ks : List Join) :
    joinsEnclosed scopes (js ++ ks) = joinsEnclosed scopes js ++ joinsEnclosed scopes ks := by
  induction js with
  | nil => rfl
  | cons j js ih =>
    obtain ⟨kind, t, c, path⟩ := j
    rw [List.cons_append, joinsEnclosed, joinsEnclosed, ih, List.append_assoc, List.append_assoc,
      List.append_assoc]

end EntitySql
