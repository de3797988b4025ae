import Mathlib
import EntitySql.Proofs.Edits
import EntitySql.Proofs.Shape

/-!
# Well-formed queries

What a query keeps of the shape it was read in, while passes work on it: `Query.Formed` asks of each
node what the grammar guarantees of it, and of each part what `Checks` says. Unlike the shape of a text
(`Query.Shaped`) it allows for facts, resolved names, numbered markers and completed joins.

* `Edit.Carries.query`: an edit that carries the checks of single parts over carries them over for whole
  queries.
-/

namespace EntitySql

/-- What is asked of the parts of a query. -/
structure Checks where
  ident : Identifier → Prop := fun _ => True
  /-- The column of an insert, or what is assigned to. -/
  target : Identifier → Prop := fun _ => True
  literal : Literal → Prop := fun _ => True
  mark : Mark → Prop := fun _ => True
  call : String → Prop := fun _ => True
  compare : CompareOp → Prop := fun _ => True
  /-- An alias. -/
  label : String → Prop := fun _ => True
  /-- The name of a table, joined or not. -/
  table : (joined : Bool) → String → Prop := fun _ _ => True
  /-- Whether a join has a condition, and its path. -/
  join : (conditional : Bool) → Option RelationPath → Prop := fun _ _ => True
  sources : Sources → Prop := fun _ => True
  /-- The fields of a select with those sources. -/
  fields : Sources → List ResultField → Prop := fun _ _ => True
  /-- The table of an insert. -/
  into : Table → Prop := fun _ => True

variable (c : Checks)

/-- An explicit alias. -/
def LabelFormed (label : Option String) : Prop := ∀ a, label = some a → c.label a

mutual
def Expr.Formed : Expr → Prop
  | .ident i => c.ident i
  | .literal l => c.literal l
  | .marker m => c.mark (.anonymous m)
  | .named m => c.mark (.named m)
  | .call name _ args => c.call name ∧ ExprsFormed args
  | .list items => 2 ≤ items.length ∧ ExprsFormed items
  | .arith _ l r | .logic _ l r => l.Formed ∧ r.Formed
  | .compare op l r =>
    c.compare op ∧ l.Formed ∧ (op.isMembership = false → r.Formed)
      ∧ (op.isMembership = true → r.FormedMember ∧ Precedence.comparison < r.precedence)
  | .unary .not e => e.Formed
  | .unary .negate e => e.Formed ∧ ∀ l, e = .literal l → l.negate? = none
  | .case operand bs otherwise =>
    OptFormed operand ∧ bs ≠ [] ∧ BranchesFormed bs ∧ OptFormed otherwise
  | .subquery s => s.Formed
/-- The right side of a membership test. -/
def Expr.FormedMember : Expr → Prop
  | .list items => items ≠ [] ∧ (∀ e, items = [e] → e.isGroup = false) ∧ ExprsFormed items
  | .subquery s => s.Formed
  | .arith op l r => l.FormedMember ∧ op.precedence ≤ l.precedence ∧ r.Formed
  | _ => False
def ExprsFormed : List Expr → Prop
  | [] => True
  | e :: es => e.Formed ∧ ExprsFormed es
def OptFormed : Option Expr → Prop
  | none => True
  | some e => e.Formed
def BranchesFormed : List Branch → Prop
  | [] => True
  | ⟨cond, r⟩ :: bs => cond.Formed ∧ r.Formed ∧ BranchesFormed bs
def FieldsFormed : List ResultField → Prop
  | [] => True
  | ⟨e, a⟩ :: fs => e.Formed ∧ LabelFormed c a ∧ FieldsFormed fs
def OrdersFormed : List OrderItem → Prop
  | [] => True
  | ⟨e, _⟩ :: os => e.Formed ∧ OrdersFormed os
def Table.Formed (joined : Bool) : Table → Prop
  | .named name a => c.table joined name ∧ LabelFormed c a
  | .derived s a => s.Formed ∧ LabelFormed c a
def OptTableFormed : Option Table → Prop
  | none => True
  | some t => t.Formed false
def JoinsFormed : List Join → Prop
  | [] => True
  | ⟨_, t, condition, path⟩ :: js =>
    t.Formed true ∧ OptFormed condition ∧ c.join condition.isSome path ∧ JoinsFormed js
def UnionsFormed : List UnionPart → Prop
  | [] => True
  | ⟨_, s⟩ :: us => s.Formed ∧ s.unions = [] ∧ UnionsFormed us
def Select.Formed : Select → Prop
  | ⟨_, fields, source, joins, criteria, grouping, having, ordering, limit, offset, unions, facts⟩ =>
    FieldsFormed fields ∧ OptTableFormed source ∧ JoinsFormed joins ∧ OptFormed criteria
      ∧ ExprsFormed grouping ∧ OptFormed having ∧ OrdersFormed ordering ∧ OptFormed limit
      ∧ OptFormed offset ∧ UnionsFormed unions ∧ c.sources facts.sources ∧ c.fields facts.sources fields
end

/-- The name of a column. -/
def Expr.TargetFormed (e : Expr) : Prop := ∃ i, e = .ident i ∧ c.target i

/-- A row of values. -/
def Expr.RowFormed (e : Expr) : Prop := ∃ items, e = .list items ∧ items ≠ [] ∧ ExprsFormed c items

def InsertSource.Formed : InsertSource → Prop
  | .values rows => rows ≠ [] ∧ ∀ r ∈ rows, r.RowFormed c
  | .select s => s.Formed c

structure Insert.Formed (i : Insert) : Prop where
  table : i.table.Formed c false
  into : c.into i.table
  columns : ∀ e ∈ i.columns, e.TargetFormed c
  source : i.source.Formed c
  returning : FieldsFormed c i.returning
  sources : c.sources i.facts.sources

structure Update.Formed (u : Update) : Prop where
  table : u.table.Formed c false
  nonempty : u.assignments ≠ []
  assignments : ∀ a ∈ u.assignments, a.target.TargetFormed c ∧ a.value.Formed c
  criteria : OptFormed c u.criteria
  ordering : OrdersFormed c u.ordering
  limit : OptFormed c u.limit
  offset : OptFormed c u.offset
  sources : c.sources u.facts.sources

structure Delete.Formed (x : Delete) : Prop where
  table : x.table.Formed c false
  criteria : OptFormed c x.criteria
  ordering : OrdersFormed c x.ordering
  limit : OptFormed c x.limit
  offset : OptFormed c x.offset
  sources : c.sources x.facts.sources

/-- A query whose parts pass the checks. -/
def Query.Formed : Query → Prop
  | .select s => s.Formed c
  | .insert i => i.Formed c
  | .update u => u.Formed c
  | .delete x => x.Formed c

variable {c}

/-! ## Lists of parts -/

theorem fieldsFormed_iff {fs : List ResultField} :
    FieldsFormed c fs ↔ ∀ f ∈ fs, f.expr.Formed c ∧ LabelFormed c f.label := by
  induction fs with
  | nil => simp [FieldsFormed]
  | cons f fs ih =>
    obtain ⟨e, a⟩ := f
    simp only [FieldsFormed, ih, List.forall_mem_cons, and_assoc]

theorem fieldsFormed_append {fs gs : List ResultField} :
    FieldsFormed c (fs ++ gs) ↔ FieldsFormed c fs ∧ FieldsFormed c gs := by
  simp only [fieldsFormed_iff, List.forall_mem_append]

/-- A well-formed join. -/
def Join.Formed (c : Checks) (j : Join) : Prop :=
  j.table.Formed c true ∧ OptFormed c j.condition ∧ c.join j.condition.isSome j.path

theorem joinsFormed_iff {js : List Join} : JoinsFormed c js ↔ ∀ j ∈ js, j.Formed c := by
  induction js with
  | nil => simp [JoinsFormed]
  | cons j js ih =>
    obtain ⟨kind, t, cond, p⟩ := j
    simp only [JoinsFormed, ih, List.forall_mem_cons, Join.Formed, and_assoc]

theorem joinsFormed_append {js ks : List Join} :
    JoinsFormed c (js ++ ks) ↔ JoinsFormed c js ∧ JoinsFormed c ks := by
  simp only [joinsFormed_iff, List.forall_mem_append]

/-! ## Edits keep the heads of expressions -/

section

variable {d : Edit} {p : Spot}

theorem Expr.Edited.precedence_eq {e e' : Expr} (h : e.Edited d p e') : e'.precedence = e.precedence := by
  cases h <;> rfl

theorem Expr.Edited.isGroup_eq {e e' : Expr} (h : e.Edited d p e') : e'.isGroup = e.isGroup := by
  cases h <;> rfl

theorem Expr.Edited.eq_literal {e : Expr} {l : Literal} (h : e.Edited d p (.literal l)) :
    e = .literal l := by
  cases h
  rfl

theorem ExprsEdited.length_eq : ∀ {es es' : List Expr}, ExprsEdited d p es es' → es'.length = es.length
  | [], _, .nil => rfl
  | _ :: _, _, .cons _ h => congrArg (· + 1) h.length_eq

theorem ExprsEdited.ne_nil {es es' : List Expr} (h : ExprsEdited d p es es') (hne : es ≠ []) : es' ≠ [] := by
  rw [← List.length_pos_iff] at hne ⊢
  rwa [h.length_eq]

theorem ExprsEdited.forall {P Q : Expr → Prop} (hPQ : ∀ {e e'}, e.Edited d p e' → P e → Q e') :
    ∀ {es es' : List Expr}, ExprsEdited d p es es' → (∀ e ∈ es, P e) → ∀ e ∈ es', Q e
  | [], _, .nil, _ => List.forall_mem_nil _
  | _ :: _, _, .cons he hes, h => by
    obtain ⟨hP, hPs⟩ := List.forall_mem_cons.mp h
    exact List.forall_mem_cons.mpr ⟨hPQ he hP, hes.forall hPQ hPs⟩

theorem OptEdited.isSome_eq {o o' : Option Expr} (h : OptEdited d p o o') : o'.isSome = o.isSome := by
  cases h <;> rfl

theorem UnionsEdited.unions_nil {s s' : Select} {visible : List View} (h : s.Edited d visible s')
    (hs : s.unions = []) : s'.unions = [] := by
  obtain ⟨-, -, -, -, -, -, -, -, -, hus, -⟩ := h
  subst hs
  cases hus
  rfl

end

/-! ## Edits carry checks over -/

/-- All visible sources are checked. -/
def Checks.Sees (c : Checks) (p : Spot) : Prop := ∀ s ∈ p.scopes, c.sources s.sources

/-- The edit takes parts that pass the first checks to parts that pass the second. Nothing is to be shown
of parts that the edit leaves as they are and the checks treat alike. -/
structure Edit.Carries (d : Edit) (c c' : Checks) : Prop where
  ident : ∀ {p i i'}, c.Sees p → d.ident p i i' → c.ident i → c'.ident i' := by
    rintro _ _ _ _ rfl h; exact h
  target : ∀ {p i i'}, c.Sees p → d.ident p i i' → c.target i → c'.target i' := by
    rintro _ _ _ _ rfl h; exact h
  literal : ∀ {l}, c.literal l → c'.literal l := by exact id
  mark : ∀ {m m'}, d.mark m m' → c.mark m → c'.mark m' := by rintro _ _ rfl h; exact h
  call : ∀ {name}, c.call name → c'.call name := by exact id
  compare : ∀ {op}, c.compare op → c'.compare op := by exact id
  label : ∀ {a}, c.label a → c'.label a := by exact id
  table : ∀ {joined name label name' label'}, d.table joined (name, label) (name', label') →
    c.table joined name → LabelFormed c label → c'.table joined name' ∧ LabelFormed c' label' := by
    rintro _ _ _ _ _ ⟨⟩ ht hl; exact ⟨ht, hl⟩
  keep : ∀ {j}, d.keep j → c.join j.condition.isSome j.path → c'.join j.condition.isSome j.path := by
    exact fun _ h => h
  complete : ∀ {j new}, d.complete j new → j.table.Formed c' true → c.join j.condition.isSome j.path →
    JoinsFormed c' new := by rintro _ _ ⟨⟩
  expand : ∀ {p f xs}, c.Sees p → d.expand p f xs → FieldsFormed c' xs := by rintro _ _ _ _ ⟨⟩
  sources : ∀ {ts f f'}, d.facts ts f f' → (∀ t ∈ ts, ∃ joined, t.Formed c' joined) →
    c.sources f.sources → c'.sources f'.sources := by intros; trivial
  fields : ∀ {s visible ts f f' fs fs'}, d.facts ts f f' → s.sources = f.sources →
    FieldsEdited d ⟨s :: visible, false⟩ fs fs' → c.sources f.sources → c.fields f.sources fs →
    c'.fields f'.sources fs' := by intros; trivial
  into : ∀ {t t'}, t.Edited d false t' → c.into t → c'.into t' := by intros; trivial

section

variable {d : Edit} {c' : Checks} (h : d.Carries c c')

include h

set_option linter.unusedSectionVars false

theorem Edit.Carries.labelFormed {label : Option String} (hl : LabelFormed c label) : LabelFormed c' label :=
  fun a ha => h.label (hl a ha)

mutual
theorem Edit.Carries.expr {p} : ∀ (e : Expr) {e'}, c.Sees p → e.Edited d p e' → e.Formed c → e'.Formed c'
  | .ident _, _, hp, hedit, he => by
    cases hedit with
    | ident hi => exact h.ident hp hi he
  | .literal _, _, _, hedit, he => by
    cases hedit
    exact h.literal he
  | .marker _, _, _, hedit, he => by
    cases hedit with
    | marker hm => exact h.mark hm he
  | .named _, _, _, hedit, he => by
    cases hedit with
    | named hm | replaced hm => exact h.mark hm he
  | .call _ _ args, _, hp, hedit, he => by
    cases hedit with
    | call _ _ hargs => exact ⟨h.call he.1, exprs args hp hargs he.2⟩
  | .list items, _, hp, hedit, he => by
    cases hedit with
    | list hitems => exact ⟨hitems.length_eq ▸ he.1, exprs items hp hitems he.2⟩
  | .arith _ l r, _, hp, hedit, he => by
    cases hedit with
    | arith _ hl hr => exact ⟨expr l hp hl he.1, expr r hp hr he.2⟩
  | .logic _ l r, _, hp, hedit, he => by
    cases hedit with
    | logic _ hl hr => exact ⟨expr l hp hl he.1, expr r hp hr he.2⟩
  | .compare _ l r, _, hp, hedit, ⟨hop, hel, hno, hyes⟩ => by
    cases hedit with
    | compare _ hl hr =>
      exact ⟨h.compare hop, expr l hp hl hel, fun hm => expr r hp hr (hno hm),
        fun hm => ⟨member r hp hr (hyes hm).1, hr.precedence_eq ▸ (hyes hm).2⟩⟩
  | .unary .not e, _, hp, hedit, he => by
    cases hedit with
    | unary _ he' => exact (expr e hp he' he :)
  | .unary .negate e, _, hp, hedit, he => by
    cases hedit with
    | unary _ he' =>
      exact ⟨expr e hp he' he.1, fun l hl => he.2 l (Expr.Edited.eq_literal (hl ▸ he'))⟩
  | .case o bs e, _, hp, hedit, ⟨heo, hne, hebs, hee⟩ => by
    cases hedit with
    | case ho hbs he' =>
      refine ⟨opt o hp ho heo, ?_, branches bs hp hbs hebs, opt e hp he' hee⟩
      cases hbs with
      | nil => exact absurd rfl hne
      | cons => exact List.cons_ne_nil _ _
  | .subquery s, _, hp, hedit, he => by
    cases hedit with
    | subquery hs => exact select s hp hs he
termination_by structural e => e
theorem Edit.Carries.member {p} : ∀ (e : Expr) {e'}, c.Sees p → e.Edited d p e' → e.FormedMember c →
    e'.FormedMember c'
  | .list items, _, hp, hedit, ⟨hne, hone, hei⟩ => by
    cases hedit with
    | list hitems =>
      refine ⟨hitems.ne_nil hne, ?_, exprs items hp hitems hei⟩
      rintro e' rfl
      cases hitems with
      | cons he hes =>
        cases hes
        exact he.isGroup_eq ▸ hone _ rfl
  | .subquery s, _, hp, hedit, he => by
    cases hedit with
    | subquery hs => exact select s hp hs he
  | .arith _ l r, _, hp, hedit, ⟨hel, hle, her⟩ => by
    cases hedit with
    | arith _ hl hr => exact ⟨member l hp hl hel, hl.precedence_eq ▸ hle, expr r hp hr her⟩
  | .ident _, _, _, _, he | .literal _, _, _, _, he | .marker _, _, _, _, he
  | .named _, _, _, _, he | .call .., _, _, _, he | .compare .., _, _, _, he
  | .logic .., _, _, _, he | .unary .., _, _, _, he | .case .., _, _, _, he => he.elim
termination_by structural e => e
theorem Edit.Carries.exprs {p} : ∀ (es : List Expr) {es'}, c.Sees p → ExprsEdited d p es es' →
    ExprsFormed c es → ExprsFormed c' es'
  | [], _, _, .nil, _ => trivial
  | e :: es, _, hp, .cons he hes, hf => ⟨expr e hp he hf.1, exprs es hp hes hf.2⟩
termination_by structural es => es
theorem Edit.Carries.opt {p} : ∀ (o : Option Expr) {o'}, c.Sees p → OptEdited d p o o' →
    OptFormed c o → OptFormed c' o'
  | none, _, _, .none, _ => trivial
  | some e, _, hp, .some he, hf => expr e hp he hf
termination_by structural o => o
theorem Edit.Carries.branches {p} : ∀ (bs : List Branch) {bs'}, c.Sees p → BranchesEdited d p bs bs' →
    BranchesFormed c bs → BranchesFormed c' bs'
  | [], _, _, .nil, _ => trivial
  | ⟨cond, r⟩ :: bs, _, hp, .cons hc hr hbs, hf =>
    ⟨expr cond hp hc hf.1, expr r hp hr hf.2.1, branches bs hp hbs hf.2.2⟩
termination_by structural bs => bs
theorem Edit.Carries.resultFields {p} : ∀ (fs : List ResultField) {fs'}, c.Sees p → FieldsEdited d p fs fs' →
    FieldsFormed c fs → FieldsFormed c' fs'
  | [], _, _, .nil, _ => trivial
  | ⟨e, _⟩ :: fs, _, hp, .keep _ he hfs, hf =>
    ⟨expr e hp he hf.1, h.labelFormed hf.2.1, resultFields fs hp hfs hf.2.2⟩
  | ⟨_, _⟩ :: fs, _, hp, .expand hx hfs, hf =>
    fieldsFormed_append.mpr ⟨h.expand hp hx, resultFields fs hp hfs hf.2.2⟩
termination_by structural fs => fs
theorem Edit.Carries.orders {p} : ∀ (os : List OrderItem) {os'}, c.Sees p → OrdersEdited d p os os' →
    OrdersFormed c os → OrdersFormed c' os'
  | [], _, _, .nil, _ => trivial
  | ⟨e, _⟩ :: os, _, hp, .cons _ he hos, hf => ⟨expr e hp he hf.1, orders os hp hos hf.2⟩
termination_by structural os => os
theorem Edit.Carries.tableOf {joined} : ∀ (t : Table) {t'}, t.Edited d joined t' → t.Formed c joined →
    t'.Formed c' joined
  | .named _ _, _, .named ht, hf => h.table ht hf.1 hf.2
  | .derived s _, _, .derived _ _ hs, hf =>
    ⟨select s (List.forall_mem_nil _) hs hf.1, h.labelFormed hf.2⟩
termination_by structural t => t
theorem Edit.Carries.optTable : ∀ (t : Option Table) {t'}, OptTableEdited d t t' → OptTableFormed c t →
    OptTableFormed c' t'
  | none, _, .none, _ => trivial
  | some t, _, .some ht, hf => tableOf t ht hf
termination_by structural t => t
theorem Edit.Carries.joins {p} : ∀ (js : List Join) {js'}, c.Sees p → JoinsEdited d p js js' →
    JoinsFormed c js → JoinsFormed c' js'
  | [], _, _, .nil, _ => trivial
  | ⟨_, t, cond, _⟩ :: js, _, hp, .keep hkeep ht hc hjs, ⟨hft, hfc, hfj, hfjs⟩ =>
    ⟨tableOf t ht hft, opt cond hp hc hfc, hc.isSome_eq ▸ h.keep hkeep hfj, joins js hp hjs hfjs⟩
  | ⟨_, t, _, _⟩ :: js, _, hp, .complete ht hnew hjs, ⟨hft, _, hfj, hfjs⟩ =>
    joinsFormed_append.mpr ⟨h.complete hnew (tableOf t ht hft) hfj, joins js hp hjs hfjs⟩
termination_by structural js => js
theorem Edit.Carries.unions : ∀ (us : List UnionPart) {us'}, UnionsEdited d us us' → UnionsFormed c us →
    UnionsFormed c' us'
  | [], _, .nil, _ => trivial
  | ⟨_, s⟩ :: us, _, .cons _ _ hs hus, hf =>
    ⟨select s (List.forall_mem_nil _) hs hf.1, UnionsEdited.unions_nil hs hf.2.1, unions us hus hf.2.2⟩
termination_by structural us => us
theorem Edit.Carries.select {visible} : ∀ (s : Select) {s'}, (∀ x ∈ visible, c.sources x.sources) →
    s.Edited d visible s' → s.Formed c → s'.Formed c'
  | ⟨_, fs, t, js, cond, gs, hv, os, l, o, us, f⟩, _, hp, 
      .mk hfs ht hjs hc hgs hhv hos hl ho hus hf,
      ⟨ffs, ft, fjs, fc, fgs, fhv, fos, fl, fo, fus, fsources, ffields⟩ => by
    have hsees : ∀ b, c.Sees ⟨.ofSelect fs f :: _, b⟩ := fun _ => List.forall_mem_cons.mpr ⟨fsources, hp⟩
    have htable := optTable t ht ft
    have hjoins := joins js (hsees _) hjs fjs
    refine ⟨resultFields fs (hsees _) hfs ffs, htable, hjoins, opt cond (hsees _) hc fc, exprs gs (hsees _) hgs fgs,
      opt hv (hsees _) hhv fhv, orders os (hsees _) hos fos, opt l (hsees _) hl fl, opt o (hsees _) ho fo, unions us hus fus,
      h.sources hf ?_ fsources, h.fields hf rfl hfs fsources ffields⟩
    intro u hu
    rcases List.mem_append.mp hu with hu | hu
    · cases Option.mem_toList.mp hu
      exact ⟨false, htable⟩
    · obtain ⟨j, hj, rfl⟩ := List.mem_map.mp hu
      exact ⟨true, (joinsFormed_iff.mp hjoins j hj).1⟩
termination_by structural s => s
end

theorem Edit.Carries.targetOf {p : Spot} (hp : c.Sees p) {e e' : Expr} (hedit : e.Edited d p e')
    (he : e.TargetFormed c) : e'.TargetFormed c' := by
  obtain ⟨i, rfl, hi⟩ := he
  cases hedit with
  | ident hi' => exact ⟨_, rfl, h.target hp hi' hi⟩

theorem Edit.Carries.rowOf {p : Spot} (hp : c.Sees p) {e e' : Expr} (hedit : e.Edited d p e')
    (he : e.RowFormed c) : e'.RowFormed c' := by
  obtain ⟨items, rfl, hne, hitems⟩ := he
  cases hedit with
  | list hi => exact ⟨_, rfl, hi.ne_nil hne, h.exprs _ hp hi hitems⟩

theorem Edit.Carries.assignments {p : Spot} (hp : c.Sees p) : ∀ {as as' : List Assignment},
    AssignmentsEdited d p as as' → (∀ a ∈ as, a.target.TargetFormed c ∧ a.value.Formed c) →
    ∀ a ∈ as', a.target.TargetFormed c' ∧ a.value.Formed c'
  | [], _, .nil, _ => List.forall_mem_nil _
  | _ :: _, _, .cons ht hv has, hf => by
    obtain ⟨⟨hft, hfv⟩, hfas⟩ := List.forall_mem_cons.mp hf
    exact List.forall_mem_cons.mpr ⟨⟨h.targetOf hp ht hft, h.expr _ hp hv hfv⟩, assignments hp has hfas⟩

theorem Edit.Carries.insertSource {p : Spot} (hp : c.Sees p) : ∀ {s s' : InsertSource}, s.Edited d p s' →
    s.Formed c → s'.Formed c'
  | .values _, _, .values hrows, ⟨hne, hf⟩ => ⟨hrows.ne_nil hne, hrows.forall (h.rowOf hp) hf⟩
  | .select s, _, .select _ hs, hf => h.select s (List.forall_mem_nil _) hs hf

/-- **What an edit carries over for single parts, it carries over for whole queries.** -/
theorem Edit.Carries.query {q q' : Query} (hq : q.Edited d q') (hf : q.Formed c) : q'.Formed c' := by
  cases hq with
  | select hs => exact h.select _ (List.forall_mem_nil _) hs hf
  | insert ht hcs hs hfs hfacts =>
    have hp : ∀ b, c.Sees ⟨[.ofFacts _], b⟩ := fun _ => List.forall_mem_singleton.mpr hf.sources
    have htable := h.tableOf _ ht hf.table
    exact ⟨htable, h.into ht hf.into, hcs.forall (h.targetOf (hp _)) hf.columns, h.insertSource (hp _) hs hf.source,
      h.resultFields _ (hp _) hfs hf.returning,
      h.sources hfacts (List.forall_mem_singleton.mpr ⟨false, htable⟩) hf.sources⟩
  | update ht has hc hos hl ho hfacts =>
    have hp : ∀ b, c.Sees ⟨[.ofFacts _], b⟩ := fun _ => List.forall_mem_singleton.mpr hf.sources
    have htable := h.tableOf _ ht hf.table
    refine ⟨htable, ?_, h.assignments (hp _) has hf.assignments, h.opt _ (hp _) hc hf.criteria,
      h.orders _ (hp _) hos hf.ordering, h.opt _ (hp _) hl hf.limit, h.opt _ (hp _) ho hf.offset,
      h.sources hfacts (List.forall_mem_singleton.mpr ⟨false, htable⟩) hf.sources⟩
    cases has with
    | nil => exact absurd rfl hf.nonempty
    | cons => exact List.cons_ne_nil _ _
  | delete ht hc hos hl ho hfacts =>
    have hp : ∀ b, c.Sees ⟨[.ofFacts _], b⟩ := fun _ => List.forall_mem_singleton.mpr hf.sources
    have htable := h.tableOf _ ht hf.table
    exact ⟨htable, h.opt _ (hp _) hc hf.criteria, h.orders _ (hp _) hos hf.ordering,
      h.opt _ (hp _) hl hf.limit, h.opt _ (hp _) ho hf.offset,
      h.sources hfacts (List.forall_mem_singleton.mpr ⟨false, htable⟩) hf.sources⟩

end

end EntitySql
