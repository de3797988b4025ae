import Mathlib
import EntitySql.Proofs.SelectLists

/-!
# Edits one after the other

Two passes are two edits of a query. They make up one edit if their changes to the single parts do
(`Edit.Follows`), and a select that stands alone is then related to what both make of it.

* `Query.Edited.trans`: edits of whole queries compose.
-/

namespace EntitySql

theorem Select.self_mem_selects (s : Select) : s ∈ s.selects := by
  cases s
  exact List.mem_cons_self

/-! ## Edits of lists -/

section

variable {d : Edit} {p : Spot}

theorem JoinsEdited.split : ∀ {js ks out : List Join}, JoinsEdited d p (js ++ ks) out →
    ∃ js' ks', out = js' ++ ks' ∧ JoinsEdited d p js js' ∧ JoinsEdited d p ks ks'
  | [], _, out, h => ⟨[], out, rfl, .nil, h⟩
  | _ :: _, _, _, .keep hkeep ht hc h => by
    obtain ⟨js', ks', rfl, hjs, hks⟩ := h.split
    exact ⟨_ :: js', ks', rfl, .keep hkeep ht hc hjs, hks⟩
  | _ :: _, _, _, .complete ht hnew h => by
    obtain ⟨js', ks', rfl, hjs, hks⟩ := h.split
    exact ⟨_ ++ js', ks', (List.append_assoc ..).symm, .complete ht hnew hjs, hks⟩

theorem FieldsEdited.split : ∀ {fs gs out : List ResultField}, FieldsEdited d p (fs ++ gs) out →
    ∃ fs' gs', out = fs' ++ gs' ∧ FieldsEdited d p fs fs' ∧ FieldsEdited d p gs gs'
  | [], _, out, h => ⟨[], out, rfl, .nil, h⟩
  | _ :: _, _, _, .keep label he h => by
    obtain ⟨fs', gs', rfl, hfs, hgs⟩ := h.split
    exact ⟨_ :: fs', gs', rfl, .keep label he hfs, hgs⟩
  | _ :: _, _, _, .expand hx h => by
    obtain ⟨fs', gs', rfl, hfs, hgs⟩ := h.split
    exact ⟨_ ++ fs', gs', (List.append_assoc ..).symm, .expand hx hfs, hgs⟩

end

/-! ## Two edits -/

/-- The changes of two edits, one after the other, are those of a third. What is asked of a select that
stands alone may rest on `P`. -/
structure Edit.Follows (d d' e : Edit) (P : Select → Prop) : Prop where
  ident : ∀ {p p' i i' i''}, d.ident p i i' → d'.ident p' i' i'' → e.ident p i i''
  mark : ∀ {m m' m''}, d.mark m m' → d'.mark m' m'' → e.mark m m''
  table : ∀ {joined t t' t''}, d.table joined t t' → d'.table joined t' t'' → e.table joined t t''
  keep : ∀ {kind t t' c c' path}, d.keep ⟨kind, t, c, path⟩ → d'.keep ⟨kind, t', c', path⟩ →
    c'.isSome = c.isSome → e.keep ⟨kind, t, c, path⟩
  /-- A join is completed by the second edit, -/
  later : ∀ {kind t c c' path new}, d'.complete ⟨kind, t, c', path⟩ new → c'.isSome = c.isSome →
    e.complete ⟨kind, t, c, path⟩ new
  /-- or by the first. -/
  sooner : ∀ {kind t c path new new' p}, d.complete ⟨kind, t, c, path⟩ new → JoinsEdited d' p new new' →
    ∃ t', t.Edited d' true t' ∧ e.complete ⟨kind, t', c, path⟩ new'
  /-- A field is replaced by the second edit, -/
  expandLater : ∀ {p p' x x' label xs}, x.Edited d p x' → d'.expand p' ⟨x', label⟩ xs →
    e.expand p ⟨x, label⟩ xs
  /-- or by the first. -/
  expandSooner : ∀ {p p' f xs xs'}, d.expand p f xs → FieldsEdited d' p' xs xs' → e.expand p f xs'
  facts : ∀ {ts ts' f f' f''}, d.facts ts f f' → d'.facts ts' f' f'' → e.facts ts' f f''
  alone : ∀ {s s' s''}, P s → d.alone s s' → d'.alone s' s'' → e.alone s s''

section

variable {d d' d'' : Edit} {P : Select → Prop} (hd : d.Follows d' d'' P)

include hd

set_option linter.unusedSectionVars false

mutual
theorem Expr.Edited.trans {p p'} : ∀ (e : Expr) {e' e''}, Everywhere P e.selects → e.Edited d p e' →
    e'.Edited d' p' e'' → e.Edited d'' p e''
  | .ident _, _, _, _, .ident hi, .ident hi' => .ident (hd.ident hi hi')
  | .literal l, _, _, _, .literal _, .literal _ => .literal l
  | .marker _, _, _, _, .marker hm, .marker hm' => .marker (hd.mark hm hm')
  | .named _, _, _, _, .named hm, .named hm' => .named (hd.mark hm hm')
  | .named _, _, _, _, .named hm, .replaced hm' => .replaced (hd.mark hm hm')
  | .named _, _, _, _, .replaced hm, .marker hm' => .replaced (hd.mark hm hm')
  | .call name distinct args, _, _, hP, .call _ _ h, .call _ _ h' =>
    .call name distinct (ExprsEdited.trans args hP h h')
  | .list items, _, _, hP, .list h, .list h' => .list (ExprsEdited.trans items hP h h')
  | .arith op l r, _, _, hP, .arith _ hl hr, .arith _ hl' hr' =>
    .arith op (Expr.Edited.trans l hP.left hl hl') (Expr.Edited.trans r hP.right hr hr')
  | .compare op l r, _, _, hP, .compare _ hl hr, .compare _ hl' hr' =>
    .compare op (Expr.Edited.trans l hP.left hl hl') (Expr.Edited.trans r hP.right hr hr')
  | .logic op l r, _, _, hP, .logic _ hl hr, .logic _ hl' hr' =>
    .logic op (Expr.Edited.trans l hP.left hl hl') (Expr.Edited.trans r hP.right hr hr')
  | .unary op e, _, _, hP, .unary _ h, .unary _ h' => .unary op (Expr.Edited.trans e hP h h')
  | .case o bs e, _, _, hP, .case ho hbs he, .case ho' hbs' he' =>
    .case (OptEdited.trans o hP.left.left ho ho') (BranchesEdited.trans bs hP.left.right hbs hbs')
      (OptEdited.trans e hP.right he he')
  | .subquery s, _, _, hP, .subquery h, .subquery h' => .subquery (Select.Edited.trans s hP h h')
termination_by structural e => e
theorem ExprsEdited.trans {p p'} : ∀ (es : List Expr) {es' es''}, Everywhere P (exprsSelects es) →
    ExprsEdited d p es es' → ExprsEdited d' p' es' es'' → ExprsEdited d'' p es es''
  | [], _, _, _, .nil, .nil => .nil
  | e :: es, _, _, hP, .cons he hes, .cons he' hes' =>
    .cons (Expr.Edited.trans e hP.left he he') (ExprsEdited.trans es hP.right hes hes')
termination_by structural es => es
theorem OptEdited.trans {p p'} : ∀ (o : Option Expr) {o' o''}, Everywhere P (optSelects o) →
    OptEdited d p o o' → OptEdited d' p' o' o'' → OptEdited d'' p o o''
  | none, _, _, _, .none, .none => .none
  | some e, _, _, hP, .some he, .some he' => .some (Expr.Edited.trans e hP he he')
termination_by structural o => o
theorem BranchesEdited.trans {p p'} : ∀ (bs : List Branch) {bs' bs''}, Everywhere P (branchesSelects bs) →
    BranchesEdited d p bs bs' → BranchesEdited d' p' bs' bs'' → BranchesEdited d'' p bs bs''
  | [], _, _, _, .nil, .nil => .nil
  | ⟨c, r⟩ :: bs, _, _, hP, .cons hc hr hbs, .cons hc' hr' hbs' =>
    .cons (Expr.Edited.trans c hP.left.left hc hc') (Expr.Edited.trans r hP.left.right hr hr')
      (BranchesEdited.trans bs hP.right hbs hbs')
termination_by structural bs => bs
theorem FieldsEdited.trans {p p'} : ∀ (fs : List ResultField) {fs' fs''}, Everywhere P (fieldsSelects fs) →
    FieldsEdited d p fs fs' → FieldsEdited d' p' fs' fs'' → FieldsEdited d'' p fs fs''
  | [], _, _, _, .nil, .nil => .nil
  | ⟨e, label⟩ :: fs, _, _, hP, .keep _ he hfs, .keep _ he' hfs' =>
    .keep label (Expr.Edited.trans e hP.left he he') (FieldsEdited.trans fs hP.right hfs hfs')
  | ⟨e, _⟩ :: fs, _, _, hP, .keep _ he hfs, .expand hx hfs' =>
    .expand (hd.expandLater he hx) (FieldsEdited.trans fs hP.right hfs hfs')
  | ⟨e, _⟩ :: fs, _, _, hP, .expand hx hfs, h' => by
    obtain ⟨xs', fs', rfl, hxs, hfs'⟩ := h'.split
    exact .expand (hd.expandSooner hx hxs) (FieldsEdited.trans fs hP.right hfs hfs')
termination_by structural fs => fs
theorem OrdersEdited.trans {p p'} : ∀ (os : List OrderItem) {os' os''}, Everywhere P (ordersSelects os) →
    OrdersEdited d p os os' → OrdersEdited d' p' os' os'' → OrdersEdited d'' p os os''
  | [], _, _, _, .nil, .nil => .nil
  | ⟨e, a⟩ :: os, _, _, hP, .cons _ he hos, .cons _ he' hos' =>
    .cons a (Expr.Edited.trans e hP.left he he') (OrdersEdited.trans os hP.right hos hos')
termination_by structural os => os
theorem Table.Edited.trans {joined} : ∀ (t : Table) {t' t''}, Everywhere P t.selects →
    t.Edited d joined t' → t'.Edited d' joined t'' → t.Edited d'' joined t''
  | .named _ _, _, _, _, .named ht, .named ht' => .named (hd.table ht ht')
  | .derived s label, _, _, hP, .derived _ ha hs, .derived _ ha' hs' =>
    .derived label (hd.alone (hP s s.self_mem_selects) ha ha') (Select.Edited.trans s hP hs hs')
termination_by structural t => t
theorem OptTableEdited.trans : ∀ (t : Option Table) {t' t''}, Everywhere P (optTableSelects t) →
    OptTableEdited d t t' → OptTableEdited d' t' t'' → OptTableEdited d'' t t''
  | none, _, _, _, .none, .none => .none
  | some t, _, _, hP, .some ht, .some ht' => .some (Table.Edited.trans t hP ht ht')
termination_by structural t => t
theorem JoinsEdited.trans {p p'} : ∀ (js : List Join) {js' js''}, Everywhere P (joinsSelects js) →
    JoinsEdited d p js js' → JoinsEdited d' p' js' js'' → JoinsEdited d'' p js js''
  | [], _, _, _, .nil, .nil => .nil
  | ⟨_, t, c, _⟩ :: js, _, _, hP, .keep hkeep ht hc hjs, .keep hkeep' ht' hc' hjs' =>
    .keep (hd.keep hkeep hkeep' hc.isSome_eq) (Table.Edited.trans t hP.left.left ht ht')
      (OptEdited.trans c hP.left.right hc hc') (JoinsEdited.trans js hP.right hjs hjs')
  | ⟨_, t, c, _⟩ :: js, _, _, hP, .keep hkeep ht hc hjs, .complete ht' hnew hjs' =>
    .complete (Table.Edited.trans t hP.left.left ht ht') (hd.later hnew hc.isSome_eq)
      (JoinsEdited.trans js hP.right hjs hjs')
  | ⟨_, t, c, _⟩ :: js, _, _, hP, .complete ht hnew hjs, h' => by
    obtain ⟨new', js', rfl, hnew', hjs'⟩ := h'.split
    obtain ⟨t', ht', hcomplete⟩ := hd.sooner hnew hnew'
    exact .complete (Table.Edited.trans t hP.left.left ht ht') hcomplete (JoinsEdited.trans js hP.right hjs hjs')
termination_by structural js => js
theorem UnionsEdited.trans : ∀ (us : List UnionPart) {us' us''}, Everywhere P (unionsSelects us) →
    UnionsEdited d us us' → UnionsEdited d' us' us'' → UnionsEdited d'' us us''
  | [], _, _, _, .nil, .nil => .nil
  | ⟨all, s⟩ :: us, _, _, hP, .cons _ ha hs hus, .cons _ ha' hs' hus' =>
    .cons all (hd.alone (hP.left s s.self_mem_selects) ha ha') (Select.Edited.trans s hP.left hs hs')
      (UnionsEdited.trans us hP.right hus hus')
termination_by structural us => us
theorem Select.Edited.trans {visible visible'} : ∀ (s : Select) {s' s''}, Everywhere P s.selects →
    s.Edited d visible s' → s'.Edited d' visible' s'' → s.Edited d'' visible s''
  | ⟨_, fs, t, js, c, gs, hv, os, l, o, us, f⟩, _, _, hP,
      .mk hfs ht hjs hc hgs hhv hos hl ho hus hf, .mk hfs' ht' hjs' hc' hgs' hhv' hos' hl' ho' hus' hf' => by
    simp only [Everywhere, Select.selects, List.cons_append, List.forall_mem_cons, List.forall_mem_append] at hP
    obtain ⟨-, ⟨⟨⟨⟨⟨⟨⟨⟨Pfs, Pt⟩, Pjs⟩, Pc⟩, Pgs⟩, Phv⟩, Pos⟩, Pl⟩, Po⟩, Pus⟩ := hP
    exact .mk (FieldsEdited.trans fs Pfs hfs hfs') (OptTableEdited.trans t Pt ht ht')
      (JoinsEdited.trans js Pjs hjs hjs') (OptEdited.trans c Pc hc hc') (ExprsEdited.trans gs Pgs hgs hgs')
      (OptEdited.trans hv Phv hhv hhv') (OrdersEdited.trans os Pos hos hos') (OptEdited.trans l Pl hl hl')
      (OptEdited.trans o Po ho ho') (UnionsEdited.trans us Pus hus hus') (hd.facts hf hf')
termination_by structural s => s
end

theorem AssignmentsEdited.trans : ∀ {as as' as'' : List Assignment} {p p' : Spot},
    Everywhere P (as.flatMap fun a => a.target.selects ++ a.value.selects) → AssignmentsEdited d p as as' →
    AssignmentsEdited d' p' as' as'' → AssignmentsEdited d'' p as as''
  | [], _, _, _, _, _, .nil, .nil => .nil
  | ⟨t, v⟩ :: as, _, _, _, _, hP, .cons ht hv has, .cons ht' hv' has' => by
    rw [List.flatMap_cons] at hP
    exact .cons (Expr.Edited.trans hd t hP.left.left ht ht') (Expr.Edited.trans hd v hP.left.right hv hv')
      (AssignmentsEdited.trans hP.right has has')

theorem InsertSource.Edited.trans {p p' : Spot} : ∀ {s s' s'' : InsertSource}, Everywhere P s.selects →
    s.Edited d p s' → s'.Edited d' p' s'' → s.Edited d'' p s''
  | .values rows, _, _, hP, .values hrows, .values hrows' => .values (ExprsEdited.trans hd rows hP hrows hrows')
  | .select s, _, _, hP, .select ha hs, .select ha' hs' =>
    .select (hd.alone (hP s s.self_mem_selects) ha ha') (Select.Edited.trans hd s hP hs hs')

/-- **Two edits make one.** -/
theorem Query.Edited.trans {q q' q'' : Query} (hP : ∀ s ∈ q.selects, P s) (h : q.Edited d q')
    (h' : q'.Edited d' q'') : q.Edited d'' q'' := by
  cases h with
  | select hs => cases h' with
    | select hs' => exact .select (Select.Edited.trans hd _ hP hs hs')
  | insert ht hcs hs hfs hf => cases h' with
    | insert ht' hcs' hs' hfs' hf' =>
      simp only [Query.selects, List.forall_mem_append] at hP
      obtain ⟨⟨⟨Pt, Pcs⟩, Ps⟩, Pfs⟩ := hP
      exact .insert (Table.Edited.trans hd _ Pt ht ht') (ExprsEdited.trans hd _ Pcs hcs hcs')
        (InsertSource.Edited.trans hd Ps hs hs') (FieldsEdited.trans hd _ Pfs hfs hfs') (hd.facts hf hf')
  | update ht has hc hos hl ho hf => cases h' with
    | update ht' has' hc' hos' hl' ho' hf' =>
      simp only [Query.selects, List.forall_mem_append] at hP
      obtain ⟨⟨⟨⟨⟨Pt, Pas⟩, Pc⟩, Pos⟩, Pl⟩, Po⟩ := hP
      exact .update (Table.Edited.trans hd _ Pt ht ht') (AssignmentsEdited.trans hd Pas has has')
        (OptEdited.trans hd _ Pc hc hc') (OrdersEdited.trans hd _ Pos hos hos')
        (OptEdited.trans hd _ Pl hl hl') (OptEdited.trans hd _ Po ho ho') (hd.facts hf hf')
  | delete ht hc hos hl ho hf => cases h' with
    | delete ht' hc' hos' hl' ho' hf' =>
      simp only [Query.selects, List.forall_mem_append] at hP
      obtain ⟨⟨⟨⟨Pt, Pc⟩, Pos⟩, Pl⟩, Po⟩ := hP
      exact .delete (Table.Edited.trans hd _ Pt ht ht') (OptEdited.trans hd _ Pc hc hc')
        (OrdersEdited.trans hd _ Pos hos hos') (OptEdited.trans hd _ Pl hl hl')
        (OptEdited.trans hd _ Po ho ho') (hd.facts hf hf')

end

end EntitySql
