import Mathlib
import EntitySql.Proofs.Formed

/-!
# Parts of queries that the vocabulary leaves open

The vocabulary of a text says which names and literals it is made of, but not what they are used for.
`Query.parts` lists the functions, comparisons, aliases and relation paths of a query, in the order of its
text. Together with the vocabulary they decide which checks a query passes that was read from a text.

* `Query.Shaped.formed`: a query of a vocabulary passes the checks that the vocabulary and its parts meet.
* `Query.Formed.relabel`: the check of aliases may be replaced by another that they pass.
-/

namespace EntitySql

/-- A part of a query. -/
inductive Part where
  | function (name : String)
  | comparison (op : CompareOp)
  | label (name : String)
  /-- The path of a join. -/
  | path (path : RelationPath)
  deriving DecidableEq

/-- The alias as a part. -/
def labelParts (label : Option String) : List Part := label.toList.map .label

mutual
def Expr.parts : Expr → List Part
  | .ident _ | .literal _ | .marker _ | .named _ => []
  | .call name _ args => .function name :: exprsParts args
  | .list items => exprsParts items
  | .arith _ l r | .logic _ l r => l.parts ++ r.parts
  | .compare op l r => .comparison op :: l.parts ++ r.parts
  | .unary _ e => e.parts
  | .case operand bs otherwise => optParts operand ++ branchesParts bs ++ optParts otherwise
  | .subquery s => s.parts
def exprsParts : List Expr → List Part
  | [] => []
  | e :: es => e.parts ++ exprsParts es
def optParts : Option Expr → List Part
  | none => []
  | some e => e.parts
def branchesParts : List Branch → List Part
  | [] => []
  | ⟨c, r⟩ :: bs => c.parts ++ r.parts ++ branchesParts bs
def fieldsParts : List ResultField → List Part
  | [] => []
  | ⟨e, a⟩ :: fs => e.parts ++ labelParts a ++ fieldsParts fs
def ordersParts : List OrderItem → List Part
  | [] => []
  | ⟨e, _⟩ :: os => e.parts ++ ordersParts os
def Table.parts : Table → List Part
  | .named _ a => labelParts a
  | .derived s a => s.parts ++ labelParts a
def optTableParts : Option Table → List Part
  | none => []
  | some t => t.parts
def joinsParts : List Join → List Part
  | [] => []
  | ⟨_, t, condition, path⟩ :: js => t.parts ++ path.toList.map .path ++ optParts condition ++ joinsParts js
def unionsParts : List UnionPart → List Part
  | [] => []
  | ⟨_, s⟩ :: us => s.parts ++ unionsParts us
def Select.parts : Select → List Part
  | ⟨_, fields, source, joins, criteria, grouping, having, ordering, limit, offset, unions, _⟩ =>
    fieldsParts fields ++ optTableParts source ++ joinsParts joins ++ optParts criteria
      ++ exprsParts grouping ++ optParts having ++ ordersParts ordering ++ optParts limit
      ++ optParts offset ++ unionsParts unions
end

def InsertSource.parts : InsertSource → List Part
  | .values rows => exprsParts rows
  | .select s => s.parts

/-- The functions, comparisons, aliases and paths of a query. -/
def Query.parts : Query → List Part
  | .select s => s.parts
  | .insert i => i.table.parts ++ exprsParts i.columns ++ i.source.parts ++ fieldsParts i.returning
  | .update u => u.table.parts ++ u.assignments.flatMap (fun a => a.target.parts ++ a.value.parts)
      ++ optParts u.criteria ++ ordersParts u.ordering ++ optParts u.limit ++ optParts u.offset
  | .delete d => d.table.parts ++ optParts d.criteria ++ ordersParts d.ordering ++ optParts d.limit
      ++ optParts d.offset

theorem exprsParts_of_mem {Q : Part → Prop} {es : List Expr} {e : Expr} (he : e ∈ es)
    (hQ : ∀ x ∈ exprsParts es, Q x) : ∀ x ∈ e.parts, Q x := by
  induction es with
  | nil => cases he
  | cons e₁ es ih =>
    rw [exprsParts, List.forall_mem_append] at hQ
    rcases List.mem_cons.mp he with rfl | he
    · exact hQ.1
    · exact ih he hQ.2

/-! ## From vocabularies to checks -/

/-- What is read from a text of the vocabulary, and has parts that satisfy `Q`, passes the checks. -/
structure Vocabulary.Meets (V : Vocabulary) (Q : Part → Prop) (c : Checks) : Prop where
  ident : ∀ {s}, V.name s ∨ s = "*" → c.ident { value := s } := by intros; trivial
  target : ∀ {s}, V.name s → c.target { value := s } := by intros; trivial
  literal : ∀ {l}, V.literal l → c.literal l := by intros; trivial
  mark : ∀ m, c.mark m := by intros; trivial
  call : ∀ {name}, V.call name → Q (.function name) → c.call name := by intros; trivial
  compare : ∀ {op}, Q (.comparison op) → c.compare op := by intros; trivial
  label : ∀ {a}, V.word a → Q (.label a) → c.label a := by intros; trivial
  table : ∀ {joined name}, V.name name →
    (joined = true → ∀ path, RelationPath.ofName? name = some path → Q (.path path)) →
    c.table joined name := by intros; trivial
  join : ∀ {conditional path}, (conditional = false → path ≠ none) → (∀ p, path = some p → Q (.path p)) →
    c.join conditional path := by intros; trivial
  sources : c.sources {} := by trivial
  fields : ∀ {fs}, fs ≠ [] → c.fields {} fs := by intros; trivial

section

variable {V : Vocabulary} {Q : Part → Prop} {c : Checks} (h : V.Meets Q c)

include h

set_option linter.unusedSectionVars false

theorem LabelShaped.formed {label : Option String} (hs : LabelShaped V label)
    (hQ : ∀ x ∈ labelParts label, Q x) : LabelFormed c label := by
  rintro a rfl
  exact h.label (hs a rfl) (hQ _ List.mem_cons_self)

mutual
theorem Expr.Shaped.formed : ∀ e : Expr, e.Shaped V → (∀ x ∈ e.parts, Q x) → e.Formed c
  | .ident ⟨s, r⟩, hs, _ => by
    obtain ⟨hname, rfl⟩ := hs
    exact h.ident hname
  | .literal _, hs, _ => h.literal hs
  | .marker _, _, _ | .named _, _, _ => h.mark _
  | .call _ _ args, hs, hQ => by
    rw [Expr.parts, List.forall_mem_cons] at hQ
    exact ⟨h.call hs.1 hQ.1, ExprsShaped.formed args hs.2 hQ.2⟩
  | .list items, hs, hQ => ⟨hs.1, ExprsShaped.formed items hs.2 hQ⟩
  | .arith _ l r, hs, hQ => by
    rw [Expr.parts, List.forall_mem_append] at hQ
    exact ⟨Expr.Shaped.formed l hs.1 hQ.1, Expr.Shaped.formed r hs.2 hQ.2⟩
  | .logic _ l r, hs, hQ => by
    rw [Expr.parts, List.forall_mem_append] at hQ
    exact ⟨Expr.Shaped.formed l hs.1 hQ.1, Expr.Shaped.formed r hs.2 hQ.2⟩
  | .compare _ l r, hs, hQ => by
    rw [Expr.parts, List.cons_append, List.forall_mem_cons, List.forall_mem_append] at hQ
    exact ⟨h.compare hQ.1, Expr.Shaped.formed l hs.1 hQ.2.1,
      fun hm => Expr.Shaped.formed r (hs.2.1 hm) hQ.2.2,
      fun hm => ⟨Expr.Member.formed r (hs.2.2 hm).1 hQ.2.2, (hs.2.2 hm).2⟩⟩
  | .unary .not e, hs, hQ => (Expr.Shaped.formed e hs hQ :)
  | .unary .negate e, hs, hQ => ⟨Expr.Shaped.formed e hs.1 hQ, hs.2⟩
  | .case o bs e, hs, hQ => by
    simp only [Expr.parts, List.forall_mem_append] at hQ
    exact ⟨OptShaped.formed o hs.1 hQ.1.1, hs.2.1, BranchesShaped.formed bs hs.2.2.1 hQ.1.2,
      OptShaped.formed e hs.2.2.2 hQ.2⟩
  | .subquery s, hs, hQ => Select.Shaped.formed s hs hQ
theorem Expr.Member.formed : ∀ e : Expr, e.Member V → (∀ x ∈ e.parts, Q x) → e.FormedMember c
  | .list items, hs, hQ => ⟨hs.1, hs.2.1, ExprsShaped.formed items hs.2.2 hQ⟩
  | .subquery s, hs, hQ => Select.Shaped.formed s hs hQ
  | .arith _ l r, hs, hQ => by
    rw [Expr.parts, List.forall_mem_append] at hQ
    exact ⟨Expr.Member.formed l hs.1 hQ.1, hs.2.1, Expr.Shaped.formed r hs.2.2 hQ.2⟩
theorem ExprsShaped.formed : ∀ es : List Expr, ExprsShaped V es → (∀ x ∈ exprsParts es, Q x) →
    ExprsFormed c es
  | [], _, _ => trivial
  | e :: es, hs, hQ => by
    rw [exprsParts, List.forall_mem_append] at hQ
    exact ⟨Expr.Shaped.formed e hs.1 hQ.1, ExprsShaped.formed es hs.2 hQ.2⟩
theorem OptShaped.formed : ∀ o : Option Expr, OptShaped V o → (∀ x ∈ optParts o, Q x) → OptFormed c o
  | none, _, _ => trivial
  | some e, hs, hQ => Expr.Shaped.formed e hs hQ
theorem BranchesShaped.formed : ∀ bs : List Branch, BranchesShaped V bs →
    (∀ x ∈ branchesParts bs, Q x) → BranchesFormed c bs
  | [], _, _ => trivial
  | ⟨cond, r⟩ :: bs, hs, hQ => by
    simp only [branchesParts, List.forall_mem_append] at hQ
    exact ⟨Expr.Shaped.formed cond hs.1 hQ.1.1, Expr.Shaped.formed r hs.2.1 hQ.1.2,
      BranchesShaped.formed bs hs.2.2 hQ.2⟩
theorem FieldsShaped.formed : ∀ fs : List ResultField, FieldsShaped V fs →
    (∀ x ∈ fieldsParts fs, Q x) → FieldsFormed c fs
  | [], _, _ => trivial
  | ⟨e, _⟩ :: fs, hs, hQ => by
    simp only [fieldsParts, List.forall_mem_append] at hQ
    exact ⟨Expr.Shaped.formed e hs.1 hQ.1.1, LabelShaped.formed h hs.2.1 hQ.1.2,
      FieldsShaped.formed fs hs.2.2 hQ.2⟩
theorem OrdersShaped.formed : ∀ os : List OrderItem, OrdersShaped V os →
    (∀ x ∈ ordersParts os, Q x) → OrdersFormed c os
  | [], _, _ => trivial
  | ⟨e, _⟩ :: os, hs, hQ => by
    rw [ordersParts, List.forall_mem_append] at hQ
    exact ⟨Expr.Shaped.formed e hs.1 hQ.1, OrdersShaped.formed os hs.2 hQ.2⟩
theorem Table.Shaped.formed {joined : Bool} : ∀ t : Table, t.Shaped V → (∀ x ∈ t.parts, Q x) →
    (joined = true → ∀ path, t.name?.bind RelationPath.ofName? = some path → Q (.path path)) →
    t.Formed c joined
  | .named _ _, hs, hQ, hpath => ⟨h.table hs.1 hpath, LabelShaped.formed h hs.2 hQ⟩
  | .derived s _, hs, hQ, _ => by
    rw [Table.parts, List.forall_mem_append] at hQ
    exact ⟨Select.Shaped.formed s hs.1 hQ.1, LabelShaped.formed h hs.2 hQ.2⟩
theorem OptTableShaped.formed : ∀ t : Option Table, OptTableShaped V t → (∀ x ∈ optTableParts t, Q x) →
    OptTableFormed c t
  | none, _, _ => trivial
  | some t, hs, hQ => Table.Shaped.formed t hs hQ nofun
theorem JoinsShaped.formed : ∀ js : List Join, JoinsShaped V js → (∀ x ∈ joinsParts js, Q x) →
    JoinsFormed c js
  | [], _, _ => trivial
  | ⟨_, t, cond, path⟩ :: js, ⟨ht, hc, hpath, hone, hjs⟩, hQ => by
    simp only [joinsParts, List.forall_mem_append] at hQ
    have hpaths : ∀ p, path = some p → Q (.path p) := by
      rintro p rfl
      exact hQ.1.1.2 _ List.mem_cons_self
    refine ⟨Table.Shaped.formed t ht hQ.1.1.1 fun _ p hp => hpaths p (hpath.trans hp),
      OptShaped.formed cond hc hQ.1.2, h.join (fun hnone => hone ?_) hpaths, JoinsShaped.formed js hjs hQ.2⟩
    simpa using hnone
theorem UnionsShaped.formed : ∀ us : List UnionPart, UnionsShaped V us → (∀ x ∈ unionsParts us, Q x) →
    UnionsFormed c us
  | [], _, _ => trivial
  | ⟨_, s⟩ :: us, hs, hQ => by
    rw [unionsParts, List.forall_mem_append] at hQ
    exact ⟨Select.Shaped.formed s hs.1 hQ.1, hs.2.1, UnionsShaped.formed us hs.2.2 hQ.2⟩
theorem Select.Shaped.formed : ∀ s : Select, s.Shaped V → (∀ x ∈ s.parts, Q x) → s.Formed c
  | ⟨_, fs, t, js, cond, gs, hv, os, l, o, us, f⟩,
      ⟨hne, hfs, ht, hjs, hc, hgs, hhv, hos, hl, ho, hus, hfacts⟩, hQ => by
    subst hfacts
    simp only [Select.parts, List.forall_mem_append] at hQ
    obtain ⟨⟨⟨⟨⟨⟨⟨⟨⟨qfs, qt⟩, qjs⟩, qc⟩, qgs⟩, qhv⟩, qos⟩, ql⟩, qo⟩, qus⟩ := hQ
    exact ⟨FieldsShaped.formed fs hfs qfs, OptTableShaped.formed t ht qt, JoinsShaped.formed js hjs qjs,
      OptShaped.formed cond hc qc, ExprsShaped.formed gs hgs qgs, OptShaped.formed hv hhv qhv,
      OrdersShaped.formed os hos qos, OptShaped.formed l hl ql, OptShaped.formed o ho qo,
      UnionsShaped.formed us hus qus, h.sources, h.fields hne⟩
end

theorem Expr.NameShaped.formed {e : Expr} (hs : e.NameShaped V) : e.TargetFormed c := by
  obtain ⟨s, hname, rfl⟩ := hs
  exact ⟨_, rfl, h.target hname⟩

theorem InsertSource.Shaped.formed : ∀ {s : InsertSource}, s.Shaped V → (∀ x ∈ s.parts, Q x) → s.Formed c
  | .values rows, hs, hQ => by
    refine ⟨hs.1, fun r hr => ?_⟩
    obtain ⟨items, rfl, hne, hitems⟩ := hs.2 r hr
    exact ⟨items, rfl, hne, ExprsShaped.formed h items hitems (exprsParts_of_mem hr hQ)⟩
  | .select s, hs, hQ => Select.Shaped.formed h s hs hQ

/-- **A query that is read from a text passes the checks** that the vocabulary of the text and its parts
meet. -/
theorem Query.Shaped.formed {q : Query} (hs : q.Shaped V) (hQ : ∀ x ∈ q.parts, Q x)
    (hinto : ∀ i, q = .insert i → c.into i.table) : q.Formed c := by
  cases q with
  | select s => exact Select.Shaped.formed h s hs hQ
  | insert i =>
    simp only [Query.parts, List.forall_mem_append] at hQ
    exact ⟨Table.Shaped.formed h _ hs.table hQ.1.1.1 nofun, hinto i rfl,
      fun e he => (hs.columns e he).formed h, hs.source.formed h hQ.1.2,
      FieldsShaped.formed h _ hs.returning hQ.2, hs.facts ▸ h.sources⟩
  | update u =>
    simp only [Query.parts, List.forall_mem_append, List.mem_flatMap] at hQ
    obtain ⟨⟨⟨⟨⟨qt, qas⟩, qc⟩, qos⟩, ql⟩, qo⟩ := hQ
    exact ⟨Table.Shaped.formed h _ hs.table qt nofun, hs.nonempty,
      fun a ha => ⟨(hs.assignments a ha).1.formed h, Expr.Shaped.formed h _ (hs.assignments a ha).2
        fun x hx => qas x ⟨a, ha, List.mem_append_right _ hx⟩⟩,
      OptShaped.formed h _ hs.criteria qc, OrdersShaped.formed h _ hs.ordering qos,
      OptShaped.formed h _ hs.limit ql, OptShaped.formed h _ hs.offset qo, hs.facts ▸ h.sources⟩
  | delete x =>
    simp only [Query.parts, List.forall_mem_append] at hQ
    obtain ⟨⟨⟨⟨qt, qc⟩, qos⟩, ql⟩, qo⟩ := hQ
    exact ⟨Table.Shaped.formed h _ hs.table qt nofun, OptShaped.formed h _ hs.criteria qc,
      OrdersShaped.formed h _ hs.ordering qos, OptShaped.formed h _ hs.limit ql,
      OptShaped.formed h _ hs.offset qo, hs.facts ▸ h.sources⟩

end

/-! ## Other checks of aliases -/

/-- The part is an alias that satisfies `P`, or no alias. -/
def Part.Labels (P : String → Prop) : Part → Prop
  | label a => P a
  | _ => True

instance (P : String → Prop) [DecidablePred P] : DecidablePred (Part.Labels P)
  | .label a => inferInstanceAs (Decidable (P a))
  | .function _ | .comparison _ | .path _ => inferInstanceAs (Decidable True)

/-- The same checks, with another of aliases. -/
def Checks.relabel (P : String → Prop) (c : Checks) : Checks where
  __ := c
  label := P

section

variable {c : Checks} {P : String → Prop}

theorem LabelFormed.relabel {label : Option String} (hP : ∀ x ∈ labelParts label, x.Labels P) :
    LabelFormed (c.relabel P) label := by
  rintro a rfl
  exact hP _ List.mem_cons_self

mutual
theorem Expr.Formed.relabel : ∀ e : Expr, e.Formed c → (∀ x ∈ e.parts, x.Labels P) →
    e.Formed (c.relabel P)
  | .ident _, h, _ | .literal _, h, _ | .marker _, h, _ | .named _, h, _ => h
  | .call _ _ args, h, hP => by
    rw [Expr.parts, List.forall_mem_cons] at hP
    exact ⟨h.1, ExprsFormed.relabel args h.2 hP.2⟩
  | .list items, h, hP => ⟨h.1, ExprsFormed.relabel items h.2 hP⟩
  | .arith _ l r, h, hP | .logic _ l r, h, hP => by
    rw [Expr.parts, List.forall_mem_append] at hP
    exact ⟨Expr.Formed.relabel l h.1 hP.1, Expr.Formed.relabel r h.2 hP.2⟩
  | .compare _ l r, ⟨hop, hl, hno, hyes⟩, hP => by
    rw [Expr.parts, List.cons_append, List.forall_mem_cons, List.forall_mem_append] at hP
    exact ⟨hop, Expr.Formed.relabel l hl hP.2.1, fun hm => Expr.Formed.relabel r (hno hm) hP.2.2,
      fun hm => ⟨Expr.FormedMember.relabel r (hyes hm).1 hP.2.2, (hyes hm).2⟩⟩
  | .unary .not e, h, hP => (Expr.Formed.relabel e h hP :)
  | .unary .negate e, h, hP => ⟨Expr.Formed.relabel e h.1 hP, h.2⟩
  | .case o bs e, ⟨ho, hne, hbs, he⟩, hP => by
    simp only [Expr.parts, List.forall_mem_append] at hP
    exact ⟨OptFormed.relabel o ho hP.1.1, hne, BranchesFormed.relabel bs hbs hP.1.2,
      OptFormed.relabel e he hP.2⟩
  | .subquery s, h, hP => Select.Formed.relabel s h hP
theorem Expr.FormedMember.relabel : ∀ e : Expr, e.FormedMember c → (∀ x ∈ e.parts, x.Labels P) →
    e.FormedMember (c.relabel P)
  | .list items, h, hP => ⟨h.1, h.2.1, ExprsFormed.relabel items h.2.2 hP⟩
  | .subquery s, h, hP => Select.Formed.relabel s h hP
  | .arith _ l r, h, hP => by
    rw [Expr.parts, List.forall_mem_append] at hP
    exact ⟨Expr.FormedMember.relabel l h.1 hP.1, h.2.1, Expr.Formed.relabel r h.2.2 hP.2⟩
theorem ExprsFormed.relabel : ∀ es : List Expr, ExprsFormed c es → (∀ x ∈ exprsParts es, x.Labels P) →
    ExprsFormed (c.relabel P) es
  | [], _, _ => trivial
  | e :: es, h, hP => by
    rw [exprsParts, List.forall_mem_append] at hP
    exact ⟨Expr.Formed.relabel e h.1 hP.1, ExprsFormed.relabel es h.2 hP.2⟩
theorem OptFormed.relabel : ∀ o : Option Expr, OptFormed c o → (∀ x ∈ optParts o, x.Labels P) →
    OptFormed (c.relabel P) o
  | none, _, _ => trivial
  | some e, h, hP => Expr.Formed.relabel e h hP
theorem BranchesFormed.relabel : ∀ bs : List Branch, BranchesFormed c bs →
    (∀ x ∈ branchesParts bs, x.Labels P) → BranchesFormed (c.relabel P) bs
  | [], _, _ => trivial
  | ⟨cond, r⟩ :: bs, h, hP => by
    simp only [branchesParts, List.forall_mem_append] at hP
    exact ⟨Expr.Formed.relabel cond h.1 hP.1.1, Expr.Formed.relabel r h.2.1 hP.1.2,
      BranchesFormed.relabel bs h.2.2 hP.2⟩
theorem FieldsFormed.relabel : ∀ fs : List ResultField, FieldsFormed c fs →
    (∀ x ∈ fieldsParts fs, x.Labels P) → FieldsFormed (c.relabel P) fs
  | [], _, _ => trivial
  | ⟨e, _⟩ :: fs, h, hP => by
    simp only [fieldsParts, List.forall_mem_append] at hP
    exact ⟨Expr.Formed.relabel e h.1 hP.1.1, .relabel hP.1.2, FieldsFormed.relabel fs h.2.2 hP.2⟩
theorem OrdersFormed.relabel : ∀ os : List OrderItem, OrdersFormed c os →
    (∀ x ∈ ordersParts os, x.Labels P) → OrdersFormed (c.relabel P) os
  | [], _, _ => trivial
  | ⟨e, _⟩ :: os, h, hP => by
    rw [ordersParts, List.forall_mem_append] at hP
    exact ⟨Expr.Formed.relabel e h.1 hP.1, OrdersFormed.relabel os h.2 hP.2⟩
theorem Table.Formed.relabel {joined : Bool} : ∀ t : Table, t.Formed c joined →
    (∀ x ∈ t.parts, x.Labels P) → t.Formed (c.relabel P) joined
  | .named _ _, h, hP => ⟨h.1, .relabel hP⟩
  | .derived s _, h, hP => by
    rw [Table.parts, List.forall_mem_append] at hP
    exact ⟨Select.Formed.relabel s h.1 hP.1, .relabel hP.2⟩
theorem OptTableFormed.relabel : ∀ t : Option Table, OptTableFormed c t →
    (∀ x ∈ optTableParts t, x.Labels P) → OptTableFormed (c.relabel P) t
  | none, _, _ => trivial
  | some t, h, hP => Table.Formed.relabel t h hP
theorem JoinsFormed.relabel : ∀ js : List Join, JoinsFormed c js → (∀ x ∈ joinsParts js, x.Labels P) →
    JoinsFormed (c.relabel P) js
  | [], _, _ => trivial
  | ⟨_, t, cond, _⟩ :: js, ⟨ht, hcond, hjoin, hjs⟩, hP => by
    simp only [joinsParts, List.forall_mem_append] at hP
    exact ⟨Table.Formed.relabel t ht hP.1.1.1, OptFormed.relabel cond hcond hP.1.2, hjoin,
      JoinsFormed.relabel js hjs hP.2⟩
theorem UnionsFormed.relabel : ∀ us : List UnionPart, UnionsFormed c us →
    (∀ x ∈ unionsParts us, x.Labels P) → UnionsFormed (c.relabel P) us
  | [], _, _ => trivial
  | ⟨_, s⟩ :: us, h, hP => by
    rw [unionsParts, List.forall_mem_append] at hP
    exact ⟨Select.Formed.relabel s h.1 hP.1, h.2.1, UnionsFormed.relabel us h.2.2 hP.2⟩
theorem Select.Formed.relabel : ∀ s : Select, s.Formed c → (∀ x ∈ s.parts, x.Labels P) →
    s.Formed (c.relabel P)
  | ⟨_, fs, t, js, cond, gs, hv, os, l, o, us, _⟩,
      ⟨hfs, ht, hjs, hcond, hgs, hhv, hos, hl, ho, hus, hsources⟩, hP => by
    simp only [Select.parts, List.forall_mem_append] at hP
    obtain ⟨⟨⟨⟨⟨⟨⟨⟨⟨pfs, pt⟩, pjs⟩, pc⟩, pgs⟩, phv⟩, pos⟩, pl⟩, po⟩, pus⟩ := hP
    exact ⟨FieldsFormed.relabel fs hfs pfs, OptTableFormed.relabel t ht pt, JoinsFormed.relabel js hjs pjs,
      OptFormed.relabel cond hcond pc, ExprsFormed.relabel gs hgs pgs, OptFormed.relabel hv hhv phv,
      OrdersFormed.relabel os hos pos, OptFormed.relabel l hl pl, OptFormed.relabel o ho po,
      UnionsFormed.relabel us hus pus, hsources⟩
end

theorem InsertSource.Formed.relabel {s : InsertSource} (h : s.Formed c) (hP : ∀ x ∈ s.parts, x.Labels P) :
    s.Formed (c.relabel P) := by
  cases s with
  | values rows =>
    refine ⟨h.1, fun r hr => ?_⟩
    obtain ⟨items, rfl, hne, hitems⟩ := h.2 r hr
    exact ⟨items, rfl, hne, ExprsFormed.relabel items hitems (exprsParts_of_mem hr hP)⟩
  | select s => exact Select.Formed.relabel s h hP

/-- **The check of aliases may be replaced** by one that all aliases of the query pass. -/
theorem Query.Formed.relabel {q : Query} (h : q.Formed c) (hP : ∀ x ∈ q.parts, x.Labels P) :
    q.Formed (c.relabel P) := by
  cases q with
  | select s => exact Select.Formed.relabel s h hP
  | insert i =>
    simp only [Query.parts, List.forall_mem_append] at hP
    exact ⟨Table.Formed.relabel _ h.table hP.1.1.1, h.into, h.columns, h.source.relabel hP.1.2,
      FieldsFormed.relabel _ h.returning hP.2, h.sources⟩
  | update u =>
    simp only [Query.parts, List.forall_mem_append, List.mem_flatMap] at hP
    obtain ⟨⟨⟨⟨⟨pt, pas⟩, pc⟩, pos⟩, pl⟩, po⟩ := hP
    exact ⟨Table.Formed.relabel _ h.table pt, h.nonempty,
      fun a ha => ⟨(h.assignments a ha).1, Expr.Formed.relabel _ (h.assignments a ha).2
        fun x hx => pas x ⟨a, ha, List.mem_append_right _ hx⟩⟩,
      OptFormed.relabel _ h.criteria pc, OrdersFormed.relabel _ h.ordering pos,
      OptFormed.relabel _ h.limit pl, OptFormed.relabel _ h.offset po, h.sources⟩
  | delete x =>
    simp only [Query.parts, List.forall_mem_append] at hP
    obtain ⟨⟨⟨⟨pt, pc⟩, pos⟩, pl⟩, po⟩ := hP
    exact ⟨Table.Formed.relabel _ h.table pt, OptFormed.relabel _ h.criteria pc,
      OrdersFormed.relabel _ h.ordering pos, OptFormed.relabel _ h.limit pl,
      OptFormed.relabel _ h.offset po, h.sources⟩

end

end EntitySql
