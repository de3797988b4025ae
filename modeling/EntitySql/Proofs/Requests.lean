import Mathlib
import EntitySql.Proofs.Assembled

/-!
# Requests and what becomes of them

A draft is made by requests, one after the other, and then built. A request stands in the statement that is
built, a later one has taken its place, or the statement takes no such requests. Of the last, some are
refused, and then nothing is built; the others are ignored without a word (`Statement.ignores`).

* `Draft.Has`: a request is kept in the draft, also by the requests after it.
* **`Draft.build_holds`**: what is built holds every request that is neither ignored nor replaced, and is
  the same without those that are ignored.
* `Draft.unheard_join`: a delete is built although a join was requested.
-/

namespace EntitySql

/-- A request to a draft. -/
inductive Request where
  | label (name : String)
  | distinct
  | fields (texts : List String)
  | join (j : DraftJoin)
  | filter (cs : List Condition)
  | order (text : String)
  | limit (n : Nat)
  | offset (n : Nat)
  | row (row : List (String × Value))
  | assign (property : String) (v : Value)
  | returning (texts : List String)

namespace Draft

/-- The draft after a request. -/
def take (d : Draft) : Request → Draft
  | .label name => { d with label := some name }
  | .distinct => { d with distinct := true }
  | .fields texts => d.addFields texts
  | .join j => d.addJoin j
  | .filter cs => d.addFilter cs
  | .order text => d.addOrder text
  | .limit n => { d with limit := some n }
  | .offset n => { d with offset := some n }
  | .row row => d.addRow row
  | .assign property v => d.assign property v
  | .returning texts => d.addReturning texts

/-- The draft of a statement over an entity after requests. -/
def ofRequests (statement : Statement) (entity : String) (rs : List Request) : Draft :=
  rs.foldl take { statement, entity }

end Draft

/-- The second request takes the place of the first. -/
def Request.replacedBy : Request → Request → Bool
  | .label _, .label _ | .limit _, .limit _ | .offset _, .offset _ => true
  | .assign property _, .assign property' _ => property == property'
  | _, _ => false

/-- The requests of which a statement takes no notice. -/
def Statement.ignores : Statement → Request → Bool
  | .select, .returning _ => true
  | .insert, .distinct | .insert, .fields _ | .insert, .assign .. => true
  | .update, .distinct | .update, .fields _ | .update, .join _ => true
  | .delete, .distinct | .delete, .fields _ | .delete, .join _ | .delete, .returning _ => true
  | _, _ => false

/-! ## Requests in a draft -/

namespace Pairs

variable {α : Type}

theorem self_mem_insert (key : String) (v : α) (m : List (String × α)) : (key, v) ∈ insert key v m := by
  induction m with
  | nil => exact List.mem_singleton_self _
  | cons p m ih =>
    obtain ⟨k, w⟩ := p
    unfold insert
    split
    · next hk =>
      subst hk
      exact List.mem_cons_self
    · exact List.mem_cons_of_mem _ ih

theorem mem_insert_of_ne {key key' : String} (hne : key ≠ key') {v v' : α} {m : List (String × α)}
    (h : (key, v) ∈ m) : (key, v) ∈ insert key' v' m := by
  induction m with
  | nil => cases h
  | cons p m ih =>
    obtain ⟨k, w⟩ := p
    unfold insert
    split
    · next hk =>
      rcases List.mem_cons.mp h with heq | h
      · cases heq
        exact absurd hk hne
      · exact List.mem_cons_of_mem _ h
    · rcases List.mem_cons.mp h with heq | h
      · exact heq ▸ List.mem_cons_self
      · exact List.mem_cons_of_mem _ (ih h)

end Pairs

namespace Draft

/-- A request is kept in a draft. -/
def Has (d : Draft) : Request → Prop
  | .label name => d.label = some name
  | .distinct => d.distinct = true
  | .fields texts => texts ⊆ d.fields
  | .join j => j ∈ d.joins
  | .filter cs => cs ∈ d.filters
  | .order text => text ∈ d.ordering
  | .limit n => d.limit = some n
  | .offset n => d.offset = some n
  | .row row => row ∈ d.rows
  | .assign property v => (property, v) ∈ d.assignments
  | .returning texts => texts ⊆ d.returning

theorem has_take (d : Draft) (r : Request) : (d.take r).Has r := by
  cases r with
  | label | distinct | limit | offset => rfl
  | fields | returning => exact List.subset_append_right _ _
  | join | filter | order | row => exact List.mem_append_right _ (List.mem_singleton_self _)
  | assign property v => exact Pairs.self_mem_insert property v d.assignments

/-- **A request stays in the draft** until another takes its place. -/
theorem Has.take {d : Draft} {r r' : Request} (h : d.Has r) (hr : r.replacedBy r' = false) :
    (d.take r').Has r := by
  cases r with
  | label => cases r' <;> first | exact h | cases hr
  | limit => cases r' <;> first | exact h | cases hr
  | offset => cases r' <;> first | exact h | cases hr
  | distinct => cases r' <;> first | exact h | rfl
  | fields => cases r' <;> first | exact h | exact List.subset_append_of_subset_left _ h
  | returning => cases r' <;> first | exact h | exact List.subset_append_of_subset_left _ h
  | join => cases r' <;> first | exact h | exact List.mem_append_left _ h
  | filter => cases r' <;> first | exact h | exact List.mem_append_left _ h
  | order => cases r' <;> first | exact h | exact List.mem_append_left _ h
  | row => cases r' <;> first | exact h | exact List.mem_append_left _ h
  | assign =>
    cases r' with
    | assign => exact Pairs.mem_insert_of_ne (beq_eq_false_iff_ne.mp hr) h
    | _ => exact h

theorem Has.foldl {d : Draft} {r : Request} {rs : List Request} (h : d.Has r)
    (hrs : ∀ r' ∈ rs, r.replacedBy r' = false) : (rs.foldl Draft.take d).Has r := by
  induction rs generalizing d with
  | nil => exact h
  | cons r' rs ih =>
    obtain ⟨hr', hrs⟩ := List.forall_mem_cons.mp hrs
    exact ih (h.take hr') hrs

theorem statement_foldl (rs : List Request) (d : Draft) : (rs.foldl take d).statement = d.statement := by
  induction rs generalizing d with
  | nil => rfl
  | cons r rs ih =>
    refine (ih (d.take r)).trans ?_
    cases r <;> rfl

end Draft

/-! ## Requests in a statement -/

/-- An expression that is joined with others by connectives. -/
inductive Expr.Operand (e : Expr) : Expr → Prop where
  | self : Operand e e
  | left (op : LogicOp) {l : Expr} (r : Expr) : Operand e l → Operand e (.logic op l r)
  | right (op : LogicOp) (l : Expr) {r : Expr} : Operand e r → Operand e (.logic op l r)

theorem Assembly.Joined.operand {es : List Expr} {o : Option Expr} (h : Joined es o) :
    ∀ e ∈ es, ∃ c, o = some c ∧ e.Operand c := by
  induction h with
  | nil => exact List.forall_mem_nil _
  | single e => exact List.forall_mem_singleton.mpr ⟨e, rfl, .self⟩
  | logic op _ _ ihl ihr =>
    refine List.forall_mem_append.mpr ⟨fun e he => ?_, fun e he => ?_⟩
    · obtain ⟨c, hc, hoperand⟩ := ihl e he
      cases hc
      exact ⟨_, rfl, .left op _ hoperand⟩
    · obtain ⟨c, hc, hoperand⟩ := ihr e he
      cases hc
      exact ⟨_, rfl, .right op _ hoperand⟩

namespace Query

/-- The alias of the table that the statement is about. -/
def label? : Query → Option String
  | .select s => s.source.bind Table.label
  | .insert i => i.table.label
  | .update u => u.table.label
  | .delete d => d.table.label

def isDistinct : Query → Bool
  | .select s => s.distinct
  | _ => false

/-- The select list. -/
def selected : Query → List ResultField
  | .select s => s.fields
  | _ => []

def joined : Query → List Join
  | .select s => s.joins
  | _ => []

def restriction? : Query → Option Expr
  | .select s => s.criteria
  | .insert _ => none
  | .update u => u.criteria
  | .delete d => d.criteria

def ordered : Query → List OrderItem
  | .select s => s.ordering
  | .insert _ => []
  | .update u => u.ordering
  | .delete d => d.ordering

def limit? : Query → Option Expr
  | .select s => s.limit
  | .insert _ => none
  | .update u => u.limit
  | .delete d => d.limit

def offset? : Query → Option Expr
  | .select s => s.offset
  | .insert _ => none
  | .update u => u.offset
  | .delete d => d.offset

/-- The columns that are inserted into. -/
def inserted : Query → List Expr
  | .insert i => i.columns
  | _ => []

/-- The rows that are inserted. -/
def rows : Query → List Expr
  | .insert { source := .values rows, .. } => rows
  | _ => []

theorem rows_insert {i : Insert} {rows : List Expr} (h : i.source = .values rows) :
    (insert i).rows = rows := by
  obtain ⟨table, columns, source, returning, facts⟩ := i
  cases h
  rfl

def assigned : Query → List Assignment
  | .update u => u.assignments
  | _ => []

def returned : Query → List ResultField
  | .insert i => i.returning
  | _ => []

end Query

namespace Built

/-- The values stand among the arguments, from index `n` on. -/
def Carries (b : Built) (n : Nat) (new : List Value) : Prop := new <+: b.arguments.drop n

theorem carries_of_prefix {b : Built} {before new : List Value} (h : before ++ new <+: b.arguments) :
    b.Carries before.length new := by
  obtain ⟨after, hafter⟩ := h
  refine ⟨after, ?_⟩
  rw [← hafter, List.append_assoc, List.drop_left]

/-- A request stands in the clause of the statement that it asks for. What a filter tests, and what is
inserted or assigned, refers to the arguments. -/
def Holds (b : Built) : Request → Prop
  | .label name => b.query.label? = some name
  | .distinct => b.query.isDistinct = true
  | .fields texts => ∀ text ∈ texts, ∃ f ∈ b.query.selected, Parse.detached Grammar.field text = .ok f
  | .join j => ∃ x ∈ b.query.joined, j.Means x
  | .filter cs => ∀ c ∈ testsOf cs, ∃ n e new, Assembly.Means n c e new ∧ b.Carries n new
      ∧ ∃ criteria, b.query.restriction? = some criteria ∧ e.Operand criteria
  | .order text => ∃ o ∈ b.query.ordered, Parse.detached Grammar.order text = .ok o
  | .limit n => b.query.limit? = some (.rowCount n)
  | .offset n => b.query.offset? = some (.rowCount n)
  | .row row => ∃ columns n new, b.query.inserted = columns.map Expr.name
      ∧ ∃ e ∈ b.query.rows, Assembly.RowMeans columns n row e new ∧ b.Carries n new
  | .assign property v => ∃ n, ⟨.name property, .argument n⟩ ∈ b.query.assigned ∧ b.Carries n [v]
  | .returning texts => ∀ text ∈ texts, ∃ f ∈ b.query.returned, Parse.detached Grammar.field text = .ok f

end Built

theorem exists_of_forall₂ {α β : Type} {R : α → β → Prop} {as : List α} {bs : List β}
    (h : List.Forall₂ R as bs) {a : α} (ha : a ∈ as) : ∃ b ∈ bs, R a b := by
  induction h with
  | nil => cases ha
  | cons hhead _ ih =>
    rcases List.mem_cons.mp ha with rfl | ha
    · exact ⟨_, List.mem_cons_self, hhead⟩
    · obtain ⟨b, hb, hR⟩ := ih ha
      exact ⟨b, List.mem_cons_of_mem _ hb, hR⟩

namespace Draft

variable {d : Draft} {b : Built}

theorem Restricts.holds {vs : List Value} {o : Option Expr} (h : d.Restricts vs o b.arguments)
    (ho : b.query.restriction? = o) {cs : List Condition} (hcs : cs ∈ d.filters) : b.Holds (.filter cs) := by
  obtain ⟨es, hchain, hjoined⟩ := h
  intro c hc
  obtain ⟨e, he, before, new, hmeans, hlead⟩ := hchain.exists_mem (List.mem_flatMap.mpr ⟨cs, hcs, hc⟩)
  exact ⟨_, e, new, hmeans, Built.carries_of_prefix hlead, ho ▸ hjoined.operand e he⟩

section Pages

variable (hpages : d.Pages b.query.ordered b.query.limit? b.query.offset?)

include hpages

theorem Pages.order {text : String} (h : d.Has (.order text)) : b.Holds (.order text) :=
  exists_of_forall₂ hpages.ordering h

theorem Pages.limited {n : Nat} (h : d.Has (.limit n)) : b.Holds (.limit n) :=
  hpages.limit.trans (congrArg (Option.map Expr.rowCount) (show d.limit = some n from h))

theorem Pages.skipped {n : Nat} (h : d.Has (.offset n)) : b.Holds (.offset n) :=
  hpages.offset.trans (congrArg (Option.map Expr.rowCount) (show d.offset = some n from h))

end Pages

/-- A built statement holds the requests of its draft that it does not ignore. Those that it refuses are not
in the draft. -/
theorem Builds.holds (h : d.Builds [] b.query b.arguments) {r : Request} (hr : d.Has r)
    (hheard : d.statement.ignores r = false) : b.Holds r := by
  obtain ⟨q, arguments⟩ := b
  cases h with
  | select hstatement hs =>
    rw [hstatement] at hheard
    cases r with
    | label =>
      refine (congrArg (·.bind Table.label) hs.source).trans ?_
      exact hr
    | distinct => exact hs.distinct.trans hr
    | fields texts =>
      intro text htext
      rcases hs.fields with ⟨hnone, -⟩ | hfields
      · exact absurd hnone (List.ne_nil_of_mem (hr htext))
      · exact exists_of_forall₂ hfields (hr htext)
    | join => exact exists_of_forall₂ hs.joins hr
    | filter => exact hs.criteria.holds rfl hr
    | order => exact Pages.order hs.pages hr
    | limit => exact Pages.limited hs.pages hr
    | offset => exact Pages.skipped hs.pages hr
    | row => exact absurd hs.rows (List.ne_nil_of_mem hr)
    | assign => exact absurd hs.assignments (List.ne_nil_of_mem hr)
    | returning => cases hheard
  | insert hstatement hi =>
    rw [hstatement] at hheard
    cases r with
    | label => exact (congrArg Table.label hi.table).trans hr
    | filter => exact absurd hi.filters (List.ne_nil_of_mem hr)
    | join => exact absurd hi.joins (List.ne_nil_of_mem hr)
    | order => exact absurd hi.ordering (List.ne_nil_of_mem hr)
    | limit => exact nomatch hi.limit.symm.trans hr
    | offset => exact nomatch hi.offset.symm.trans hr
    | row row =>
      obtain ⟨first, rest, rows, -, hcolumns, hsource, hchain⟩ := hi.rows
      obtain ⟨e, he, before, new, hmeans, hlead⟩ := hchain.exists_mem hr
      refine ⟨_, _, new, hcolumns, e, ?_, hmeans, Built.carries_of_prefix hlead⟩
      rwa [Query.rows_insert hsource]
    | returning => exact fun text htext => exists_of_forall₂ hi.returning (hr htext)
    | distinct | fields | assign => cases hheard
  | update hstatement hu =>
    rw [hstatement] at hheard
    obtain ⟨us, hassignments, hcriteria⟩ := hu.clauses
    cases r with
    | label => exact (congrArg Table.label hu.table).trans hr
    | filter => exact hcriteria.holds rfl hr
    | order => exact Pages.order hu.pages hr
    | limit => exact Pages.limited hu.pages hr
    | offset => exact Pages.skipped hu.pages hr
    | row => exact absurd hu.rows (List.ne_nil_of_mem hr)
    | assign property v =>
      obtain ⟨a, ha, before, new, ⟨rfl, rfl⟩, hlead⟩ := hassignments.exists_mem hr
      obtain ⟨es, hchain, -⟩ := hcriteria
      exact ⟨_, ha, Built.carries_of_prefix (hlead.trans hchain.isPrefix)⟩
    | returning texts =>
      intro text htext
      exact absurd hu.returning (List.ne_nil_of_mem (hr htext))
    | distinct | fields | join => cases hheard
  | delete hstatement hx =>
    rw [hstatement] at hheard
    cases r with
    | label => exact (congrArg Table.label hx.table).trans hr
    | filter => exact hx.criteria.holds rfl hr
    | order => exact Pages.order hx.pages hr
    | limit => exact Pages.limited hx.pages hr
    | offset => exact Pages.skipped hx.pages hr
    | row => exact absurd hx.rows (List.ne_nil_of_mem hr)
    | assign => exact absurd hx.assignments (List.ne_nil_of_mem hr)
    | distinct | fields | join | returning => cases hheard

/-! ## Ignored requests -/

/-- The draft without all that its statement ignores. -/
def heard (d : Draft) : Draft :=
  match d.statement with
  | .select => { d with returning := [] }
  | .insert => { d with distinct := false, fields := [], assignments := [] }
  | .update => { d with distinct := false, fields := [], joins := [] }
  | .delete => { d with distinct := false, fields := [], joins := [], returning := [] }

theorem build_heard (d : Draft) : d.heard.build = d.build := by
  obtain ⟨statement, _⟩ := d
  cases statement <;> rfl

theorem heard_take_of_ignores {d : Draft} {r : Request} (h : d.statement.ignores r = true) :
    (d.take r).heard = d.heard := by
  obtain ⟨statement, _⟩ := d
  cases statement <;> cases r <;> first | rfl | cases h

theorem heard_take {d d' : Draft} (h : d.heard = d'.heard) (r : Request) :
    (d.take r).heard = (d'.take r).heard := by
  have hown : ∀ d : Draft, (d.take r).heard = (d.heard.take r).heard := by
    rintro ⟨statement, _⟩
    cases statement <;> cases r <;> rfl
  rw [hown, h, ← hown]

theorem heard_foldl {d d' : Draft} (h : d.heard = d'.heard) (rs : List Request) :
    (rs.foldl take d).heard = (rs.foldl take d').heard := by
  induction rs generalizing d d' with
  | nil => exact h
  | cons r rs ih => exact ih (heard_take h r)

/-- **Requests are held, refused or ignored.** A statement that is built holds each request that it does not
ignore, unless a later request took its place. Without one that it ignores the same is built. -/
theorem build_holds {statement : Statement} {entity : String} {before after : List Request} {r : Request}
    (h : (ofRequests statement entity (before ++ r :: after)).build = .ok b) :
    (statement.ignores r = false → (∀ r' ∈ after, r.replacedBy r' = false) → b.Holds r)
      ∧ (statement.ignores r = true → (ofRequests statement entity (before ++ after)).build = .ok b) := by
  have hsplit : ofRequests statement entity (before ++ r :: after)
      = after.foldl take ((ofRequests statement entity before).take r) := List.foldl_append
  have hstatement : (ofRequests statement entity before).statement = statement := statement_foldl before _
  refine ⟨fun hheard hkept => ?_, fun hignored => ?_⟩
  · refine (build_eq_ok h).holds ?_ ((congrArg (Statement.ignores · r) (statement_foldl _ _)).trans hheard)
    rw [hsplit]
    exact (has_take _ r).foldl hkept
  · rw [← h, ← build_heard, ← build_heard (ofRequests _ _ (before ++ r :: after)), hsplit, ofRequests,
      List.foldl_append]
    exact congrArg build (heard_foldl (heard_take_of_ignores (hstatement.symm ▸ hignored)).symm after)

/-- Of an update, the last value for a property and a filter are held, and a join is ignored. -/
theorem build_holds_rename : ∃ b,
    (ofRequests .update "User" [.label "u", .assign "name" (.string "Ann"), .join ⟨.inner, "u.team", "t", none⟩,
      .filter [.field "u.age >=" (.int 18), .connective .or, .group [.field "u.team" .null]],
      .assign "name" (.string "Bo")]).build = .ok b
    ∧ b.Holds (.filter [.field "u.age >=" (.int 18), .connective .or, .group [.field "u.team" .null]])
    ∧ b.Holds (.assign "name" (.string "Bo"))
    ∧ (ofRequests .update "User" [.label "u", .assign "name" (.string "Ann"),
        .filter [.field "u.age >=" (.int 18), .connective .or, .group [.field "u.team" .null]],
        .assign "name" (.string "Bo")]).build = .ok b := by
  obtain ⟨b, hb⟩ : ∃ b, (ofRequests .update "User" [.label "u", .assign "name" (.string "Ann"),
      .join ⟨.inner, "u.team", "t", none⟩,
      .filter [.field "u.age >=" (.int 18), .connective .or, .group [.field "u.team" .null]],
      .assign "name" (.string "Bo")]).build = .ok b := ⟨_, rfl⟩
  refine ⟨b, hb, ?_, ?_, ?_⟩
  · exact (@build_holds b .update "User" [_, _, _] [_] _ hb).1 rfl (by simp [Request.replacedBy])
  · exact (@build_holds b .update "User" [_, _, _, _] [] _ hb).1 rfl (by simp)
  · exact (@build_holds b .update "User" [_, _] [_, _] _ hb).2 rfl

/-- **A delete ignores a join** that was requested. -/
theorem unheard_join : ∃ b,
    (ofRequests .delete "Order" [.label "o", .join ⟨.inner, "o.customer", "c", none⟩,
      .filter [.field "o.status" (.string "void")]]).build = .ok b
    ∧ ¬ b.Holds (.join ⟨.inner, "o.customer", "c", none⟩) := by
  refine ⟨_, rfl, ?_⟩
  rintro ⟨x, hx, -⟩
  cases hx

end Draft

end EntitySql
