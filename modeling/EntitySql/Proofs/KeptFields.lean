import Mathlib
import EntitySql.Proofs.DerivedColumns
import EntitySql.Proofs.Isolation

/-!
# Fields on their way to their columns

The first four passes keep the blocks of a query in order, and the fields of each block: aliases stay, and
so does the `frame` of an expression, which is all of it but its names and subqueries. The first three
passes leave the names alone too, and the fourth resolves them. Only the filters of relations bring new
blocks in, and these are read and resolved like the others.

What is no wildcard does not become one, unless an entity has a column that ends in a `*`. A derived table
may have such a column under such an alias, but no name reaches it: it would be a wildcard itself.

* `Query.Named.resolves`: the blocks after the first four passes.
-/

namespace EntitySql

open Outcome

/-! ## Expressions without names and subqueries -/

mutual
/-- The expression with its names and subqueries blanked out. -/
def Expr.frame : Expr → Expr
  | .ident _ => .name ""
  | .literal l => .literal l
  | .marker m => .marker m
  | .named m => .named m
  | .call name distinct args => .call name distinct (exprsFrame args)
  | .list items => .list (exprsFrame items)
  | .arith op l r => .arith op l.frame r.frame
  | .compare op l r => .compare op l.frame r.frame
  | .logic op l r => .logic op l.frame r.frame
  | .unary op e => .unary op e.frame
  | .case operand bs otherwise => .case (optFrame operand) (branchesFrame bs) (optFrame otherwise)
  | .subquery _ => .subquery default
def exprsFrame : List Expr → List Expr
  | [] => []
  | e :: es => e.frame :: exprsFrame es
def optFrame : Option Expr → Option Expr
  | none => none
  | some e => some e.frame
def branchesFrame : List Branch → List Branch
  | [] => []
  | ⟨c, r⟩ :: bs => ⟨c.frame, r.frame⟩ :: branchesFrame bs
end

mutual
/-- The names of an expression in order, without those of its subqueries. -/
def Expr.idents : Expr → List Identifier
  | .ident i => [i]
  | .literal _ | .marker _ | .named _ | .subquery _ => []
  | .call _ _ args => exprsIdents args
  | .list items => exprsIdents items
  | .arith _ l r | .compare _ l r | .logic _ l r => l.idents ++ r.idents
  | .unary _ e => e.idents
  | .case operand bs otherwise => optIdents operand ++ branchesIdents bs ++ optIdents otherwise
def exprsIdents : List Expr → List Identifier
  | [] => []
  | e :: es => e.idents ++ exprsIdents es
def optIdents : Option Expr → List Identifier
  | none => []
  | some e => e.idents
def branchesIdents : List Branch → List Identifier
  | [] => []
  | ⟨c, r⟩ :: bs => c.idents ++ r.idents ++ branchesIdents bs
end

/-- A frame stays what it is, while the names in it are edited in order. -/
structure Edit.Keeps (d : Edit) (p : Spot) {α : Type} (a a' : α) (is is' : List Identifier) : Prop where
  frame : a' = a
  idents : List.Forall₂ (d.ident p) is is'

section

variable {d : Edit} {p : Spot} {α β γ : Type} {a a' : α} {b b' : β} {is is' js js' : List Identifier}

theorem Edit.Keeps.map (h : d.Keeps p a a' is is') (f : α → β) : d.Keeps p (f a) (f a') is is' :=
  ⟨congrArg f h.frame, h.idents⟩

theorem Edit.Keeps.map₂ (h : d.Keeps p a a' is is') (h' : d.Keeps p b b' js js') (f : α → β → γ) :
    d.Keeps p (f a b) (f a' b') (is ++ js) (is' ++ js') :=
  ⟨congrArg₂ f h.frame h'.frame, List.rel_append h.idents h'.idents⟩

variable (hmark : ∀ {m m'}, d.mark m m' → m' = m)

include hmark

set_option linter.unusedSectionVars false

mutual
/-- An edit that leaves markers alone keeps the frame of an expression, and edits its names in order. -/
theorem Expr.Edited.keeps : ∀ (e : Expr) {e'}, e.Edited d p e' → d.Keeps p e.frame e'.frame e.idents e'.idents
  | .ident _, _, .ident hi => ⟨rfl, .cons hi .nil⟩
  | .literal _, _, .literal _ | .subquery _, _, .subquery _ => ⟨rfl, .nil⟩
  | .marker _, _, .marker hm | .named _, _, .named hm => by
    cases hmark hm
    exact ⟨rfl, .nil⟩
  | .named _, _, .replaced hm => by cases hmark hm
  | .call name distinct args, _, .call _ _ hargs => (ExprsEdited.keeps args hargs).map (Expr.call name distinct)
  | .list items, _, .list hitems => (ExprsEdited.keeps items hitems).map Expr.list
  | .arith op l r, _, .arith _ hl hr => (Expr.Edited.keeps l hl).map₂ (Expr.Edited.keeps r hr) (Expr.arith op)
  | .compare op l r, _, .compare _ hl hr => (Expr.Edited.keeps l hl).map₂ (Expr.Edited.keeps r hr) (Expr.compare op)
  | .logic op l r, _, .logic _ hl hr => (Expr.Edited.keeps l hl).map₂ (Expr.Edited.keeps r hr) (Expr.logic op)
  | .unary op e, _, .unary _ he => (Expr.Edited.keeps e he).map (Expr.unary op)
  | .case o bs e, _, .case ho hbs he =>
    ((OptEdited.keeps o ho).map₂ (BranchesEdited.keeps bs hbs) Expr.case).map₂ (OptEdited.keeps e he) fun f e => f e
theorem ExprsEdited.keeps : ∀ (es : List Expr) {es'}, ExprsEdited d p es es' →
    d.Keeps p (exprsFrame es) (exprsFrame es') (exprsIdents es) (exprsIdents es')
  | [], _, .nil => ⟨rfl, .nil⟩
  | e :: es, _, .cons he hes => (Expr.Edited.keeps e he).map₂ (ExprsEdited.keeps es hes) List.cons
theorem OptEdited.keeps : ∀ (o : Option Expr) {o'}, OptEdited d p o o' →
    d.Keeps p (optFrame o) (optFrame o') (optIdents o) (optIdents o')
  | none, _, .none => ⟨rfl, .nil⟩
  | some e, _, .some he => (Expr.Edited.keeps e he).map some
theorem BranchesEdited.keeps : ∀ (bs : List Branch) {bs'}, BranchesEdited d p bs bs' →
    d.Keeps p (branchesFrame bs) (branchesFrame bs') (branchesIdents bs) (branchesIdents bs')
  | [], _, .nil => ⟨rfl, .nil⟩
  | ⟨c, r⟩ :: bs, _, .cons hc hr hbs =>
    ((Expr.Edited.keeps c hc).map₂ (Expr.Edited.keeps r hr) Branch.mk).map₂ (BranchesEdited.keeps bs hbs) List.cons
end

end

/-! ## Fields -/

/-- The second field is the first with other subqueries, and with other names that are related by `R`. -/
structure ResultField.Keeps (R : Identifier → Identifier → Prop) (f f' : ResultField) : Prop where
  label : f'.label = f.label
  frame : f'.expr.frame = f.expr.frame
  idents : List.Forall₂ R f.expr.idents f'.expr.idents

namespace ResultField.Keeps

variable {R : Identifier → Identifier → Prop} {f f' f'' : ResultField}

theorem mono {S : Identifier → Identifier → Prop} (h : f.Keeps R f') (hRS : ∀ i i', R i i' → S i i') :
    f.Keeps S f' :=
  ⟨h.label, h.frame, h.idents.imp hRS⟩

theorem idents_eq (h : f.Keeps Eq f') : f'.expr.idents = f.expr.idents := by
  have hidents := h.idents
  rw [List.forall₂_eq_eq_eq] at hidents
  exact hidents.symm

/-- Names that stay may stay before others are changed, -/
theorem before (h : f.Keeps Eq f') (h' : f'.Keeps R f'') : f.Keeps R f'' :=
  ⟨h'.label.trans h.label, h'.frame.trans h.frame, h.idents_eq ▸ h'.idents⟩

/-- or after it. -/
theorem after (h : f.Keeps R f') (h' : f'.Keeps Eq f'') : f.Keeps R f'' :=
  ⟨h'.label.trans h.label, h'.frame.trans h.frame, h'.idents_eq.symm ▸ h.idents⟩

/-- A field that is a name keeps being one. -/
theorem ident {i : Identifier} {label : Option String} (h : ResultField.Keeps R ⟨.ident i, label⟩ f') :
    ∃ i', f' = ⟨.ident i', label⟩ ∧ R i i' := by
  obtain ⟨e', label'⟩ := f'
  obtain ⟨rfl, hframe, hidents⟩ := h
  cases e' with
  | ident i' =>
    cases hidents with
    | cons hi => exact ⟨i', rfl, hi⟩
  | _ => cases hframe

end ResultField.Keeps

theorem FieldsEdited.keeps {d : Edit} (hmark : ∀ {m m'}, d.mark m m' → m' = m)
    (hexpand : ∀ {p f xs}, ¬ d.expand p f xs) {p : Spot} : ∀ {fs fs' : List ResultField},
    FieldsEdited d p fs fs' → List.Forall₂ (ResultField.Keeps (d.ident p)) fs fs'
  | [], _, .nil => .nil
  | ⟨e, _⟩ :: _, _, .keep _ he hfs => by
    obtain ⟨hframe, hidents⟩ := he.keeps hmark
    exact .cons ⟨rfl, hframe, hidents⟩ (hfs.keeps hmark hexpand)
  | _ :: _, _, .expand hx _ => absurd hx hexpand

/-! ## Blocks that keep their fields -/

/-- The fields of the second block are those of the first but for their subqueries, and no results are
added. -/
structure Block.Stays (b b' : Block) : Prop where
  fields : List.Forall₂ (ResultField.Keeps Eq) b.fields b'.fields
  results : b'.facts.results = b.facts.results

theorem Block.Stays.trans {b b' b'' : Block} (h : b.Stays b') (h' : b'.Stays b'') : b.Stays b'' :=
  ⟨forall₂_comp (fun _ _ _ hf hf' => hf.before hf') h.fields h'.fields, h'.results.trans h.results⟩

theorem Block.Edited.stays {d : Edit} (hident : ∀ {p i i'}, d.ident p i i' → i' = i)
    (hmark : ∀ {m m'}, d.mark m m' → m' = m) (hexpand : ∀ {p f xs}, ¬ d.expand p f xs)
    (hfacts : ∀ {ts f f'}, d.facts ts f f' → f'.results = f.results) {b b' : Block} (h : b.Edited d b') :
    b.Stays b' := by
  obtain ⟨-, ⟨v, around, -, hfields⟩, hf⟩ := h
  exact ⟨(hfields.keeps hmark hexpand).imp fun _ _ hf => hf.mono fun _ _ hi => (hident hi).symm, hfacts hf⟩

/-! ### Filters -/

namespace Joins

mutual
theorem selects_qualify {label : String} : ∀ e : Expr, (qualify label e).selects = e.selects
  | .ident i => by
    rw [qualify]
    split <;> rfl
  | .literal _ | .marker _ | .named _ | .subquery _ => rfl
  | .call _ _ args => (selects_qualifyAll args :)
  | .list items => (selects_qualifyAll items :)
  | .arith _ l r | .compare _ l r | .logic _ l r => by
    rw [qualify, Expr.selects, Expr.selects, selects_qualify l, selects_qualify r]
  | .unary _ e => (selects_qualify e :)
  | .case o bs e => by
    rw [qualify, Expr.selects, Expr.selects, selects_qualifyOpt o, selects_qualifyBranches bs,
      selects_qualifyOpt e]
theorem selects_qualifyAll {label : String} : ∀ es, exprsSelects (qualifyAll label es) = exprsSelects es
  | [] => rfl
  | e :: es => by rw [qualifyAll, exprsSelects, exprsSelects, selects_qualify e, selects_qualifyAll es]
theorem selects_qualifyOpt {label : String} : ∀ o, optSelects (qualifyOpt label o) = optSelects o
  | none => rfl
  | some e => selects_qualify e
theorem selects_qualifyBranches {label : String} :
    ∀ bs, branchesSelects (qualifyBranches label bs) = branchesSelects bs
  | [] => rfl
  | ⟨c, r⟩ :: bs => by
    rw [qualifyBranches, branchesSelects, branchesSelects, selects_qualify c, selects_qualify r,
      selects_qualifyBranches bs]
end

end Joins

/-- The select stands in a filter of the schema, as it is read. -/
def Schema.HasInFilter (schema : Schema) (s : Select) : Prop :=
  ∃ text ∈ schema.filters, ∃ x, Expr.ofDetached text = .ok x ∧ s ∈ x.selects

namespace Joins

/-- The select comes from a filter of the schema. -/
def Inserted (schema : Schema) (s : Select) : Prop := ∃ s₀, schema.HasInFilter s₀ ∧ s₀.block.Stays s.block

variable {schema : Schema}

theorem stays_of_edited {A : Entity → Bool} {K : String → Expr → Prop} {L : Select → Select → Prop} {b b' : Block}
    (h : b.Edited (edit schema A K L) b') : b.Stays b' :=
  Block.Edited.stays (d := edit schema A K L) id id id Facts.Gains.results h

/-- What is made of a filter holds no selects but those of filters, to any depth. -/
theorem yields_inserted : ∀ budget,
    FilterYields schema.has (fun _ x => ∀ s ∈ x.selects, Inserted schema s) (filter schema budget)
  | 0, _, _, _, _, _, _, _, h => by cases h
  | budget + 1, _, _, _, r, _, hscopes, hr, h => by
    intro s hs
    have hedited := (makes (L := fun _ _ => True) (yields_inserted budget) fun _ => trivial).edited_expr r ⟨[], false⟩
      hscopes (strangers_of_restricts hr) h
    rcases (hedited.stems (inserts_filters fun _ _ hx => hx)).exists_of_mem s hs with
      ⟨s₀, hs₀, visible, hselect⟩ | hinserted
    · obtain ⟨⟨source, name, hsource, hrel⟩, text, x₀, htext, hx₀, rfl⟩ := hr
      rw [selects_qualify] at hs₀
      have hmem : text ∈ schema.filters := Schema.mem_filters (of_decide_eq_true hsource) hrel htext
      exact ⟨s₀, ⟨text, hmem, x₀, hx₀, hs₀⟩,
        stays_of_edited (hselect.block (inserts_filters fun _ _ hx => hx))⟩
    · exact hinserted

end Joins

/-! ## Columns that are no wildcards -/

/-- No column of an entity ends in a `*`. -/
def Schema.Starless (schema : Schema) : Prop :=
  ∀ e ∈ schema.entities, ∀ c ∈ partColumns e.properties, Text.lastSegment c ≠ "*"

instance (schema : Schema) : Decidable schema.Starless :=
  inferInstanceAs (Decidable (∀ e ∈ schema.entities, ∀ c ∈ partColumns e.properties, Text.lastSegment c ≠ "*"))

/-- The column of the property ends in a `*` only if its path does. -/
def Property.StarlessAt (path : String) (p : Property) : Prop :=
  Text.lastSegment p.column = "*" → Text.lastSegment path = "*"

def Source.Starless (s : Source) : Prop := ∀ path p, s.Declares path p → p.StarlessAt path

/-- What a name without wildcard means has a column that does not end in a `*`. -/
theorem Lookup.starless_of_find {value : String} {scopes : List Facts} {m : FieldMatch}
    (hs : ∀ s ∈ sources scopes, s.Starless) (h : find value scopes = .ok (some m))
    (hvalue : Text.lastSegment value ≠ "*") : Text.lastSegment m.property.column ≠ "*" := by
  obtain ⟨hdecl, hcases⟩ := find_eq_some h
  have hpath : Text.lastSegment value = Text.lastSegment m.path := by
    rcases hcases with ⟨-, q, hvalue, -⟩ | ⟨-, hvalue, -⟩
    · rw [hvalue, Text.lastSegment_qualified]
    · rw [hvalue]
  intro hstar
  exact hvalue (hpath.trans (hs _ (mem_sources_of_find h) _ _ hdecl hstar))

/-- A property without parts declares itself only. -/
theorem Declared.eq_of_leaf {name path : String} {p q : Property} (h : Declared [(name, q)] path p)
    (hparts : q.parts = []) : path = name ∧ p = q := by
  rcases h.singleton with ⟨rfl, rfl⟩ | ⟨sub, -, hsub⟩
  · exact ⟨rfl, rfl⟩
  · rw [hparts] at hsub
    obtain ⟨x, hx, -⟩ := hsub.exists_own
    cases hx

namespace Derived

theorem starless_property {f : ResultField} {facts : Facts} {x : String × Property}
    (hs : ∀ s ∈ facts.sources.toList, s.Starless) (hwild : f.isWildcard = false)
    (h : property f facts = .ok x) {path : String} {p : Property} (hdecl : Declared [x] path p) :
    p.StarlessAt path := by
  obtain ⟨name, q⟩ := x
  intro hstar
  rcases property_eq_ok h with ⟨i, found, he, hfind, hname, hsome, hnone⟩ | ⟨-, a, -, hname, hcolumn, hparts⟩
  · have hi : i.isWildcard = false := by rwa [ResultField.isWildcard, he] at hwild
    dsimp only at hname hsome hnone
    cases found with
    | none =>
      obtain ⟨hcolumn, hparts⟩ := hnone rfl
      obtain ⟨rfl, rfl⟩ := hdecl.eq_of_leaf hparts
      rwa [hname, ← hcolumn]
    | some m =>
      rcases hdecl.singleton with ⟨rfl, rfl⟩ | ⟨sub, rfl, hsub⟩
      · rw [hsome m rfl] at hstar
        rw [hname]
        cases hl : f.label with
        | some a => rwa [hl] at hstar
        | none =>
          rw [hl] at hstar
          have hsources : ∀ s ∈ Lookup.sources [facts], s.Starless := by simpa [Lookup.sources] using hs
          exact absurd hstar (Lookup.starless_of_find hsources hfind (Identifier.name_ne_star hi))
      · -- the parts are those of what the name means
        rw [hsome m rfl] at hsub
        obtain ⟨ps, hps, hdecl⟩ := (Lookup.find_eq_some hfind).1
        have hmem : m.source ∈ facts.sources.toList := by
          simpa [Lookup.sources] using Lookup.mem_sources_of_find hfind
        have hpart := hs _ hmem _ _ ⟨ps, hps, hdecl.trans hsub⟩ hstar
        rw [Text.lastSegment_qualified] at hpart ⊢
        exact hpart
  · dsimp only at hname hcolumn hparts
    obtain ⟨rfl, rfl⟩ := hdecl.eq_of_leaf hparts
    rwa [hname, ← hcolumn]

/-- **The columns of a derived table end in a `*` only under such an alias.** -/
theorem starless_properties {s : Select} {ps : List (String × Property)}
    (hs : ∀ x ∈ s.facts.sources.toList, x.Starless) (h : properties s = .ok ps) {path : String} {p : Property}
    (hdecl : Declared ps path p) : p.StarlessAt path := by
  obtain ⟨x, hx, hdecl⟩ := hdecl.exists_own
  cases origin_of_mem h x hx with
  | copied _ _ hmem _ hps hx =>
    exact hs _ hmem path p ⟨_, hps, hdecl.mono (List.cons_subset.mpr ⟨hx, List.nil_subset _⟩)⟩
  | read _ hwild hprop => exact starless_property hs hwild hprop hdecl

end Derived

theorem Source.starless_of_isRaw {s : Source} (h : s.isRaw = true) : s.Starless := by
  rintro path p ⟨ps, hps, -⟩
  rw [isRaw, hps] at h
  cases h

theorem Naming.Maps.starless {n : Naming} (hn : n.schema.Starless) {t : Table} {s : Source} (h : n.Maps t s) :
    s.Starless := by
  cases h with
  | entity label he =>
    rintro path p ⟨ps, hps, hdecl⟩ hstar
    cases hps
    exact absurd hstar (hn _ he _ (hdecl.columns_subset p.column_mem_columns))
  | raw => exact Source.starless_of_isRaw rfl

/-- Names are fresh, and of the columns only those under such an alias end in a `*`. -/
def Checks.starless : Checks where
  ident i := i.resolution = none
  sources ss := ∀ s ∈ ss.toList, s.Starless

/-- A name that is resolved is no wildcard. -/
def Checks.columns : Checks where
  ident i := i.isResolved = true → i.isWildcard = false

theorem Vocabulary.meets_starless : Vocabulary.all.Meets (fun _ => True) .starless where
  ident _ := rfl
  sources := List.forall_mem_nil _

/-- A name that is no wildcard is resolved to none. -/
theorem Columns.not_isWildcard_of_resolve {scopes : List Facts} {labelled : Bool} {i i' : Identifier}
    (hs : ∀ s ∈ Lookup.sources scopes, s.Starless) (hi : i.resolution = none)
    (h : resolve ⟨scopes, labelled⟩ i = .ok i') : i'.isResolved = true → i'.isWildcard = false := by
  intro hresolved
  have hfresh : i' ≠ i := by
    rintro rfl
    rw [Identifier.isResolved, hi] at hresolved
    cases hresolved
  unfold resolve at h
  split at h
  · exact absurd (Except.ok.inj h).symm hfresh
  · next hcond =>
    obtain ⟨found, hfind, h⟩ := bind_eq_ok.mp h
    cases found with
    | none => exact absurd (Except.ok.inj h).symm hfresh
    | some m =>
      cases h
      have hwild : i.isWildcard = false := by
        simp only [Bool.or_eq_true, not_or, Bool.not_eq_true] at hcond
        exact hcond.1.2
      refine Identifier.not_isWildcard_of_name ?_
      have hcolumn := Lookup.starless_of_find hs hfind (Identifier.name_ne_star hwild)
      rw [Identifier.name, FieldMatch.column]
      split
      · rwa [Text.lastSegment_qualified]
      · exact hcolumn

theorem Query.stages_starless {n : Naming} (hn : n.schema.Starless) :
    Query.Stages n (fun _ => true) .starless .starless .starless .columns {} {} where
  sources := {
    table := fun _ _ _ => ⟨trivial, fun _ _ => trivial⟩
    sources := fun hf _ hs => hf.forall_mem hs fun s ⟨_, _, hmaps⟩ => hmaps.starless hn }
  derived := {
    sources := fun hf hts hs => hf.gains.forall_mem hs fun s ⟨t, ht, hmaps⟩ => by
      cases hmaps with
      | mk label hprops =>
        obtain ⟨joined, hformed, -⟩ := hts _ ht
        rintro path p ⟨ps, hps, hdecl⟩
        cases hps
        exact Derived.starless_properties hformed.block.sources hprops hdecl }
  joins := {
    complete := fun h ht _ => h.formed ht trivial trivial fun _ _ _ _ _ =>
      ⟨fun _ ⟨_, _, _, _⟩ => ⟨trivial, rfl, fun _ => rfl, nofun⟩, fun _ _ _ _ => ⟨trivial, trivial⟩⟩
    sources := fun hf _ hs => hf.forall_mem hs fun s ⟨_, _, hlinks⟩ => by
      cases hlinks
      exact Source.starless_of_isRaw rfl }
  filters _ _ _ h _ := h.formed Vocabulary.meets_starless (fun _ h _ => h)
    fun _ _ _ hx => ⟨Expr.shaped_of_ofDetached hx, fun _ _ => trivial⟩
  columns := {
    ident := fun {p _ _} hsees ⟨scopes, hoffers, hresolve⟩ hi => by
      refine Columns.not_isWildcard_of_resolve (fun s hs => ?_) hi hresolve
      rw [sources_eq hoffers p.labelled] at hs
      obtain ⟨v, hv, hs⟩ := List.mem_flatMap.mp hs
      exact hsees v hv s hs
    target := fun _ _ _ => trivial }
  results := {
    ident := fun _ _ _ => trivial
    expand := fun _ ⟨_, _, _, hx⟩ => Results.formed_expansion (fun _ _ _ _ _ _ => trivial) hx }
  parameters := { mark := fun _ _ => trivial }

/-! ## The first four passes -/

namespace Columns

/-- Names are resolved to columns, and results are not added. -/
def naming : Edit := { edit with facts _ f f' := f'.sources = f.sources ∧ f'.results = f.results }

theorem makes_naming : Columns.sweep.Makes naming Offers where
  refl _ := ⟨rfl, rfl⟩
  trans hf hg := ⟨hg.1.trans hf.1, hg.2.trans hf.2⟩
  mark _ := rfl
  keep _ := trivial
  opening _ _ := ⟨⟨rfl, rfl⟩, rfl, rfl⟩
  ident hscopes h := ⟨_, hscopes, h⟩
  named hs h := by
    cases h
    exact ⟨⟨_, _, rfl, rfl⟩, hs, rfl, rfl⟩
  derived hs h := by
    cases h
    exact ⟨rfl, hs, rfl, rfl⟩

theorem naming_inserts : naming.Inserts fun _ => False where
  complete h := h.elim
  expand h := h.elim

/-- The second name is what the first means in a query of those sources, or in one around it. -/
def ResolvesIn (sources : Sources) (i i' : Identifier) : Prop :=
  ∃ facts around, facts.sources = sources ∧ resolve ⟨facts :: around, false⟩ i = .ok i'

/-- A name stays, or it is no wildcard and is resolved. -/
theorem eq_or_isResolved {p : Place} {i i' : Identifier} (h : resolve p i = .ok i') :
    i' = i ∨ i.isWildcard = false ∧ i'.isResolved = true := by
  unfold resolve at h
  split at h
  · exact .inl (Except.ok.inj h).symm
  · next hcond =>
    obtain ⟨found, -, h⟩ := bind_eq_ok.mp h
    cases found with
    | none => exact .inl (Except.ok.inj h).symm
    | some m =>
      cases h
      simp only [Bool.or_eq_true, not_or, Bool.not_eq_true] at hcond
      exact .inr ⟨hcond.1.2, rfl⟩

end Columns

/-- The second field is the first with its names resolved, and as much a wildcard. -/
structure ResultField.Resolves (sources : Sources) (f f' : ResultField) : Prop extends
    f.Keeps (Columns.ResolvesIn sources) f' where
  wildcard : f'.isWildcard = f.isWildcard

/-- The fields of the second block are those of the first with their names resolved. -/
structure Block.Resolves (b b' : Block) : Prop where
  fields : List.Forall₂ (ResultField.Resolves b'.facts.sources) b.fields b'.fields
  results : b'.facts.results = b.facts.results

theorem ResultField.isWildcard_ident (i : Identifier) (label : Option String) :
    isWildcard ⟨.ident i, label⟩ = i.isWildcard := rfl

theorem ResultField.Keeps.resolves {sources : Sources} {f f' : ResultField}
    (h : f.Keeps (Columns.ResolvesIn sources) f') (hf' : f'.expr.Formed .columns) : f.Resolves sources f' := by
  refine ⟨h, ?_⟩
  obtain ⟨e, label⟩ := f
  cases e with
  | ident i =>
    obtain ⟨i', rfl, hi⟩ := h.ident
    rw [isWildcard_ident, isWildcard_ident]
    obtain ⟨_, _, -, hi⟩ := hi
    rcases Columns.eq_or_isResolved hi with rfl | ⟨hwild, hresolved⟩
    · rfl
    · rw [hwild, hf' hresolved]
  | _ =>
    have hframe := h.frame
    obtain ⟨e', label'⟩ := f'
    cases e' with
    | ident => cases hframe
    | _ => rfl

theorem Block.Edited.resolves {b b' b'' : Block} (h : b.Stays b') (h' : b'.Edited Columns.naming b'')
    (hformed : FieldsFormed .columns b''.fields) : b.Resolves b'' := by
  obtain ⟨-, ⟨v, around, hv, hfields⟩, hsources, hresults⟩ := h'
  have hnames := hfields.keeps (d := Columns.naming) id id
  have hresolves : List.Forall₂ (ResultField.Keeps (Columns.ResolvesIn b''.facts.sources)) b'.fields b''.fields := by
    refine hnames.imp fun _ _ hf => hf.mono fun i i' hi => ?_
    obtain ⟨scopes, hoffers, hresolve⟩ := hi
    cases hoffers with
    | cons hoffer _ => exact ⟨_, _, by rw [hoffer.sources, hv, hsources], hresolve⟩
  have hkept : List.Forall₂ (ResultField.Keeps (Columns.ResolvesIn b''.facts.sources)) b.fields b''.fields :=
    forall₂_comp (fun _ _ _ hf hf' => hf.before hf') h.fields hresolves
  refine ⟨?_, hresults.trans h.results⟩
  rw [List.forall₂_iff_get] at hkept ⊢
  refine ⟨hkept.1, fun i hi hi' => ?_⟩
  exact (hkept.2 i hi hi').resolves (fieldsFormed_iff.mp hformed _ (List.get_mem _ _)).1

theorem Query.Formed.fields {c : Checks} {q : Query} (h : q.Formed c) : ∀ b ∈ q.blocks, FieldsFormed c b.fields := by
  intro b hb
  rcases List.mem_append.mp hb with hb | hb
  · cases q with
    | select s => cases hb
    | insert i =>
      cases List.mem_singleton.mp hb
      exact h.returning
    | update u | delete d =>
      cases List.mem_singleton.mp hb
      exact trivial
  · obtain ⟨s, hs, rfl⟩ := List.mem_map.mp hb
    have hformed := h.covers.selects s hs
    cases s
    exact hformed.1

/-- The passes that resolve names lead from the first query to the second. -/
def Query.Named (n : Naming) (q c : Query) : Prop :=
  [Pass.sources, .derived, .joins, .columns].foldlM (fun q p => p.run n q) q = .ok c

theorem Query.named_eq_ok {n : Naming} {q c : Query} (h : q.Named n c) :
    ∃ j, q.Joined n j ∧ Columns.sweep.query j = .ok c := by
  have hall : [Pass.sources, .derived, .joins, .columns] = [Pass.sources, .derived, .joins] ++ [.columns] := rfl
  rw [Named, hall, List.foldlM_append, bind_eq_ok] at h
  obtain ⟨j, hj, h⟩ := h
  simp only [List.foldlM_cons, List.foldlM_nil, Pass.run, bind_eq_ok, pure_eq_ok, Joins.lift_query_eq_ok] at h
  obtain ⟨c', hc, rfl⟩ := h
  exact ⟨j, hj, hc⟩

section

variable {n : Naming} {q j c : Query} (hq : q.Shaped .all)

include hq

/-- The first three passes leave the fields of the blocks as they are. -/
theorem Query.Joined.stays (h : q.Joined n j) :
    Interleaved Block.Stays (fun b => ∃ s, n.schema.HasInFilter s ∧ s.block.Stays b) q.blocks j.blocks := by
  obtain ⟨k, hk, l, hl, hj⟩ := joined_eq_ok h
  have hstrangers : q.collect (strangers n.schema.has) = [] := by
    rw [Query.collect_related collect_strangers]
    exact hq.covers.facts.strangers
  have hfamiliar := Joined.familiar (fun _ he => decide_eq_true he) hstrangers hk hl
  have hsources : Interleaved Block.Stays (fun _ => False) q.blocks k.blocks :=
    ((Naming.edited hk).interleaved Naming.edit_inserts).mono
      (fun _ _ hb => Block.Edited.stays (d := n.edit) id id id Facts.Gains.results hb) fun _ ⟨_, hs, _⟩ => hs
  have hderived : Interleaved Block.Stays (fun _ => False) k.blocks l.blocks :=
    ((Derived.edited hl).interleaved Derived.edit_inserts).mono
      (fun _ _ hb => Block.Edited.stays (d := Derived.edit) id id id (fun hf => hf.gains.results) hb)
      fun _ ⟨_, hs, _⟩ => hs
  have hjoins : Interleaved Block.Stays (fun b => ∃ s, n.schema.HasInFilter s ∧ s.block.Stays b) l.blocks j.blocks :=
    ((Joins.edited (L := fun _ _ => True) (Joins.yields_inserted _) (fun _ => trivial) hfamiliar hj).interleaved
      (Joins.inserts_filters fun _ _ hx => hx)).mono (fun _ _ hb => Joins.stays_of_edited hb)
      fun _ ⟨_, hs, hb⟩ => hb ▸ hs
  have hplaced : Interleaved Block.Stays (fun _ => False) q.blocks l.blocks :=
    hsources.comp hderived (fun _ _ _ hb hb' => hb.trans hb') fun _ _ hb => hb.elim
  exact hplaced.comp hjoins (fun _ _ _ hb hb' => hb.trans hb') fun _ _ hb => hb.elim

/-- **The first four passes keep blocks and fields in order**, and resolve the names of the fields. What
comes between are the blocks of filters. -/
theorem Query.Named.resolves (hn : n.schema.Starless) (h : q.Named n c) :
    Interleaved Block.Resolves (fun b => ∃ s, n.schema.HasInFilter s ∧ s.block.Resolves b) q.blocks c.blocks := by
  obtain ⟨j, hj, hc⟩ := named_eq_ok h
  have hlabels : j.facts.labels = [] := by
    rw [Joined.labels (A := fun _ => true) (fun _ _ => rfl) (strangers_none q) hj, hq.facts_eq]
  have hread : q.Formed .starless := hq.formed Vocabulary.meets_starless (fun _ _ => trivial) fun _ _ => trivial
  have hstages := stages_starless hn
  have hformed : c.Formed .columns := hstages.columns.query (Columns.edited hlabels hc)
    (hstages.joined_formed (fun _ _ => rfl) (strangers_none q) hread hj)
  have hnames : Interleaved (fun b b' => b.Edited Columns.naming b' ∧ FieldsFormed .columns b'.fields)
      (fun b => ∃ s, n.schema.HasInFilter s ∧ s.block.Resolves b) j.blocks c.blocks :=
    (((Columns.makes_naming.query ⟨rfl, hlabels⟩ hc).interleaved Columns.naming_inserts).and_mem hformed.fields).mono
      (fun _ _ hb => hb) fun _ ⟨⟨_, hs, _⟩, _⟩ => hs.elim
  exact (Joined.stays hq hj).comp hnames (fun _ _ _ hb hb' => hb'.1.resolves hb hb'.2)
    fun _ _ ⟨s, hs, hb⟩ hb' => ⟨s, hs, hb'.1.resolves hb hb'.2⟩

end

end EntitySql
