import Mathlib
import EntitySql.Proofs.DerivedColumns
import EntitySql.Proofs.Isolation
import EntitySql.Proofs.Renderable
import EntitySql.Proofs.Rendered

/-!
# Generic SQL means the resolved query

The generic SQL of a resolved query is itself a text of the query language, and it is read as what the SQL
says of the query (`Query.erased`). All that resolution puts into a query has to be such that it is read
back: names of tables and columns of one segment, aliases that are made from relation paths, filters of
relations. The checks that say so are carried through the passes, each from those of the pass before.

* `Query.stages_quotable`: names stay such that they can be quoted.
* `Numbered.sequence`: markers are numbered as they are read.
* **`Query.ofText_render`**: the SQL is read as the erased query.
-/

namespace EntitySql

open Outcome

/-! ## Texts and entities -/

/-- A part of a query that SQL can say: a function that needs no quotes, a comparison with an operator, an
alias of one segment, a path without wildcards. -/
def Part.Writable : Part → Prop
  | function name => Token.IsName name
  | comparison op => op ≠ .contains
  | label name => Text.Single name
  | path p => Text.Leads p.source ∧ Text.Single p.relation

instance : DecidablePred Part.Writable
  | .function name => inferInstanceAs (Decidable (Token.IsName name))
  | .comparison op => inferInstanceAs (Decidable (op ≠ .contains))
  | .label name => inferInstanceAs (Decidable (Text.Single name))
  | .path p => inferInstanceAs (Decidable (Text.Leads p.source ∧ Text.Single p.relation))

def Part.isPath : Part → Bool
  | path _ => true
  | _ => false

/-- A filter that SQL can say. The tables that it joins are not mapped, so that none may look like a path. -/
def writableFilter (text : String) : Bool :=
  match Token.scan text, Expr.ofDetached text with
  | .ok ts, .ok x => ts.all Token.isQuotable && x.parts.all fun part => decide part.Writable && !part.isPath
  | _, _ => true

namespace Schema

/-- The tables of entities, and those that link them. -/
def tables (s : Schema) : List String :=
  s.entities.flatMap fun e => e.table :: e.relations.filterMap fun r =>
    match r.2.link with
    | .junction table _ _ => some table
    | _ => none

/-- Entities whose tables, columns and filters SQL can say. -/
structure Writable (s : Schema) : Prop where
  columns : s.PlainColumns
  tables : ∀ t ∈ s.tables, Text.Single t
  filters : ∀ text ∈ s.filters, writableFilter text = true

variable {s : Schema} {e : Entity}

theorem table_mem_tables (h : e ∈ s.entities) : e.table ∈ s.tables :=
  List.mem_flatMap.mpr ⟨e, h, List.mem_cons_self⟩

theorem link_mem_tables (h : e ∈ s.entities) {name : String} {rel : Relation}
    (hrel : e.relation? name = some rel) {table a b : String} (hlink : rel.link = .junction table a b) :
    table ∈ s.tables := by
  refine List.mem_flatMap.mpr ⟨e, h, List.mem_cons_of_mem _ ?_⟩
  refine List.mem_filterMap.mpr ⟨(name, rel), Pairs.mem_of_find? hrel, ?_⟩
  dsimp only
  rw [hlink]

theorem filter_mem_filters (h : e ∈ s.entities) {name text : String} {rel : Relation}
    (hrel : e.relation? name = some rel) (hfilter : rel.filter = some text) : text ∈ s.filters :=
  List.mem_flatMap.mpr ⟨e, h, List.mem_filterMap.mpr ⟨(name, rel), Pairs.mem_of_find? hrel, hfilter⟩⟩

end Schema

/-! ## Sources -/

/-- A source whose columns can be quoted, with its qualifier and without. -/
structure Source.Writable (s : Source) : Prop where
  qualifier : Text.Leads s.qualifier
  columns : ∀ path p, s.Declares path p → Text.Single p.column

/-- The columns of a derived table are single segments if those of its sources and its aliases are. -/
theorem Derived.single_columns {s : Select} {ps : List (String × Property)}
    (hs : ∀ x ∈ s.facts.sources.toList, x.Writable)
    (hlabels : ∀ f ∈ s.fields, ∀ a, f.label = some a → Text.Single a) (h : properties s = .ok ps)
    {path : String} {p : Property} (hdecl : Declared ps path p) : Text.Single p.column := by
  obtain ⟨⟨name, own⟩, hx, hdecl⟩ := hdecl.exists_own
  cases origin_of_mem h _ hx with
  | copied _ _ hmem _ hps hx =>
    have hsub := hdecl.mono (List.cons_subset.mpr ⟨hx, List.nil_subset _⟩)
    exact (hs _ hmem).columns path p ⟨_, hps, hsub⟩
  | @read f hf hwild hprop =>
    -- an alias is the column, else the column of what is named, or an open name itself
    have hgetD : ∀ c, Text.Single c → Text.Single (f.label.getD c) := by
      intro c hc
      cases hl : f.label with
      | none => exact hc
      | some a => exact hlabels f hf a hl
    have hown : Text.Single own.column ∧ ∀ sub g, Declared own.parts sub g → Text.Single g.column := by
      have hnone : own.parts = [] → ∀ sub g, Declared own.parts sub g → Text.Single g.column := by
        intro hparts sub g hg
        rw [hparts] at hg
        obtain ⟨x, hx, -⟩ := hg.exists_own
        cases hx
      rcases property_eq_ok hprop with ⟨i, found, he, hfind, -, hsome, hopen⟩ | ⟨-, a, ha, -, hcolumn, hparts⟩
      · cases found with
        | none =>
          obtain ⟨hcolumn, hparts⟩ := hopen rfl
          have hi : i.isWildcard = false := by rwa [ResultField.isWildcard, he] at hwild
          refine ⟨?_, hnone hparts⟩
          rw [hcolumn]
          exact hgetD _ ⟨Text.plain_lastSegment _, Identifier.name_ne_star hi⟩
        | some m =>
          obtain ⟨⟨qs, hqs, hdeclares⟩, -⟩ := Lookup.find_eq_some hfind
          have hmem : m.source ∈ s.facts.sources.toList := by
            simpa [Lookup.sources] using Lookup.mem_sources_of_find hfind
          have hp : own = { m.property with column := f.label.getD m.property.column } := hsome m rfl
          rw [hp]
          exact ⟨hgetD _ ((hs _ hmem).columns _ _ ⟨qs, hqs, hdeclares⟩),
            fun sub g hg => (hs _ hmem).columns _ _ ⟨qs, hqs, hdeclares.trans hg⟩⟩
      · refine ⟨?_, hnone hparts⟩
        have hcolumn : own.column = a := hcolumn
        rw [hcolumn]
        exact hlabels f hf a ha
    rcases hdecl.singleton with ⟨-, rfl⟩ | ⟨sub, -, hsub⟩
    · exact hown.1
    · exact hown.2 sub p hsub

/-! ## Checks -/

namespace Checks

/-- What is asked of a query with completed joins: names can be quoted, and so can those that its sources
declare. The aliases of links may have several segments. -/
def quotable : Checks where
  __ := Checks.written.relabel Text.Leads
  sources ss := ∀ s ∈ ss.toList, s.Writable

/-- What is asked of a query with mapped tables. -/
def pending : Checks where
  __ := Checks.quotable
  label := Text.Single
  join conditional path := (conditional = true ∨ path ≠ none)
    ∧ ∀ p, path = some p → Text.Leads p.source ∧ Text.Single p.relation

/-- What is asked of a query that was read: tables may be relation paths. -/
def unmapped : Checks where
  __ := Checks.pending
  table joined name := Text.Leads name
    ∧ (joined = true → ∀ path, RelationPath.ofName? name = some path → Text.Single path.relation)

end Checks

theorem Vocabulary.meets_unmapped : Vocabulary.quotable.Meets Part.Writable .unmapped where
  ident h := h
  target h := h
  literal h := h
  call _ h := h
  compare h := h
  label _ h := h
  table hname hpath := ⟨hname, fun hjoined path h => (hpath hjoined path h).2⟩
  join {conditional path} hpath hparts := by
    refine ⟨?_, hparts⟩
    cases conditional with
    | true => exact .inl rfl
    | false => exact .inr (hpath rfl)
  sources := List.forall_mem_nil _

theorem Vocabulary.meets_pending :
    Vocabulary.quotable.Meets (fun part => part.Writable ∧ part.isPath = false) .pending where
  ident h := h
  target h := h
  literal h := h
  call _ h := h.1
  compare h := h.1
  label _ h := h.1
  table {joined name} hname hpath := by
    refine ⟨hname, fun hjoined => ?_⟩
    cases h : RelationPath.ofName? name with
    | none => rfl
    | some path => cases (hpath hjoined path h).2
  join {conditional path} hpath hparts := by
    refine ⟨?_, fun p hp => (hparts p hp).1⟩
    cases conditional with
    | true => exact .inl rfl
    | false => exact .inr (hpath rfl)
  sources := List.forall_mem_nil _

/-! ## Passes -/

theorem LabelFormed.leads_getD {label : Option String} {name : String} (hlabel : LabelFormed .pending label)
    (hname : Text.Leads name) : Text.Leads (label.getD name) := by
  cases label with
  | none => exact hname
  | some a => exact (hlabel a rfl).leads

theorem Table.Formed.labelFormed {c : Checks} {joined : Bool} {t : Table} (h : t.Formed c joined) :
    LabelFormed c t.label := by
  cases t <;> exact h.2

section

variable {n : Naming} (hn : n.schema.Writable)

include hn

theorem Naming.Maps.writable {t : Table} {s : Source} (h : n.Maps t s) {joined : Bool}
    (ht : t.Formed .pending joined) : s.Writable := by
  cases h with
  | entity label he =>
    obtain ⟨⟨hname, -⟩, hlabel⟩ := ht
    refine ⟨hlabel.leads_getD hname, ?_⟩
    rintro path p ⟨ps, hps, hdecl⟩
    cases hps
    exact hn.columns _ he _ (hdecl.columns_subset p.column_mem_columns)
  | raw name label =>
    obtain ⟨⟨hname, -⟩, hlabel⟩ := ht
    refine ⟨hlabel.leads_getD hname, ?_⟩
    rintro path p ⟨ps, hps, -⟩
    cases hps

/-- Tables of entities are single segments, and so are the relations that name those that are joined. -/
theorem Naming.carries_quotable : n.edit.Carries .unmapped .pending where
  table {joined name label name' label'} h ht hlabel := by
    have hentity : ∀ e ∈ n.schema.entities, Checks.pending.table joined e.table := by
      intro e he
      have hsingle := hn.tables _ (Schema.table_mem_tables he)
      exact ⟨hsingle.leads, fun _ => RelationPath.ofName?_plain hsingle.1⟩
    cases h with
    | entity _ he => exact ⟨hentity _ he, hlabel⟩
    | raw hname => exact ⟨⟨ht.1, fun _ => hname⟩, hlabel⟩
    | @path _ _ path e hpath he =>
      refine ⟨hentity e he, ?_⟩
      rintro _ ⟨⟩
      cases label with
      | none => exact ht.2 rfl path hpath
      | some a => exact hlabel a rfl
  sources hf hts hs := hf.forall_mem hs fun s hmaps => by
    obtain ⟨t, ht, hmaps⟩ := hmaps
    obtain ⟨joined, hformed⟩ := hts t ht
    exact hmaps.writable hn hformed

end

theorem Derived.Maps.writable {t : Table} {s : Source} (h : Derived.Maps t s) {joined : Bool}
    (ht : t.Formed .pending joined) : s.Writable := by
  cases h with
  | @mk select ps label hprops =>
    obtain ⟨hselect, hlabel⟩ := ht
    refine ⟨(hlabel label rfl).leads, ?_⟩
    rintro path p ⟨_, hps, hdecl⟩
    cases hps
    exact Derived.single_columns hselect.block.sources hselect.labels hprops hdecl

theorem Derived.carries_quotable : Derived.edit.Carries .pending .pending where
  sources hf hts hs := hf.gains.forall_mem hs fun s hmaps => by
    obtain ⟨t, ht, hmaps⟩ := hmaps
    obtain ⟨joined, hformed⟩ := hts t ht
    exact hmaps.writable hformed

theorem Joins.Equates.formed {qualifiers : List String} {k : Expr} (h : Joins.Equates qualifiers k)
    (hq : ∀ q ∈ qualifiers, Text.Leads q) : k.Formed .quotable := by
  obtain ⟨a, b, hleft, hright⟩ := h
  have hne : CompareOp.eq ≠ .contains := by decide
  exact ⟨hne, .inl (Text.leads_append.mpr (hq _ hleft)), fun _ => .inl (Text.leads_append.mpr (hq _ hright)),
    nofun⟩

section

variable {schema : Schema} (hschema : schema.Writable)

include hschema

/-- Joins are completed with keys, links and filters that can be quoted. -/
theorem Joins.carries_quotable :
    (Joins.edit schema (fun e => decide (e ∈ schema.entities)) (Joins.Completed .quotable)).Carries
      .pending .quotable where
  label h := h.leads
  table := by
    rintro _ _ _ _ _ ⟨⟩ ht hlabel
    exact ⟨ht, fun a ha => (hlabel a ha).leads⟩
  keep hkeep h := Joins.conditional_of_kept hkeep h.1
  complete {j new} h ht hjoin := by
    have hlabelled : ∀ path, j.path = some path → Text.Leads (j.table.label.getD path.relation) := by
      intro path hpath
      cases hl : j.table.label with
      | none => exact (hjoin.2 path hpath).2.leads
      | some a => exact ht.labelFormed a hl
    refine h.formed ht rfl rfl (fun path rel link keys hconnects => ?_) hlabelled
    have hpath := hconnects.pending.1
    obtain ⟨hsource, hrelation⟩ := hjoin.2 path hpath
    have hlink := hsource.append (b := path.relation)
    refine ⟨fun k hk => hk.formed ?_, fun table a b hjunction => ?_⟩
    · simp only [List.forall_mem_cons]
      exact ⟨hlabelled path hpath, hsource, hlink, List.forall_mem_nil _⟩
    · obtain ⟨source, -, -, -, he, hrel, -⟩ := hconnects.follows
      have hsingle := hschema.tables _ (Schema.link_mem_tables (of_decide_eq_true he) hrel hjunction)
      exact ⟨⟨hsingle.leads, fun _ => RelationPath.ofName?_plain hsingle.1⟩, hlink⟩
  sources hf hts hs := hf.forall_mem hs fun s hlinks => by
    obtain ⟨t, ht, hlinks⟩ := hlinks
    obtain ⟨joined, hformed⟩ := hts t ht
    cases hlinks with
    | mk path =>
      refine ⟨hformed.2 _ rfl, ?_⟩
      rintro path p ⟨ps, hps, -⟩
      cases hps

/-- A filter can be quoted, with its bare names qualified by an alias. -/
theorem Joins.Restricts.quotable {rel : Relation} {label : String} {r : Expr}
    (h : Joins.Restricts (fun e => decide (e ∈ schema.entities)) rel label r) (hlabel : Text.Leads label) :
    r.Formed .pending := by
  obtain ⟨e, name, he, hrel⟩ := h.1
  refine h.formed Vocabulary.meets_pending (fun i _ _ => .inl (Text.leads_append.mpr hlabel)) ?_
  intro text x hfilter hx
  have hwritable := hschema.filters text (Schema.filter_mem_filters (of_decide_eq_true he) hrel hfilter)
  obtain ⟨ts, -, -, hts, -⟩ := Parse.run_eq_ok hx
  simp only [writableFilter, hts, hx, Bool.and_eq_true, List.all_eq_true, Bool.not_eq_true',
    decide_eq_true_eq] at hwritable
  obtain ⟨htokens, hparts⟩ := hwritable
  exact ⟨(Expr.ofDetached_shaped hx hts fun t ht => Vocabulary.admits_quotable hts ht (htokens t ht)).2, hparts⟩

end

-- quoted names and selects are fine, but a joined path would not be mapped
example : writableFilter "label <> 'x' AND id IN (SELECT tag FROM \"open\")" = true
    ∧ writableFilter "id IN (SELECT t.id FROM Tag t JOIN t.books b)" = false := by decide +kernel

/-- What a name is resolved to can be quoted. -/
theorem Columns.leads_resolve {scopes : List Facts} {labelled : Bool} {i i' : Identifier}
    (hs : ∀ s ∈ Lookup.sources scopes, s.Writable) (h : resolve ⟨scopes, labelled⟩ i = .ok i') :
    i' = i ∨ Text.Leads i'.value := by
  unfold resolve at h
  split at h
  · cases h
    exact .inl rfl
  · obtain ⟨found, hfound, h⟩ := bind_eq_ok.mp h
    cases found with
    | none =>
      cases h
      exact .inl rfl
    | some m =>
      cases h
      have hm := hs _ (Lookup.mem_sources_of_find hfound)
      refine .inr ?_
      unfold FieldMatch.column
      split
      · exact Text.leads_append.mpr hm.qualifier
      · exact (hm.columns _ _ (Lookup.find_eq_some hfound).1).leads

theorem Columns.carries_quotable : Columns.edit.Carries .quotable .quotable := by
  have hresolve : ∀ {p : Spot} {i i'}, Checks.quotable.Sees p → Columns.edit.ident p i i' →
      i' = i ∨ Text.Leads i'.value := by
    rintro p i i' hp ⟨scopes, hscopes, h⟩
    refine leads_resolve (fun s hs => ?_) h
    rw [sources_eq hscopes p.labelled] at hs
    obtain ⟨v, hv, hs⟩ := List.mem_flatMap.mp hs
    exact hp v hv s hs
  exact {
    ident := fun hp h hi => by
      rcases hresolve hp h with rfl | hleads
      · exact hi
      · exact .inl hleads
    target := fun hp h hi => by
      rcases hresolve hp h with rfl | hleads
      · exact hi
      · exact hleads
    sources := fun hf _ hs => (show _ = _ from hf) ▸ hs }

theorem Results.carries_quotable : Results.edit.Carries .quotable .quotable where
  expand hp := by
    rintro ⟨v, around, hscopes, hx⟩
    have hsources : ∀ s ∈ v.sources.toList, s.Writable := hp v (by rw [hscopes]; exact List.mem_cons_self)
    refine Results.formed_expansion (fun s hs path p qualify hdecl => ?_) hx
    refine .inl ?_
    dsimp only
    split
    · exact Text.leads_append.mpr (hsources s hs).qualifier
    · exact ((hsources s hs).columns path p hdecl).leads
  sources hf _ hs := (show _ = _ from hf) ▸ hs

/-- **Names stay such that they can be quoted** through all passes. -/
theorem Query.stages_quotable {n : Naming} (hn : n.schema.Writable) :
    Query.Stages n (fun e => decide (e ∈ n.schema.entities)) .unmapped .pending .quotable .quotable .quotable
      (Checks.written.relabel Text.Leads) where
  sources := Naming.carries_quotable hn
  derived := Derived.carries_quotable
  joins := Joins.carries_quotable hn
  filters _ _ _ h hlabel := h.quotable hn hlabel
  columns := Columns.carries_quotable
  results := Results.carries_quotable
  parameters := { mark := fun _ _ => trivial }

/-! ## Markers -/

/-- Fresh markers are numbered as they are read. -/
theorem Numbered.sequence {A : Option Bindings → Prop} {ms ms' : List Mark} {s s' : List Slot}
    (h : Numbered A ms ms' s s') (hms : ∀ m ∈ ms, m.ordinal? = none) :
    Mark.Sequence s.length (ms'.map Mark.erased) := by
  induction h with
  | nil => trivial
  | old hm _ _ _ =>
    rw [hms _ List.mem_cons_self] at hm
    cases hm
  | @new m m' ms ms' s s' slot _ hm' _ _ ih =>
    have hrest := ih fun m hm => hms m (List.mem_cons_of_mem _ hm)
    cases m' with
    | named m' => cases hm'
    | anonymous m' =>
      have hordinal : m'.ordinal = some s.length := hm'
      rw [List.length_append, List.length_singleton] at hrest
      exact ⟨by rw [hordinal], hrest⟩

/-! ## The theorem -/

/-- **The generic SQL of a resolved query is read as what it says**: the query without facts, without what
its names were found to mean and without the paths of its joins, each marker at the position of its slot.
The entities and the text have to be writable, aliases of links included, each select has a field, and no
insert sets a wildcard. -/
theorem Query.ofText_render {n : Naming} {text sql : String} {ts : List Token} {q r : Query}
    (hschema : n.schema.Writable) (hts : Token.scan text = .ok ts) (htokens : ∀ t ∈ ts, t.isQuotable = true)
    (hq : Query.ofText text = .ok q) (hparts : ∀ x ∈ q.parts, x.Writable) (hr : q.resolve n = .ok r)
    (hlabels : ∀ x ∈ r.parts, x.Labels Text.Single) (hfields : ∀ s ∈ r.selects, s.fields ≠ [])
    (hcolumns : ∀ i, .ident i ∈ r.columns → i.isWildcard = false) (hsql : r.render .generic = .ok sql) :
    Query.ofText sql = .ok r.erased := by
  obtain ⟨-, hshaped⟩ := Query.ofText_shaped hq hts fun t ht =>
    Vocabulary.admits_quotable hts ht (htokens t ht)
  have hread : q.Formed .unmapped := hshaped.formed Vocabulary.meets_unmapped hparts fun _ _ => trivial
  have hfamiliar : q.collect (strangers fun e => decide (e ∈ n.schema.entities)) = [] :=
    (Query.collect_related collect_strangers q).trans hshaped.covers.facts.strangers
  have hquotable := (Query.stages_quotable hschema).resolve_formed (fun _ => decide_eq_true) hfamiliar
    (by rw [hshaped.facts_eq]) hread hr
  have hwritten : r.Formed .written := hquotable.relabel hlabels
  have hmarks : Mark.Sequence 0 (r.erased.collect markers) := by
    obtain ⟨hfresh, hslots⟩ := Compiler.fresh_ofText hq
    obtain ⟨ms, hms, hnum⟩ := Query.numbered_resolve hfresh hslots hr
    rw [Query.collect_erased]
    exact hnum.sequence hms
  obtain ⟨sql', hsql', hspell⟩ := bind_eq_ok.mp hsql
  cases hspell
  exact Query.ofText_of_lays Lettering.legible_quoted (hwritten.shaped_erased hfields hcolumns)
    (Rendering.lays_query Checks.scannable_written hwritten hsql') hmarks

/-- Books with the tags that may be shown. -/
def shelves : Schema where
  entities :=
    [{ name := "Tag", table := "tags"
       properties := [("id", { column := "id", ty := .int }), ("label", { column := "tag label", ty := .string })]
       identifier := ["id"] },
     { name := "Book", table := "books"
       properties := [("id", { column := "id", ty := .int }), ("title", { column := "title", ty := .string })]
       relations := [("tags", { target := "Tag", link := .junction "book_tags" "book_id" "tag_id"
                                filter := some "label NOT LIKE 'x''%' AND id IN (SELECT tag FROM \"open\")" })]
       identifier := ["id"] }]

theorem shelves_writable : shelves.Writable := ⟨by decide +kernel, by decide +kernel, by decide +kernel⟩

/-- A query along a relation with a link and a filter, with quotes in names and strings. -/
def shelfText : String :=
  "SELECT DISTINCT length(b.title) || 'it''s' AS \"the \"\"text\"\"\", d.* FROM Book b LEFT JOIN b.tags "
    ++ "JOIN (SELECT id n FROM Book) d ON b.id = d.n WHERE NOT (b.id = ? OR -(-b.id) + 1 IN (2, :x)) "
    ++ "UNION ALL SELECT 1 AS k, 2 AS l LIMIT ?"

/-- `shelfText` in generic SQL. -/
def shelfSql : String :=
  "SELECT DISTINCT CHAR_LENGTH(\"b\".\"title\") || 'it''s' AS \"the \"\"text\"\"\", \"d\".\"n\" "
    ++ "FROM \"books\" \"b\" LEFT JOIN \"book_tags\" \"b_tags\" ON \"b_tags\".\"book_id\" = \"b\".\"id\" "
    ++ "LEFT JOIN \"tags\" \"tags\" ON \"tags\".\"id\" = \"b_tags\".\"tag_id\" "
    ++ "AND (\"tags\".\"tag label\" NOT LIKE 'x''%' AND \"tags\".\"id\" IN (SELECT \"tag\" FROM \"open\")) "
    ++ "INNER JOIN (SELECT \"id\" AS \"n\" FROM \"books\") \"d\" ON \"b\".\"id\" = \"d\".\"n\" "
    ++ "WHERE NOT (\"b\".\"id\" = ? OR -(-\"b\".\"id\") + 1 IN (2, ?)) "
    ++ "UNION ALL SELECT 1 AS \"k\", 2 AS \"l\" LIMIT ?"

theorem Query.ofText_render_shelf : ∃ ts q r, shelves.Writable ∧ Token.scan shelfText = .ok ts
    ∧ (∀ t ∈ ts, t.isQuotable = true) ∧ Query.ofText shelfText = .ok q ∧ (∀ x ∈ q.parts, x.Writable)
    ∧ q.resolve ⟨shelves, false⟩ = .ok r ∧ (∀ x ∈ r.parts, x.Labels Text.Single)
    ∧ (∀ s ∈ r.selects, s.fields ≠ []) ∧ (∀ i, .ident i ∈ r.columns → i.isWildcard = false)
    ∧ r.render .generic = .ok shelfSql ∧ Query.ofText shelfSql = .ok r.erased := by
  have hread : (List.all · Token.isQuotable) <$> Token.scan shelfText = .ok true
      ∧ ((Query.ofText shelfText).toOption.bind fun q => (q.resolve ⟨shelves, false⟩).toOption.map
        fun r => decide ((∀ x ∈ q.parts, x.Writable) ∧ (∀ x ∈ r.parts, x.Labels Text.Single)
          ∧ (∀ s ∈ r.selects, s.fields ≠ []) ∧ r.columns = [] ∧ r.render .generic = .ok shelfSql)) = some true := by
    unfold shelfText
    rw [← String.ofList_append, ← String.ofList_append, Query.ofText_ofList, Token.scan, String.toList_ofList]
    decide +kernel
  obtain ⟨ts, hts, hquotable⟩ := Outcome.map_eq_ok.mp hread.1
  have htokens : ∀ t ∈ ts, t.isQuotable = true := List.all_eq_true.mp hquotable
  obtain ⟨q, r, hq, hr, hcheck⟩ := Query.exists_run hread.2
  obtain ⟨hparts, hlabels, hfields, hnone, hsql⟩ := of_decide_eq_true hcheck
  have hcolumns : ∀ i, .ident i ∈ r.columns → i.isWildcard = false := by
    rw [hnone]
    exact fun _ hi => absurd hi List.not_mem_nil
  exact ⟨ts, q, r, shelves_writable, hts, htokens, hq, hparts, hr, hlabels, hfields, hcolumns, hsql,
    ofText_render shelves_writable hts htokens hq hparts hr hlabels hfields hcolumns hsql⟩

/-- An insert that sets a wildcard, and its SQL. -/
def starText : String := "INSERT INTO Book b (b.*) VALUES (1)"
def starSql : String := "INSERT INTO \"books\" (*) VALUES (1)"

/-- Such an insert is written, but what is written is no query. -/
theorem Query.unread_star : ∃ ts q r, shelves.Writable ∧ Token.scan starText = .ok ts
    ∧ (∀ t ∈ ts, t.isQuotable = true) ∧ Query.ofText starText = .ok q ∧ (∀ x ∈ q.parts, x.Writable)
    ∧ q.resolve ⟨shelves, false⟩ = .ok r ∧ (∀ x ∈ r.parts, x.Labels Text.Single)
    ∧ (∀ s ∈ r.selects, s.fields ≠ []) ∧ r.render .generic = .ok starSql
    ∧ ∃ e, Query.ofText starSql = .error e := by
  obtain ⟨ts, hts, hquotable⟩ := Outcome.map_eq_ok.mp
    (show (List.all · Token.isQuotable) <$> Token.scan starText = .ok true by decide +kernel)
  have hrun : ((Query.ofText starText).toOption.bind fun q => (q.resolve ⟨shelves, false⟩).toOption.map
      fun r => decide ((∀ x ∈ q.parts, x.Writable) ∧ (∀ x ∈ r.parts, x.Labels Text.Single)
        ∧ (∀ s ∈ r.selects, s.fields ≠ []) ∧ r.render .generic = .ok starSql)) = some true := by
    decide +kernel
  obtain ⟨q, r, hq, hr, hcheck⟩ := Query.exists_run hrun
  obtain ⟨hparts, hlabels, hfields, hsql⟩ := of_decide_eq_true hcheck
  have hfails : (Query.ofText starSql).toBool = false := by decide +kernel
  have herror : ∃ e, Query.ofText starSql = .error e := by
    cases h : Query.ofText starSql with
    | error e => exact ⟨e, rfl⟩
    | ok q =>
      rw [h] at hfails
      cases hfails
  exact ⟨ts, q, r, shelves_writable, hts, List.all_eq_true.mp hquotable, hq, hparts, hr, hlabels, hfields, hsql,
    herror⟩

end EntitySql
