import Mathlib
import EntitySql.Proofs.Recovery

/-!
# Reading written statements

Clause by clause, what is written of a statement is read back, and so is the whole query. A clause
that is absent leaves no sign, so each reader has to tell it from the clauses that may come next
(`Sign.Heads`).

* `Rules.recovers_upTo`: rules of depth `n` recover trees of at most `n` signs.
* `Grammar.reads_query`: the signs of a query are read back to the query.
-/

namespace EntitySql

open Sign Parse

variable {N : Lettering} {V : Vocabulary}

namespace Grammar

variable {n : Nat} {r : Rules} {rest : List Sign}

/-! ## Aliases -/

/-- A sign that is no alias. -/
def noLabel (p : Sign) : Bool := !p.isKeyword "AS" && p.kind != .identifier

theorem reads_no_label (h : Before noLabel rest) : Reads label rest none rest := by
  have has : Before (fun p => !p.isKeyword "AS") rest :=
    h.mono fun p hp => (Bool.and_eq_true_iff.mp hp).1
  refine (Reads.no_phrase (startsWith_cursor has)).bind (Reads.get fun c hc => ?_)
  have hkind : ¬ c.current.kind = .identifier := by
    rw [hc.current.1]
    cases rest with
    | nil => exact show ¬ TokenKind.endOfInput = .identifier by decide
    | cons p ps =>
      have hp : ¬ p.kind = .identifier := by simpa using (Bool.and_eq_true_iff.mp (h p rfl)).2
      exact hp
  rw [if_neg hkind]
  exact .of hc .pure

theorem reads_fieldAlias {a : Option String} (h : Before noLabel rest) :
    Reads label (fieldAliasSigns a ++ rest) a rest := by
  cases a with
  | none => exact reads_no_label h
  | some a => exact (Reads.phrase? ["AS"]).bind (Reads.identifier a _).map

theorem reads_tableAlias {a : Option String} (h : Before noLabel rest) :
    Reads label (tableAliasSigns a ++ rest) a rest := by
  cases a with
  | none => exact reads_no_label h
  | some a =>
    refine (Reads.no_phrase rfl).bind (Reads.get fun c hc => ?_)
    have hkind : c.current.kind = .identifier := hc.current.1
    rw [if_pos hkind]
    exact .of hc (Reads.identifier a _).map

/-! ## Fields and order items -/

/-- A sign that ends a field. -/
def endsField (p : Sign) : Bool := p.stops && noLabel p

theorem reads_field (hr : r.Recovers N V n) {f : ResultField} (hn : (f.expr.signs N).length ≤ n)
    (hf : f.expr.Shaped V) (hrest : Before endsField rest) :
    Reads (field r) (f.expr.signs N ++ fieldAliasSigns f.label ++ rest) f rest := by
  obtain ⟨e, a⟩ := f
  have hstops : Before stops (fieldAliasSigns a ++ rest) := by
    cases a with
    | none => exact hrest.mono fun p hp => (Bool.and_eq_true_iff.mp hp).1
    | some a => exact .cons rfl
  rw [List.append_assoc]
  exact (reads_expr hr hn hf hstops).bind ((reads_fieldAlias (hrest.mono fun p hp =>
    (Bool.and_eq_true_iff.mp hp).2)).bind .pure)

theorem reads_order (hr : r.Recovers N V n) {o : OrderItem} (hn : (o.expr.signs N).length ≤ n)
    (ho : o.expr.Shaped V) :
    Reads (order r) (o.expr.signs N ++ directionSigns o.ascending ++ rest) o rest := by
  obtain ⟨e, ascending⟩ := o
  rw [List.append_assoc]
  cases ascending with
  | false =>
    show Reads (order r) (e.signs N ++ (Sign.phrase ["DESC"] ++ rest)) ⟨e, false⟩ rest
    exact (reads_expr hr hn ho (.cons rfl)).bind ((Reads.phrase? ["DESC"]).bind .pure)
  | true =>
    show Reads (order r) (e.signs N ++ (Sign.phrase ["ASC"] ++ rest)) ⟨e, true⟩ rest
    exact (reads_expr hr hn ho (.cons rfl)).bind ((Reads.no_phrase rfl).bind
      ((Reads.phrase? ["ASC"]).bind .pure))

/-! ## Tables and joins -/

/-- A sign that ends a table. -/
def endsTable (p : Sign) : Bool := !p.isSymbol "." && noLabel p

theorem reads_tableName (hN : N.Legible V) {s : String} (hs : V.name s)
    (h : Before (fun p => !p.isSymbol ".") rest) : Reads tableName (N.signs s ++ rest) s rest := by
  intro c hc
  obtain ⟨d, hd, hat⟩ := hN.reads hs h c hc
  refine ⟨d, ?_, hat⟩
  rw [tableName, hd]

theorem reads_table (hr : r.Recovers N V n) {t : Table} (hn : (t.signs N).length ≤ n) (ht : t.Shaped V)
    (hrest : Before endsTable rest) : Reads (table r) (t.signs N ++ rest) t rest := by
  have hlabel : Before noLabel rest := hrest.mono fun p hp => (Bool.and_eq_true_iff.mp hp).2
  cases t with
  | named name a =>
    have hname : Before (fun p => !p.isSymbol ".") (tableAliasSigns a ++ rest) := by
      cases a with
      | none => exact hrest.mono fun p hp => (Bool.and_eq_true_iff.mp hp).1
      | some a => exact .cons rfl
    have hopen : Before (fun p => !p.isSymbol "(") (N.signs name ++ (tableAliasSigns a ++ rest)) := by
      obtain ⟨w, ps, hsigns, -⟩ := hr.legible.atom ht.1
      rw [hsigns]
      exact .cons rfl
    rw [Table.signs, List.append_assoc]
    exact (Reads.no_symbol hopen).bind ((reads_tableName hr.legible ht.1 hname).bind
      ((reads_tableAlias hlabel).bind .pure))
  | derived s a =>
    have hlength : (s.signs N).length ≤ n := by
      rw [Table.signs, parens] at hn
      simp only [List.length_append, List.length_cons] at hn
      omega
    have hsigns : (Table.derived s a).signs N ++ rest
        = .symbol "(" :: (s.signs N ++ .symbol ")" :: (tableAliasSigns a ++ rest)) := by
      rw [Table.signs, parens]
      simp only [List.cons_append, List.append_assoc, List.nil_append]
    have hread : Reads r.select (s.signs N ++ .symbol ")" :: (tableAliasSigns a ++ rest)) s
        (.symbol ")" :: (tableAliasSigns a ++ rest)) :=
      hr.select hlength ht.1 (by rintro _ ⟨⟩; decide)
    rw [hsigns]
    refine (Reads.symbol? "(").bind (Reads.get fun c hc => ?_)
    have hselect : c.startsWith ["SELECT"] = true := by
      rw [hc.startsWith]
      cases s
      rfl
    rw [if_pos hselect]
    exact .of hc (hread.bind ((Reads.symbol ")").bind ((reads_tableAlias hlabel).bind .pure)))

theorem reads_joinKind (kind : JoinKind) : Reads joinKind (kind.signs ++ rest) kind rest := by
  cases kind with
  | inner =>
    exact (Reads.no_phrase rfl).bind ((Reads.no_phrase rfl).bind
      ((Reads.phrase? ["INNER", "JOIN"]).bind .pure))
  | left => exact (Reads.no_phrase rfl).bind ((Reads.phrase? ["LEFT", "JOIN"]).bind .pure)

/-- The signs of one join. -/
def joinSigns (N : Lettering) (j : Join) : List Sign :=
  j.kind.signs ++ j.table.signs N ++ optSigns N ["ON"] j.condition

/-- A sign that ends a join. -/
def endsJoin (p : Sign) : Bool := p.stops && endsTable p && !p.isKeyword "ON"

theorem reads_join (hr : r.Recovers N V n) {j : Join} (hn : (joinSigns N j).length ≤ n) (hj : j.Shaped V)
    (hrest : Before endsJoin rest) : Reads (join r) (joinSigns N j ++ rest) j rest := by
  obtain ⟨kind, t, condition, path⟩ := j
  obtain ⟨ht, hcondition, hpath, hone⟩ := hj
  dsimp only at ht hcondition hpath hone
  subst hpath
  have hparts : ∀ p, endsJoin p = true →
      p.stops = true ∧ endsTable p = true ∧ (!p.isKeyword "ON") = true := by
    intro p hp
    simpa only [endsJoin, Bool.and_eq_true, and_assoc] using hp
  have hlength : (t.signs N).length ≤ n ∧ (optSigns N ["ON"] condition).length ≤ n := by
    simp only [joinSigns, List.length_append] at hn
    omega
  have htable : Before endsTable (optSigns N ["ON"] condition ++ rest) := by
    cases condition with
    | none => exact hrest.mono fun p hp => (hparts p hp).2.1
    | some e => exact .cons rfl
  rw [joinSigns, List.append_assoc, List.append_assoc]
  refine (reads_joinKind kind).bind ((reads_table hr hlength.1 ht htable).bind
    ((reads_opt hr hlength.2 hcondition (hrest.mono fun p hp => (hparts p hp).1)
      (hrest.mono fun p hp => (hparts p hp).2.2)).bind ?_))
  have hfound : ¬ (condition.isNone && (t.name?.bind RelationPath.ofName?).isNone) = true := by
    intro h
    obtain ⟨hc, hp⟩ := Bool.and_eq_true_iff.mp h
    exact hone (Option.isNone_iff_eq_none.mp hc) (Option.isNone_iff_eq_none.mp hp)
  rw [if_neg hfound]
  exact .pure

theorem atJoin_cursor {ps : List Sign}
    (h : Before (fun p => !p.isKeyword "JOIN" && !p.isKeyword "INNER" && !p.isKeyword "LEFT") ps) :
    (cursor ps).atJoin = false := by
  have hp : ∀ p : Sign, (!p.isKeyword "JOIN" && !p.isKeyword "INNER" && !p.isKeyword "LEFT") = true →
      (!p.isKeyword "JOIN") = true ∧ (!p.isKeyword "INNER") = true ∧ (!p.isKeyword "LEFT") = true := by
    intro p hp
    simpa only [Bool.and_eq_true, and_assoc] using hp
  rw [Cursor.atJoin, startsWith_cursor (h.mono fun p hs => (hp p hs).1),
    startsWith_cursor (h.mono fun p hs => (hp p hs).2.1),
    startsWith_cursor (h.mono fun p hs => (hp p hs).2.2),
    startsWith_cursor (h.mono fun p hs => (hp p hs).2.2)]
  rfl

theorem At.atJoin {c : Cursor} {ps : List Sign} (hc : c.At ps) : c.atJoin = (cursor ps).atJoin := by
  simp only [Cursor.atJoin, hc.startsWith]

theorem joinsSigns_eq (js : List Join) : joinsSigns N js = js.flatMap (joinSigns N) := by
  induction js with
  | nil => rfl
  | cons j js ih =>
    obtain ⟨kind, t, c, p⟩ := j
    rw [joinsSigns, List.flatMap_cons, ih]
    rfl

/-- The joins of a select, up to the clause after them. -/
theorem items_joins (hr : r.Recovers N V n) (hrest : Before endsJoin rest)
    (hno : Before (fun p => !p.isKeyword "JOIN" && !p.isKeyword "INNER" && !p.isKeyword "LEFT") rest) :
    ∀ {js : List Join}, (joinsSigns N js).length ≤ n → JoinsShaped V js →
    Before endsJoin (joinsSigns N js ++ rest) ∧ Items (join? r) (joinsSigns N js ++ rest) js rest
  | [], _, _ => by
    refine ⟨hrest, .nil (Reads.get fun c hc => ?_)⟩
    rw [if_neg (by rw [At.atJoin hc]; exact Bool.eq_false_iff.mp (atJoin_cursor hno))]
    exact .of hc .pure
  | j :: js, hn, hjs => by
    obtain ⟨hj, hjs⟩ := List.forall_mem_cons.mp (joinsShaped_iff.mp hjs)
    have hsigns : joinsSigns N (j :: js) = joinSigns N j ++ joinsSigns N js := by
      rw [joinsSigns_eq, joinsSigns_eq, List.flatMap_cons]
    rw [hsigns, List.length_append] at hn
    obtain ⟨hnext, hitems⟩ := items_joins hr hrest hno (by omega) (joinsShaped_iff.mpr hjs)
    have hkind : (cursor (joinSigns N j ++ (joinsSigns N js ++ rest))).atJoin = true
        ∧ Before endsJoin (joinSigns N j ++ (joinsSigns N js ++ rest)) ∧ 0 < (joinSigns N j).length := by
      obtain ⟨kind, t, condition, path⟩ := j
      cases kind <;> exact ⟨rfl, .cons rfl, Nat.succ_pos _⟩
    rw [hsigns, List.append_assoc]
    refine ⟨hkind.2.1, .cons (Reads.get fun c hc => ?_) ?_ hitems⟩
    · rw [if_pos (by rw [At.atJoin hc, hkind.1])]
      exact .of hc (reads_join hr (by omega) hj hnext).map
    · simp only [List.length_append]
      omega

/-! ## Lists after a phrase -/

/-- The items of a clause that is there only where it is not empty. -/
theorem reads_listAfter {α : Type} {p : Parse α} {f : α → List Sign} {g : Sign → Bool} {as : List α}
    {w : String} {ws : Phrase} (hp : ∀ a ∈ as, ∀ ys, Before g ys → Reads p (f a ++ ys) a ys)
    (hcomma : g (.symbol ",") = true) (hrest : Before g rest)
    (hno : Before (fun p => !p.isSymbol ",") rest) (hw : Before (fun p => !p.isKeyword w) rest) :
    Reads (listAfter (w :: ws) p) (clauseSigns (w :: ws) (commas (as.map f)) (!as.isEmpty) ++ rest)
      as rest := by
  cases as with
  | nil => exact (Reads.no_phrase (startsWith_cursor hw)).bind .pure
  | cons a as =>
    show Reads (listAfter (w :: ws) p) (Sign.phrase (w :: ws) ++ commas ((a :: as).map f) ++ rest) _ _
    rw [List.append_assoc]
    exact (Reads.phrase? (w :: ws)).bind (Reads.commaList (List.cons_ne_nil a as) hp hcomma hrest hno)

theorem reads_fields (hr : r.Recovers N V n) {fs : List ResultField}
    (hn : (fieldsSigns N fs).length ≤ n) (hfs : FieldsShaped V fs) :
    ∀ f ∈ fs, ∀ ys, Before endsField ys →
      Reads (field r) (f.expr.signs N ++ fieldAliasSigns f.label ++ ys) f ys := by
  intro f hf ys hys
  have hlength : (f.expr.signs N ++ fieldAliasSigns f.label).length ≤ (fieldsSigns N fs).length := by
    rw [fieldsSigns_eq]
    exact length_le_commas (f := fun f : ResultField => f.expr.signs N ++ fieldAliasSigns f.label) hf
  rw [List.length_append] at hlength
  exact reads_field hr (by omega) (fieldsShaped_iff.mp hfs f hf).1 hys

theorem reads_orders (hr : r.Recovers N V n) {os : List OrderItem}
    (hn : (ordersSigns N os).length ≤ n) (hos : OrdersShaped V os) :
    ∀ o ∈ os, ∀ ys, Before (fun _ => true) ys →
      Reads (order r) (o.expr.signs N ++ directionSigns o.ascending ++ ys) o ys := by
  intro o ho ys _
  have hlength : (o.expr.signs N ++ directionSigns o.ascending).length ≤ (ordersSigns N os).length := by
    rw [ordersSigns_eq]
    exact length_le_commas (f := fun o : OrderItem => o.expr.signs N ++ directionSigns o.ascending) ho
  rw [List.length_append] at hlength
  exact reads_order hr (by omega) (ordersShaped_iff.mp hos o ho)

end Grammar

/-! ## What may follow a clause -/

namespace Sign

def coreEnds : List Sign := keyword "UNION" :: selectEnds
def limitEnds : List Sign := keyword "OFFSET" :: coreEnds
def orderingEnds : List Sign := keyword "LIMIT" :: limitEnds
def havingEnds : List Sign := keyword "ORDER" :: orderingEnds
def groupingEnds : List Sign := keyword "HAVING" :: havingEnds
def criteriaEnds : List Sign := keyword "GROUP" :: groupingEnds
def joinsEnds : List Sign := keyword "WHERE" :: criteriaEnds
def sourceEnds : List Sign := keyword "INNER" :: keyword "LEFT" :: joinsEnds
def fieldsEnds : List Sign := keyword "FROM" :: sourceEnds

variable {S rest : List Sign}

theorem Heads.cons {p : Sign} {ps : List Sign} (h : p ∈ S) : Heads S (p :: ps) := by
  rintro _ ⟨⟩
  exact h

theorem Heads.skip {p : Sign} (h : Heads S rest) : Heads (p :: S) rest :=
  fun q hq => List.mem_cons_of_mem p (h q hq)

theorem heads_opt {w : String} {v : List String} (h : Heads S rest) (o : Option Expr) :
    Heads (keyword w :: S) (optSigns N (w :: v) o ++ rest) := by
  cases o with
  | none => exact h.skip
  | some e => exact .cons List.mem_cons_self

theorem heads_clause {w : String} {v : List String} (h : Heads S rest) (body : List Sign)
    (present : Bool) : Heads (keyword w :: S) (clauseSigns (w :: v) body present ++ rest) := by
  cases present with
  | false => exact h.skip
  | true => exact .cons List.mem_cons_self

theorem heads_source (h : Heads S rest) (t : Option Table) :
    Heads (keyword "FROM" :: S) (optTableSigns N t ++ rest) := by
  cases t with
  | none => exact h.skip
  | some t => exact .cons List.mem_cons_self

theorem heads_joins (h : Heads S rest) (js : List Join) :
    Heads (keyword "INNER" :: keyword "LEFT" :: S) (joinsSigns N js ++ rest) := by
  cases js with
  | nil => exact h.skip.skip
  | cons j js =>
    obtain ⟨kind, t, condition, path⟩ := j
    cases kind with
    | inner => exact .cons List.mem_cons_self
    | left => exact .cons (List.mem_cons_of_mem _ List.mem_cons_self)

theorem heads_unions (h : Heads S rest) (us : List UnionPart) :
    Heads (keyword "UNION" :: S) (unionsSigns N us ++ rest) := by
  cases us with
  | nil => exact h.skip
  | cons u us =>
    obtain ⟨all, s⟩ := u
    cases all <;> exact .cons List.mem_cons_self

end Sign

/-! ## Selects -/

namespace Grammar

variable {n : Nat} {r : Rules} {rest : List Sign}

theorem reads_source (hr : r.Recovers N V n) {t : Option Table} (hn : (optTableSigns N t).length ≤ n)
    (ht : OptTableShaped V t) (hrest : Before endsTable rest)
    (hno : Before (fun p => !p.isKeyword "FROM") rest) :
    Reads (after? ["FROM"] (table r)) (optTableSigns N t ++ rest) t rest := by
  cases t with
  | none => exact .no_after (startsWith_cursor hno)
  | some t =>
    rw [optTableSigns, List.length_cons] at hn
    exact .after? (w := ["FROM"]) (reads_table hr (by omega) ht hrest)

theorem before_fields {f : Sign → Bool} (h : ∀ p, p.starts = true → f p = true)
    {fs : List ResultField} (hne : fs ≠ []) : Before f (fieldsSigns N fs ++ rest) := by
  obtain ⟨⟨e, a⟩, fs, rfl⟩ := List.exists_cons_of_ne_nil hne
  rw [fieldsSigns_eq, List.map_cons, commas, List.append_assoc, List.append_assoc]
  exact e.before_signs h _

theorem reads_fieldList (hr : r.Recovers N V n) {fs : List ResultField} (hne : fs ≠ [])
    (hn : (fieldsSigns N fs).length ≤ n) (hfs : FieldsShaped V fs) (hrest : Heads fieldsEnds rest) :
    Reads (commaList (field r)) (fieldsSigns N fs ++ rest) fs rest := by
  rw [fieldsSigns_eq]
  exact Reads.commaList hne (reads_fields hr hn hfs) rfl (hrest.before (by decide))
    (hrest.before (by decide))

theorem reads_grouping (hr : r.Recovers N V n) {gs : List Expr}
    (hn : (clauseSigns ["GROUP", "BY"] (exprsSigns N gs) (!gs.isEmpty)).length ≤ n)
    (hgs : ExprsShaped V gs) (hrest : Heads groupingEnds rest) :
    Reads (listAfter ["GROUP", "BY"] (expr r))
      (clauseSigns ["GROUP", "BY"] (exprsSigns N gs) (!gs.isEmpty) ++ rest) gs rest := by
  have hlength : (exprsSigns N gs).length ≤ n := by
    cases gs with
    | nil => exact Nat.zero_le n
    | cons g gs => exact le_trans (List.length_append ▸ Nat.le_add_left _ _) hn
  rw [exprsSigns_eq]
  exact reads_listAfter (reads_exprs hr hlength hgs) rfl (hrest.before (by decide))
    (hrest.before (by decide)) (hrest.before (by decide))

theorem reads_ordering (hr : r.Recovers N V n) {os : List OrderItem}
    (hn : (clauseSigns ["ORDER", "BY"] (ordersSigns N os) (!os.isEmpty)).length ≤ n)
    (hos : OrdersShaped V os) (hrest : Heads orderingEnds rest) :
    Reads (listAfter ["ORDER", "BY"] (order r))
      (clauseSigns ["ORDER", "BY"] (ordersSigns N os) (!os.isEmpty) ++ rest) os rest := by
  have hlength : (ordersSigns N os).length ≤ n := by
    cases os with
    | nil => exact Nat.zero_le n
    | cons o os => exact le_trans (List.length_append ▸ Nat.le_add_left _ _) hn
  rw [ordersSigns_eq]
  exact reads_listAfter (reads_orders hr hlength hos) rfl (hrest.before fun _ _ => rfl)
    (hrest.before (by decide)) (hrest.before (by decide))

/-- The fields of a select stand where fields are expected. -/
theorem at_fields {fs : List ResultField} (hne : fs ≠ []) {c : Cursor}
    (hc : c.At (fieldsSigns N fs ++ rest)) : ¬ (c.atEnd || c.startsWith ["FROM"]) = true := by
  have hfrom := At.no_phrase (w := "FROM") (v := []) hc (before_fields (fun p hp => by
    rw [isKeyword_of_starts hp (by decide)]
    rfl) hne)
  have hend : c.atEnd = false := by
    obtain ⟨⟨e, a⟩, fs, rfl⟩ := List.exists_cons_of_ne_nil hne
    obtain ⟨p, ps, hp, -⟩ := e.signs_starts (N := N)
    have hlength := hc.length
    rw [fieldsSigns_eq, List.map_cons, commas, hp] at hlength
    cases hafter : c.after with
    | nil => rw [hafter] at hlength; cases hlength
    | cons t ts => rw [Cursor.atEnd, hafter]; rfl
  rw [hend, Bool.false_or]
  exact hfrom

/-- A select without further parts of a union. -/
theorem reads_core (hr : r.Recovers N V n) {s : Select} (hn : (s.signs N).length ≤ n + 1)
    (hs : s.Shaped V) (hunions : s.unions = []) (hrest : Heads coreEnds rest) :
    Reads (selectCore r) (s.signs N ++ rest) s rest := by
  obtain ⟨d, fs, t, js, c, gs, hv, os, l, o, us, f⟩ := s
  obtain ⟨hne, hfs, ht, hjs, hc, hgs, hhv, hos, hl, ho, -, rfl⟩ := hs
  cases hunions
  -- what stands after each clause
  have hlimit : Heads limitEnds _ := heads_opt (N := N) (v := []) hrest o
  have hordering : Heads orderingEnds _ := heads_opt (N := N) (v := []) hlimit l
  have hhaving : Heads havingEnds _ :=
    heads_clause (v := ["BY"]) hordering (ordersSigns N os) (!os.isEmpty)
  have hgrouping : Heads groupingEnds _ := heads_opt (N := N) (v := []) hhaving hv
  have hcriteria : Heads criteriaEnds _ :=
    heads_clause (v := ["BY"]) hgrouping (exprsSigns N gs) (!gs.isEmpty)
  have hjoins : Heads joinsEnds _ := heads_opt (N := N) (v := []) hcriteria c
  have hsource : Heads sourceEnds _ := heads_joins (N := N) hjoins js
  have hfields : Heads fieldsEnds _ := heads_source (N := N) hsource t
  rw [Select.signs, unionsSigns, List.append_nil] at hn ⊢
  simp only [List.length_cons, List.length_append] at hn
  obtain ⟨-, hitems⟩ := items_joins hr (hjoins.before (by decide)) (hjoins.before (by decide))
    (show (joinsSigns N js).length ≤ n by omega) hjs
  simp only [List.cons_append, List.append_assoc]
  refine (Reads.phrase ["SELECT"] _).bind ((reads_distinct d (before_fields (fun p hp => by
    rw [isKeyword_of_starts hp (by decide)]
    rfl) hne)).bind (Reads.get fun cursor hcursor => ?_))
  rw [if_neg (at_fields hne hcursor)]
  refine .of hcursor ((reads_fieldList hr hne (by omega) hfs hfields).bind ?_)
  refine (reads_source hr (by omega) ht (hsource.before (by decide)) (hsource.before (by decide))).bind ?_
  refine (Reads.many hitems).bind ?_
  refine (reads_opt hr (by omega) hc (hcriteria.before (by decide)) (hcriteria.before (by decide))).bind ?_
  refine (reads_grouping hr (by omega) hgs hgrouping).bind ?_
  refine (reads_opt hr (by omega) hhv (hhaving.before (by decide)) (hhaving.before (by decide))).bind ?_
  refine (reads_ordering hr (by omega) hos hordering).bind ?_
  refine (reads_opt hr (by omega) hl (hlimit.before (by decide)) (hlimit.before (by decide))).bind ?_
  exact (reads_opt hr (by omega) ho (hrest.before (by decide)) (hrest.before (by decide))).bind .pure

/-- The further parts of a union, up to what follows the select. -/
theorem items_unions (hr : r.Recovers N V n) (hrest : Heads selectEnds rest) :
    ∀ {us : List UnionPart}, (unionsSigns N us).length ≤ n → UnionsShaped V us →
    Items (union? r) (unionsSigns N us ++ rest) us rest
  | [], _, _ => by
    exact .nil ((Reads.no_phrase (startsWith_cursor (hrest.before (by decide)))).bind
      ((Reads.no_phrase (startsWith_cursor (hrest.before (by decide)))).bind .pure))
  | ⟨all, s⟩ :: us, hn, ⟨hs, hunions, hus⟩ => by
    rw [unionsSigns] at hn ⊢
    simp only [List.length_append] at hn
    have hitems := items_unions hr hrest (show (unionsSigns N us).length ≤ n by omega) hus
    have hcore := reads_core hr (show (s.signs N).length ≤ n + 1 by omega) hs hunions
      (heads_unions (N := N) hrest us)
    rw [List.append_assoc, List.append_assoc]
    cases all with
    | false =>
      have hone : (cursor (Sign.phrase ["UNION"] ++ (s.signs N ++ (unionsSigns N us ++ rest)))).startsWith
          ["UNION", "ALL"] = false := by
        cases s
        rfl
      refine .cons ((Reads.no_phrase hone).bind ((Reads.phrase? ["UNION"]).bind hcore.map)) ?_ hitems
      simp only [if_false, Bool.false_eq_true, List.length_append, Sign.phrase, List.length_map,
        List.length_cons]
      omega
    | true =>
      refine .cons ((Reads.phrase? ["UNION", "ALL"]).bind hcore.map) ?_ hitems
      simp only [if_true, List.length_append, Sign.phrase, List.length_map, List.length_cons]
      omega

/-- **A select with its unions is read back.** -/
theorem reads_select (hr : r.Recovers N V n) {s : Select} (hn : (s.signs N).length ≤ n + 1)
    (hs : s.Shaped V) (hrest : Heads selectEnds rest) : Reads (select r) (s.signs N ++ rest) s rest := by
  obtain ⟨d, fs, t, js, c, gs, hv, os, l, o, us, f⟩ := s
  have hus : UnionsShaped V us := hs.2.2.2.2.2.2.2.2.2.2.1
  have hcore : (⟨d, fs, t, js, c, gs, hv, os, l, o, [], f⟩ : Select).Shaped V :=
    ⟨hs.1, hs.2.1, hs.2.2.1, hs.2.2.2.1, hs.2.2.2.2.1, hs.2.2.2.2.2.1, hs.2.2.2.2.2.2.1,
      hs.2.2.2.2.2.2.2.1, hs.2.2.2.2.2.2.2.2.1, hs.2.2.2.2.2.2.2.2.2.1, trivial,
      hs.2.2.2.2.2.2.2.2.2.2.2⟩
  have hsigns : Select.signs N ⟨d, fs, t, js, c, gs, hv, os, l, o, us, f⟩
      = Select.signs N ⟨d, fs, t, js, c, gs, hv, os, l, o, [], f⟩ ++ unionsSigns N us := by
    simp only [Select.signs, unionsSigns, List.append_nil, List.cons_append]
  have hpos : 0 < (Select.signs N ⟨d, fs, t, js, c, gs, hv, os, l, o, [], f⟩).length := Nat.succ_pos _
  rw [hsigns, List.length_append] at hn
  rw [hsigns, List.append_assoc]
  exact (reads_core hr (by omega) hcore rfl (heads_unions (N := N) hrest us)).bind
    ((Reads.many (items_unions hr hrest (by omega) hus)).bind .pure)

end Grammar

theorem Leaf.signs_length_pos (l : Leaf) : 0 < (l.signs N).length := by
  obtain ⟨wrapped, e⟩ := l
  obtain ⟨p, ps, hp, -⟩ := e.signs_starts (N := N)
  cases wrapped with
  | false =>
    show 0 < (e.signs N).length
    rw [hp]
    exact Nat.succ_pos _
  | true => exact Nat.succ_pos _

/-- **Rules of depth `n` recover trees of at most `n` signs**: each nesting takes a sign. -/
theorem Rules.recovers_upTo (hN : N.Legible V) : ∀ n, (Rules.upTo n).Recovers N V n
  | 0 => by
    refine ⟨hN, fun {_ t _ _} hn => ?_, fun {l _} hn => ?_, fun {s _} hn => ?_⟩
    · have hhead := t.length_head_le (N := N)
      have hpos := t.head.signs_length_pos (N := N)
      omega
    · have hpos := l.signs_length_pos (N := N)
      omega
    · cases s
      cases hn
  | n + 1 =>
    have hr := recovers_upTo hN n
    ⟨hN, fun hn => Grammar.reads_flat hr hn, fun hn => Grammar.reads_operand hr hn,
      fun hn => Grammar.reads_select hr hn⟩

/-! ## The other statements -/

namespace Grammar

variable {n : Nat} {r : Rules} {rest : List Sign}

theorem reads_row (hr : r.Recovers N V n) {e : Expr} (hn : (e.signs N).length ≤ n) (he : e.RowShaped V) :
    Reads (row r) (e.signs N ++ rest) e rest := by
  obtain ⟨items, rfl, hne, hitems⟩ := he
  rw [Expr.signs, parens] at hn ⊢
  simp only [List.length_cons, List.length_append] at hn
  have hlist := Reads.commaList hne (reads_exprs hr (show (exprsSigns N items).length ≤ n by omega) hitems)
    rfl (.cons rfl : Before _ (.symbol ")" :: rest)) (.cons rfl)
  rw [← exprsSigns_eq] at hlist
  rw [List.cons_append, List.append_assoc, List.singleton_append]
  exact (Reads.symbol "(").bind (hlist.bind ((Reads.symbol ")").bind .pure))

theorem reads_column (hN : N.Legible V) {e : Expr} (he : e.NameShaped V)
    (hrest : Before (fun p => !p.isSymbol ".") rest) :
    Reads (Expr.ident <$> identifier) (e.signs N ++ rest) e rest := by
  obtain ⟨s, hs, rfl⟩ := he
  have hstar : s ≠ "*" := fun h => hN.star (h ▸ hs)
  rw [Expr.name, Expr.signs, if_neg hstar]
  exact (hN.reads hs hrest).map

theorem reads_columns (hN : N.Legible V) {es : List Expr} (hes : ∀ e ∈ es, e.NameShaped V)
    (hrest : Before (fun p => !p.isSymbol "(") rest) :
    Reads columns ((if es.isEmpty then [] else parens (exprsSigns N es)) ++ rest) es rest := by
  cases es with
  | nil => exact (Reads.no_symbol hrest).bind .pure
  | cons e es =>
    have hlist := Reads.commaList (List.cons_ne_nil e es) (fun e he ys hys => reads_column hN (hes e he) hys)
      rfl (.cons rfl : Before _ (.symbol ")" :: rest)) (.cons rfl)
    rw [← exprsSigns_eq] at hlist
    show Reads columns (parens (exprsSigns N (e :: es)) ++ rest) _ _
    rw [parens, List.cons_append, List.append_assoc, List.singleton_append]
    exact (Reads.symbol? "(").bind (hlist.bind ((Reads.symbol ")").bind .pure))

theorem reads_insertSource (hr : r.Recovers N V n) {i : InsertSource} (hn : (i.signs N).length ≤ n)
    (hi : i.Shaped V) (hrest : Heads selectEnds rest) :
    Reads (insertSource r) (i.signs N ++ rest) i rest := by
  cases i with
  | values rows =>
    obtain ⟨hne, hrows⟩ := hi
    rw [InsertSource.signs, List.length_cons] at hn
    have hread : ∀ e ∈ rows, ∀ ys, Before (fun _ => true) ys → Reads (row r) (e.signs N ++ ys) e ys := by
      intro e he ys _
      have hlength : (e.signs N).length ≤ (exprsSigns N rows).length := by
        rw [exprsSigns_eq]
        exact length_le_commas he
      exact reads_row hr (by omega) (hrows e he)
    have hlist := Reads.commaList hne hread rfl (hrest.before fun _ _ => rfl) (hrest.before (by decide))
    rw [← exprsSigns_eq] at hlist
    exact (Reads.phrase? ["VALUES"]).bind hlist.map
  | select s =>
    have hvalues : Reads (phrase? ["VALUES"]) (s.signs N ++ rest) false (s.signs N ++ rest) := by
      refine .no_phrase ?_
      cases s
      rfl
    refine hvalues.bind (Reads.get fun c hc => ?_)
    have hselect : c.startsWith ["SELECT"] = true := by
      rw [hc.startsWith]
      cases s
      rfl
    rw [if_pos hselect]
    exact .of hc (hr.select hn hi hrest).map

theorem reads_insert (hr : r.Recovers N V n) {i : Insert} (hn : (i.signs N).length ≤ n)
    (hi : i.Shaped V) : Reads (insert r) (i.signs N) i [] := by
  obtain ⟨t, columns, source, returning, facts⟩ := i
  obtain ⟨ht, hcolumns, hsource, hreturning, rfl⟩ := hi
  dsimp only at ht hcolumns hsource hreturning
  rw [Insert.signs] at hn ⊢
  simp only [List.length_append] at hn
  have hsourceEnds : Heads selectEnds
      (clauseSigns ["RETURNING"] (fieldsSigns N returning) (!returning.isEmpty) ++ []) := by
    cases returning with
    | nil => exact .nil
    | cons f fs => exact .cons (by decide)
  -- the source of the rows starts with a keyword
  have hsourceStart : ∀ ps, ∃ w qs, source.signs N ++ ps = keyword w :: qs ∧ w ∈ ["VALUES", "SELECT"] := by
    intro ps
    cases source with
    | values rows => exact ⟨_, _, rfl, by decide⟩
    | select s => cases s; exact ⟨_, _, rfl, by decide⟩
  have hreading : Reads (listAfter ["RETURNING"] (field r))
      (clauseSigns ["RETURNING"] (fieldsSigns N returning) (!returning.isEmpty) ++ []) returning [] := by
    have hlength : (fieldsSigns N returning).length ≤ n := by
      cases returning with
      | nil => exact Nat.zero_le n
      | cons f fs =>
        have hclause : (fieldsSigns N (f :: fs)).length
            ≤ (clauseSigns ["RETURNING"] (fieldsSigns N (f :: fs)) true).length := Nat.le_succ _
        exact hclause.trans (by exact le_trans (Nat.le_add_left _ _) hn)
    rw [fieldsSigns_eq]
    exact reads_listAfter (reads_fields hr hlength hreturning) rfl .nil .nil .nil
  rw [← List.append_nil (_ ++ clauseSigns _ _ _)]
  simp only [List.append_assoc]
  obtain ⟨w, qs, hw, hmem⟩ := hsourceStart
    (clauseSigns ["RETURNING"] (fieldsSigns N returning) (!returning.isEmpty) ++ [])
  have hsymbols : Before (fun p => !p.isSymbol "(") (source.signs N ++
      (clauseSigns ["RETURNING"] (fieldsSigns N returning) (!returning.isEmpty) ++ [])) := by
    rw [hw]
    exact .cons rfl
  have htable : Before endsTable ((if columns.isEmpty then [] else parens (exprsSigns N columns)) ++
      (source.signs N ++ (clauseSigns ["RETURNING"] (fieldsSigns N returning) (!returning.isEmpty) ++ []))) := by
    cases columns with
    | cons e es => exact .cons rfl
    | nil =>
      show Before endsTable (source.signs N ++ _)
      rw [hw]
      refine .cons ?_
      rcases List.mem_pair.mp hmem with rfl | rfl <;> rfl
  refine (Reads.phrase ["INSERT", "INTO"] _).bind ((reads_table hr (by omega) ht htable).bind ?_)
  exact (reads_columns hr.legible hcolumns hsymbols).bind
    ((reads_insertSource hr (by omega) hsource hsourceEnds).bind (hreading.bind .pure))

theorem reads_assignment (hr : r.Recovers N V n) {a : Assignment} (hn : (a.signs N).length ≤ n)
    (ht : a.target.NameShaped V) (hv : a.value.Shaped V) (hrest : Before stops rest) :
    Reads (assignment r) (a.signs N ++ rest) a rest := by
  obtain ⟨target, value⟩ := a
  obtain ⟨s, hs, htarget⟩ := ht
  cases htarget
  have hstar : s ≠ "*" := fun h => hr.legible.star (h ▸ hs)
  dsimp only [Assignment.signs] at hn hv ⊢
  rw [List.length_append, List.length_cons] at hn
  rw [Expr.signs, if_neg hstar, List.append_assoc, List.cons_append]
  exact (hr.legible.reads hs (.cons rfl)).bind ((Reads.symbol "=").bind
    ((reads_expr hr (by omega) hv hrest).bind .pure))

theorem reads_update (hr : r.Recovers N V n) {u : Update} (hn : (u.signs N).length ≤ n)
    (hu : u.Shaped V) : Reads (update r) (u.signs N) u [] := by
  obtain ⟨t, as, c, os, l, o, f⟩ := u
  obtain ⟨ht, hne, has, hc, hos, hl, ho, rfl⟩ := hu
  dsimp only at ht hne has hc hos hl ho
  have hend : Heads coreEnds [] := .nil
  have hlimit : Heads limitEnds _ := heads_opt (N := N) (v := []) hend o
  have hordering : Heads orderingEnds _ := heads_opt (N := N) (v := []) hlimit l
  have hcriteria : Heads havingEnds _ :=
    heads_clause (v := ["BY"]) hordering (ordersSigns N os) (!os.isEmpty)
  have hset : Heads (keyword "WHERE" :: havingEnds) _ := heads_opt (N := N) (v := []) hcriteria c
  rw [Update.signs, tailSigns] at hn ⊢
  simp only [List.length_append, List.length_cons] at hn
  have hlist : Reads (commaList (assignment r)) (commas (as.map (Assignment.signs N)) ++ _) as _ :=
    Reads.commaList hne (fun a ha ys hys => reads_assignment hr
      ((length_le_commas ha).trans (by omega)) (has a ha).1 (has a ha).2 hys) rfl
      (hset.before (by decide)) (hset.before (by decide))
  rw [← List.append_nil (_ ++ (_ ++ optSigns N ["OFFSET"] o))]
  simp only [List.cons_append, List.append_assoc]
  refine (Reads.phrase ["UPDATE"] _).bind ((reads_table hr (by omega) ht (.cons rfl)).bind
    ((Reads.phrase ["SET"] _).bind (hlist.bind ?_)))
  refine (reads_opt hr (by omega) hc (hcriteria.before (by decide)) (hcriteria.before (by decide))).bind ?_
  refine (reads_ordering hr (by omega) hos hordering).bind ?_
  refine (reads_opt hr (by omega) hl (hlimit.before (by decide)) (hlimit.before (by decide))).bind ?_
  exact (reads_opt hr (by omega) ho (hend.before (by decide)) (hend.before (by decide))).bind .pure

theorem reads_delete (hr : r.Recovers N V n) {d : Delete} (hn : (d.signs N).length ≤ n)
    (hd : d.Shaped V) : Reads (delete r) (d.signs N) d [] := by
  obtain ⟨t, c, os, l, o, f⟩ := d
  obtain ⟨ht, hc, hos, hl, ho, rfl⟩ := hd
  dsimp only at ht hc hos hl ho
  have hend : Heads coreEnds [] := .nil
  have hlimit : Heads limitEnds _ := heads_opt (N := N) (v := []) hend o
  have hordering : Heads orderingEnds _ := heads_opt (N := N) (v := []) hlimit l
  have hcriteria : Heads havingEnds _ :=
    heads_clause (v := ["BY"]) hordering (ordersSigns N os) (!os.isEmpty)
  have htable : Heads (keyword "WHERE" :: havingEnds) _ := heads_opt (N := N) (v := []) hcriteria c
  rw [Delete.signs, tailSigns] at hn ⊢
  simp only [List.length_append] at hn
  rw [← List.append_nil (_ ++ (_ ++ optSigns N ["OFFSET"] o))]
  simp only [List.append_assoc]
  refine (Reads.phrase ["DELETE", "FROM"] _).bind ((reads_table hr (by omega) ht
    (htable.before (by decide))).bind ?_)
  refine (reads_opt hr (by omega) hc (hcriteria.before (by decide)) (hcriteria.before (by decide))).bind ?_
  refine (reads_ordering hr (by omega) hos hordering).bind ?_
  refine (reads_opt hr (by omega) hl (hlimit.before (by decide)) (hlimit.before (by decide))).bind ?_
  exact (reads_opt hr (by omega) ho (hend.before (by decide)) (hend.before (by decide))).bind .pure

theorem reads_finish : Reads finish [] () [] := by
  refine (Reads.no_symbol .nil).bind (Reads.get fun c hc => ?_)
  have hend : c.atEnd = true := by
    rw [Cursor.atEnd, List.forall₂_nil_right_iff.mp hc.tokens]
    rfl
  rw [if_pos hend]
  exact .of hc .pure

/-- **A whole query is read back.** -/
theorem reads_query (hr : r.Recovers N V n) {q : Query} (hn : (q.signs N).length ≤ n)
    (hq : q.Shaped V) : Reads (query r) (q.signs N) q [] := by
  refine Reads.get fun c hc => ?_
  have hbegins : ∀ ph : Phrase, c.startsWith ph = (cursor (q.signs N)).startsWith ph := hc.startsWith
  have hfinish : ∀ {p : Parse Query}, Reads p (q.signs N) q [] →
      ReadsAt c (p >>= fun q => do finish; pure q) q [] := fun hp =>
    .of hc (hp.bind (reads_finish.bind .pure))
  cases q with
  | select s =>
    have hselect : c.startsWith ["SELECT"] = true := by
      rw [hbegins]
      cases s
      rfl
    rw [if_pos hselect]
    have hread := hr.select hn hq (.nil : Heads selectEnds [])
    rw [List.append_nil] at hread
    exact hfinish hread.map
  | insert i =>
    have hno : ¬ c.startsWith ["SELECT"] = true := by
      rw [hbegins]
      exact Bool.false_ne_true
    have hinsert : c.startsWith ["INSERT", "INTO"] = true := by
      rw [hbegins]
      rfl
    rw [if_neg hno, if_pos hinsert]
    exact hfinish (reads_insert hr hn hq).map
  | update u =>
    have hno : ¬ c.startsWith ["SELECT"] = true ∧ ¬ c.startsWith ["INSERT", "INTO"] = true := by
      rw [hbegins, hbegins]
      exact ⟨Bool.false_ne_true, Bool.false_ne_true⟩
    have hupdate : c.startsWith ["UPDATE"] = true := by
      rw [hbegins]
      rfl
    rw [if_neg hno.1, if_neg hno.2, if_pos hupdate]
    exact hfinish (reads_update hr hn hq).map
  | delete d =>
    have hno : ¬ c.startsWith ["SELECT"] = true ∧ ¬ c.startsWith ["INSERT", "INTO"] = true
        ∧ ¬ c.startsWith ["UPDATE"] = true := by
      rw [hbegins, hbegins, hbegins]
      exact ⟨Bool.false_ne_true, Bool.false_ne_true, Bool.false_ne_true⟩
    have hdelete : c.startsWith ["DELETE", "FROM"] = true := by
      rw [hbegins]
      rfl
    rw [if_neg hno.1, if_neg hno.2.1, if_neg hno.2.2, if_pos hdelete]
    exact hfinish (reads_delete hr hn hq).map

end Grammar

end EntitySql
