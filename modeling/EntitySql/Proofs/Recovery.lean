import Mathlib
import EntitySql.Grammar.Rules
import EntitySql.Proofs.Operands

/-!
# Reading written expressions

The readers of the grammar read the signs of a written expression back to that expression, whatever
the lettering, as long as they can read its names (`Lettering.Legible`). Readers contain each other to
a bounded depth, and a tree that is nested in another has fewer signs, so that `Rules.Recovers n`,
which speaks of trees of at most `n` signs, goes up with the depth.

* `Grammar.reads_operand`: operands, in parentheses or not.
* `Grammar.reads_flat`: a row of operands and operators is read and folded to the expression it was
  made of.
-/

namespace EntitySql

open Sign Parse

variable {N : Lettering} {V : Vocabulary}

/-! ## Recovering trees -/

namespace Sign

/-- The next sign, if there is one, is one of the given. -/
def Heads (S ps : List Sign) : Prop := ∀ p, ps.head? = some p → p ∈ S

theorem Heads.nil {S : List Sign} : Heads S [] := fun _ h => by cases h

theorem Heads.before {S ps : List Sign} {f : Sign → Bool} (h : Heads S ps)
    (hf : ∀ p ∈ S, f p = true) : Before f ps := fun p hp => hf p (h p hp)

/-- What may follow a select with its unions. -/
def selectEnds : List Sign := [symbol ")", keyword "RETURNING"]

theorem parts_of_stops {p : Sign} (h : p.stops = true) : p.parts = true := by
  obtain ⟨kind, text, mark⟩ := p
  simp only [stops, parts, isSymbol, Token.isSymbol, token, Bool.or_eq_true, Bool.and_eq_true,
    Bool.not_eq_true', Bool.and_eq_false_iff, beq_iff_eq, beq_eq_false_iff_ne] at h ⊢
  rcases h with (⟨rfl, -⟩ | ⟨-, rfl⟩) | ⟨-, rfl⟩
  · exact ⟨.inl (by decide), .inl (by decide)⟩
  · exact ⟨.inr (by decide), .inr (by decide)⟩
  · exact ⟨.inr (by decide), .inr (by decide)⟩

theorem isKeyword_of_starts {p : Sign} {w : String} (h : p.starts = true)
    (hw : ["NOT", "CASE", "TRUE", "FALSE", "NULL"].all (fun v => !Text.sameLetters v w) = true) :
    p.isKeyword w = false := by
  obtain ⟨kind, text, mark⟩ := p
  by_cases hk : kind = .keyword
  · subst hk
    have htext : text ∈ ["NOT", "CASE", "TRUE", "FALSE", "NULL"] := by simpa [starts] using h
    simpa [isKeyword, Token.isKeyword, token] using List.all_eq_true.mp hw text htext
  · simp [isKeyword, Token.isKeyword, token, hk]

theorem not_select {p : Sign} (h : p.starts = true) : (!p.isKeyword "SELECT") = true := by
  rw [isKeyword_of_starts h (by decide)]
  rfl

theorem isSymbol_of_starts {p : Sign} {s : String} (h : p.starts = true)
    (hs : s ∉ ["(", "-", "*"]) : p.isSymbol s = false := by
  obtain ⟨kind, text, mark⟩ := p
  by_cases hk : kind = .symbol
  · subst hk
    have htext : text ∈ ["(", "-", "*"] := by simpa [starts] using h
    have hne : text ≠ s := fun heq => hs (heq ▸ htext)
    simp [isSymbol, Token.isSymbol, token, hne]
  · simp [isSymbol, Token.isSymbol, token, hk]

end Sign

theorem Expr.before_signs (e : Expr) {f : Sign → Bool} (h : ∀ p, p.starts = true → f p = true)
    (ps : List Sign) : Before f (e.signs N ++ ps) := by
  obtain ⟨p, qs, hp, hs⟩ := e.signs_starts (N := N)
  rw [hp]
  exact .cons (h p hs)

/-- The signs of a further segment of a name. -/
def Sign.segment (g : String) : List Sign := [symbol ".", if g = "*" then symbol "*" else name g]

/-- What belongs to the vocabulary is read back. -/
structure Lettering.Legible (N : Lettering) (V : Vocabulary) : Prop where
  reads : ∀ {s : String} {rest : List Sign}, V.name s → Before (fun p => !p.isSymbol ".") rest →
    Reads Grammar.identifier (N.signs s ++ rest) { value := s } rest
  /-- A name is not taken for the start of a call. -/
  atom : ∀ {s : String}, V.name s →
    ∃ w ps, N.signs s = .name w :: ps ∧ Before (fun p => !p.isSymbol "(") ps
  /-- A wildcard of its own is no name. -/
  star : ¬ V.name "*"
  literal : ∀ {l : Literal}, V.literal l → l.IsPlain

/-- The rules read back what is written, for trees of at most `n` signs. -/
structure Rules.Recovers (N : Lettering) (V : Vocabulary) (n : Nat) (r : Rules) : Prop where
  legible : N.Legible V
  flat : ∀ {min : Nat} {t : Fork Leaf} {e : Expr} {rest : List Sign}, (t.signs N).length ≤ n →
    t.Stands V e →
    min ≤ Precedence.comparison → t.Within (min ≤ ·) → Before parts rest → OpBelow min rest →
    Reads (r.flat min) (t.signs N ++ rest) e rest
  operand : ∀ {l : Leaf} {rest : List Sign}, (l.signs N).length ≤ n → l.Readable V false →
    l.Ends rest → Reads r.operand (l.signs N ++ rest) l.expr rest
  select : ∀ {s : Select} {rest : List Sign}, (s.signs N).length ≤ n → s.Shaped V →
    Heads selectEnds rest → Reads r.select (s.signs N ++ rest) s rest

namespace Grammar

variable {n : Nat} {r : Rules} {rest : List Sign}

theorem reads_expr (hr : r.Recovers N V n) {e : Expr} (hn : (e.signs N).length ≤ n) (he : e.Shaped V)
    (hrest : Before stops rest) : Reads (expr r) (e.signs N ++ rest) e rest := by
  have hwithin : e.fork.Within (Precedence.lowest ≤ ·) :=
    e.ordered_fork.within fun o _ => Nat.zero_le _
  have hbelow : OpBelow Precedence.lowest rest := by
    intro op k h
    rw [operator?_stops hrest] at h
    cases h
  rw [e.signs_fork] at hn ⊢
  exact hr.flat hn (Expr.stands_branch he false) (by decide) hwithin
    (hrest.mono fun _ => parts_of_stops) hbelow

/-! ## Leaves -/

/-- Further segments of a name. -/
theorem items_segments (hrest : Before (fun p => !p.isSymbol ".") rest) : ∀ gs : List String,
    Items identifier.segment? (gs.flatMap Sign.segment ++ rest) gs rest
  | [] => by
    refine .nil fun c hc => ⟨c, ?_, hc⟩
    rw [identifier.segment?, hc.isSymbol, List.flatMap_nil, List.nil_append, isSymbol_cursor hrest]
  | g :: gs => by
    rw [List.flatMap_cons, List.append_assoc]
    refine .cons (fun c hc => ?_) ?_ (items_segments hrest gs)
    · have hdot : c.isSymbol "." = true := by
        rw [hc.isSymbol]
        rfl
      obtain ⟨t, hpeek, hkind, htext⟩ := hc.second
      have hword : (decide (t.kind = .identifier) || t.isSymbol "*") = true ∧ t.text = g := by
        rw [Token.isSymbol, hkind, htext]
        split
        · next hstar => exact ⟨rfl, hstar.symm⟩
        · exact ⟨rfl, rfl⟩
      have hquiet : ∀ p ∈ Sign.segment g, p.mark = none := by
        intro p hp
        rcases List.mem_pair.mp hp with rfl | rfl
        · rfl
        · split <;> rfl
      refine ⟨c.jump 2, ?_, hc.jump hquiet⟩
      rw [identifier.segment?, hdot, hpeek]
      simp only [hword.1, if_true, hword.2]
    · simp only [Sign.segment, List.length_append, List.length_cons]
      omega

theorem reads_identifier (s : String) (gs : List String) (hrest : Before (fun p => !p.isSymbol ".") rest) :
    Reads identifier (.name s :: (gs.flatMap Sign.segment ++ rest))
      { value := gs.foldl (fun value g => value ++ "." ++ g) s } rest :=
  (Reads.identifier s _).bind ((Reads.many (items_segments hrest gs)).bind .pure)

theorem reads_constant {l : Literal} {s : String} (h : Literal.ofToken? s = some l) :
    Reads literal (.literal s :: rest) l rest := by
  refine (Reads.no_phrase rfl).bind ((Reads.no_phrase rfl).bind ((Reads.no_phrase rfl).bind
    (Reads.get fun c hc => ?_)))
  obtain ⟨hkind, htext⟩ := hc.current
  have hk : c.current.kind = .literal := hkind
  have ht : c.current.text = s := htext (by rw [hk]; decide)
  rw [if_pos hk, ht, h]
  exact ⟨c.next, rfl, hc.next rfl⟩

theorem reads_literal {l : Literal} (hl : l.IsPlain) (hsign : ∀ k, l ≠ .int (.negSucc k)) :
    Reads literal (l.signs ++ rest) l rest := by
  cases l with
  | string s => exact reads_constant (Token.ofToken?_quoted s)
  | int i =>
    cases i with
    | ofNat k => exact reads_constant (Token.ofToken?_repr hl)
    | negSucc k => exact absurd rfl (hsign k)
  | float x => exact hl.elim
  | bool b =>
    cases b with
    | false => exact (Reads.no_phrase rfl).bind ((Reads.phrase? ["FALSE"]).bind .pure)
    | true => exact (Reads.phrase? ["TRUE"]).bind .pure
  | null => exact (Reads.no_phrase rfl).bind ((Reads.no_phrase rfl).bind ((Reads.phrase? ["NULL"]).bind .pure))

/-- A marker is read from a token of its kind. -/
theorem at_marker {c : Cursor} {p : Sign} (hp : p.kind = .parameter) (hc : c.At (p :: rest)) :
    c.current.kind = .parameter ∧ c.current.text = p.text ∧ c.next.positional = c.positional
      ∧ List.Forall₂ Of c.next.after rest ∧ c.next.sentinel = c.sentinel := by
  obtain ⟨t, ts, ⟨hkind, htext⟩, hts, hafter⟩ := List.forall₂_cons_right_iff.mp hc.tokens
  simp only [Cursor.current, Cursor.next, hafter, List.headD_cons]
  exact ⟨hkind.trans hp, htext, trivial, hts, trivial⟩

theorem reads_marker {m : Marker} : Reads parameter (.anonymous m :: rest) (.marker m) rest := by
  refine Reads.get fun c hc => ?_
  obtain ⟨hk, ht, hpos, hts, hend⟩ := at_marker rfl hc
  obtain ⟨hm, hmarks⟩ := hc.marks
  refine ⟨{ c.next with positional := c.next.positional + 1 }, ?_, ⟨hts, ?_, ?_⟩⟩
  · have hlist : c.current.text.toList = ['?'] := by
      rw [show c.current.text = "?" from ht]
      decide
    rw [if_pos hk, hlist, hm, ← hpos]
    rfl
  · rw [hpos]; exact hmarks
  · rw [hend]; exact hc.ending

theorem reads_named {m : NamedMarker} : Reads parameter (.named m :: rest) (.named m) rest := by
  refine Reads.get fun c hc => ?_
  obtain ⟨hk, ht, hpos, hts, hend⟩ := at_marker rfl hc
  obtain ⟨hm, hmarks⟩ := hc.marks
  refine ⟨c.next, ?_, ⟨hts, ?_, ?_⟩⟩
  · have hlist : c.current.text.toList = ':' :: m.name.toList := by
      rw [ht]
      exact String.toList_append
    rw [if_pos hk, hlist, hm]
    simp only [String.ofList_toList]
    rfl
  · rw [hpos]; exact hmarks
  · rw [hend]; exact hc.ending

/-! ## Parentheses -/

/-- An expression in parentheses. -/
theorem reads_wrapped (hr : r.Recovers N V n) {e : Expr} (hn : (e.signs N).length ≤ n) (he : e.Shaped V) :
    Reads (parenthesized r) (parens (e.signs N) ++ rest) e rest := by
  have hexpr : Reads (expr r) (e.signs N ++ .symbol ")" :: rest) e (.symbol ")" :: rest) :=
    reads_expr hr hn he (.cons rfl)
  rw [parens, List.cons_append, List.append_assoc, List.singleton_append]
  refine (Reads.symbol "(").bind (Reads.get fun c hc => ?_)
  rw [if_neg (At.no_phrase hc (e.before_signs (fun p hp => not_select hp) _))]
  exact .of hc (hexpr.bind ((Reads.symbol? ")").bind .pure))

theorem reads_exprs (hr : r.Recovers N V n) {es : List Expr} (hn : (exprsSigns N es).length ≤ n)
    (hes : ExprsShaped V es) :
    ∀ e ∈ es, ∀ ys, Before stops ys → Reads (expr r) (e.signs N ++ ys) e ys := by
  intro e he ys hys
  have hlength : (e.signs N).length ≤ (exprsSigns N es).length := by
    rw [exprsSigns_eq]
    exact length_le_commas he
  exact reads_expr hr (hlength.trans hn) (exprsShaped_iff.mp hes e he) hys

/-- Two or more expressions in parentheses. -/
theorem reads_list (hr : r.Recovers N V n) {es : List Expr} (h2 : 2 ≤ es.length)
    (hn : (exprsSigns N es).length ≤ n) (hes : ExprsShaped V es) :
    Reads (parenthesized r) (parens (exprsSigns N es) ++ rest) (.list es) rest := by
  have hitems := reads_exprs hr hn hes
  obtain ⟨e, f, fs, rfl⟩ : ∃ e f fs, es = e :: f :: fs := by
    match es, h2 with
    | e :: f :: fs, _ => exact ⟨e, f, fs, rfl⟩
  obtain ⟨he, hfs⟩ := List.forall_mem_cons.mp hitems
  have hcomma : Before stops (.symbol ")" :: rest) := .cons rfl
  obtain ⟨hnext, hmore⟩ := Items.commas rfl hcomma (.cons rfl) hfs
  rw [parens, List.cons_append, List.append_assoc, List.singleton_append, exprsSigns_eq, List.map_cons,
    commas, List.append_assoc]
  refine (Reads.symbol "(").bind (Reads.get fun c hc => ?_)
  rw [if_neg (At.no_phrase hc (e.before_signs (fun p hp => not_select hp) _))]
  exact .of hc ((he _ hnext).bind ((Reads.no_symbol (.cons rfl)).bind
    ((Reads.many hmore).bind ((Reads.symbol ")").bind .pure))))

theorem reads_subquery (hr : r.Recovers N V n) {s : Select} (hn : (s.signs N).length ≤ n)
    (hs : s.Shaped V) : Reads (parenthesized r) (parens (s.signs N) ++ rest) (.subquery s) rest := by
  have hread : Reads r.select (s.signs N ++ .symbol ")" :: rest) s (.symbol ")" :: rest) :=
    hr.select hn hs (by rintro _ ⟨⟩; decide)
  rw [parens, List.cons_append, List.append_assoc, List.singleton_append]
  refine (Reads.symbol "(").bind (Reads.get fun c hc => ?_)
  have hselect : c.startsWith ["SELECT"] = true := by
    rw [hc.startsWith]
    cases s
    rfl
  rw [if_pos hselect]
  exact .of hc (hread.bind ((Reads.symbol ")").bind .pure))

/-- The right side of a membership test. -/
theorem reads_membership (hr : r.Recovers N V n) {l : Leaf} (hn : (l.signs N).length ≤ n + 1)
    (hl : l.Readable V true) : Reads (membership r) (l.signs N ++ rest) l.expr rest := by
  obtain ⟨wrapped, e⟩ := l
  obtain ⟨rfl, hgroup, hmember⟩ := hl.2 rfl
  -- what stands in parentheses is a list, a subquery or a single item
  have hparens : ∀ {ps : List Sign} {a : Expr}, Reads (parenthesized r) (parens ps ++ rest) a rest →
      Reads (membership r) (parens ps ++ rest) (if a.isGroup then a else .list [a]) rest := by
    intro ps a ha
    refine Reads.get fun c hc => ?_
    have hopen : c.isSymbol "(" = true := by
      rw [hc.isSymbol]
      rfl
    rw [if_pos hopen]
    refine .of hc (ha.bind ?_)
    cases a <;> exact .pure
  cases e with
  | subquery s =>
    have hlength : (s.signs N).length ≤ n := by
      simp only [Leaf.signs, wrapSigns, Expr.signs, parens, Bool.false_eq_true, if_false, List.length_cons,
        List.length_append] at hn
      omega
    exact hparens (reads_subquery hr hlength hmember)
  | list items =>
    obtain ⟨hne, hsingle, hitems⟩ := hmember
    have hlength : (exprsSigns N items).length ≤ n := by
      simp only [Leaf.signs, wrapSigns, Expr.signs, parens, Bool.false_eq_true, if_false, List.length_cons,
        List.length_append] at hn
      omega
    by_cases h2 : 2 ≤ items.length
    · exact hparens (reads_list hr h2 hlength hitems)
    · have hpos := List.length_pos_of_ne_nil hne
      obtain ⟨e, rfl⟩ := List.length_eq_one_iff.mp (show items.length = 1 by omega)
      have hread := hparens (reads_wrapped hr hlength hitems.1)
      rw [hsingle e rfl] at hread
      exact hread
  | _ => cases hgroup

/-! ## Calls and cases -/

theorem reads_distinct (d : Bool) {xs : List Sign} (h : Before (fun p => !p.isKeyword "DISTINCT") xs) :
    Reads (phrase? ["DISTINCT"]) (distinctSigns d ++ xs) d xs := by
  cases d with
  | false => exact .no_phrase (startsWith_cursor h)
  | true => exact .phrase? ["DISTINCT"]

theorem before_exprs {f : Sign → Bool} (h : ∀ p, p.starts = true → f p = true) {es : List Expr}
    {ps : List Sign} (hps : Before f ps) : Before f (exprsSigns N es ++ ps) := by
  rw [exprsSigns_eq]
  cases es with
  | nil => exact hps
  | cons e es =>
    rw [List.map_cons, commas, List.append_assoc]
    exact e.before_signs h _

theorem atCall_signs {c : Cursor} {f : String} {xs : List Sign}
    (hc : c.At (.name f :: .symbol "(" :: xs)) : atCall c = true ∧ c.current.text = f := by
  obtain ⟨hkind, htext⟩ := hc.current
  have hk : c.current.kind = .identifier := hkind
  obtain ⟨t, hpeek, htk, htt⟩ := hc.second
  refine ⟨?_, htext (by rw [hk]; decide)⟩
  rw [atCall, hk, hpeek]
  simp only [Token.isSymbol, htk, htt]
  rfl

theorem reads_call (hr : r.Recovers N V n) {f : String} {d : Bool} {args : List Expr}
    (hn : (exprsSigns N args).length ≤ n) (hargs : ExprsShaped V args) :
    Reads (call r) ((Expr.call f d args).signs N ++ rest) (.call f d args) rest := by
  have hsigns : (Expr.call f d args).signs N ++ rest
      = [.name f, .symbol "("] ++ (distinctSigns d ++ (exprsSigns N args ++ .symbol ")" :: rest)) := by
    rw [Expr.signs, parens]
    simp only [List.cons_append, List.append_assoc, List.nil_append]
  rw [hsigns]
  refine Reads.get fun c hc => ?_
  obtain ⟨hcall, htext⟩ := atCall_signs hc
  rw [if_pos hcall, htext]
  have hdistinct : Before (fun p => !p.isKeyword "DISTINCT") (exprsSigns N args ++ .symbol ")" :: rest) :=
    before_exprs (fun p hp => by rw [isKeyword_of_starts hp (by decide)]; rfl) (.cons rfl)
  refine .of hc ((Reads.jump (by simp [Sign.name, Sign.symbol])).bind ((reads_distinct d hdistinct).bind ?_))
  cases args with
  | nil => exact (Reads.symbol? ")").bind .pure
  | cons e es =>
    have hclose : Before (fun p => !p.isSymbol ")") (exprsSigns N (e :: es) ++ .symbol ")" :: rest) := by
      rw [exprsSigns_eq, List.map_cons, commas, List.append_assoc]
      exact e.before_signs (fun p hp => by rw [isSymbol_of_starts hp (by decide)]; rfl) _
    refine (Reads.no_symbol hclose).bind ?_
    rw [exprsSigns_eq]
    exact (Reads.commaList (List.cons_ne_nil e es) (reads_exprs hr hn hargs) rfl (.cons rfl) (.cons rfl)).bind
      ((Reads.symbol ")").bind .pure)

/-- The branches of a case, up to its end. -/
theorem items_branches (hr : r.Recovers N V n) (hrest : Before stops rest)
    (hno : Before (fun p => !p.isKeyword "WHEN") rest) : ∀ {bs : List Branch},
    (branchesSigns N bs).length ≤ n → BranchesShaped V bs →
    Before stops (branchesSigns N bs ++ rest) ∧ Items (branch? r) (branchesSigns N bs ++ rest) bs rest
  | [], _, _ => ⟨hrest, .nil (.no_after (startsWith_cursor hno))⟩
  | ⟨c, e⟩ :: bs, hn, ⟨hc, he, hbs⟩ => by
    have hsigns : branchesSigns N (⟨c, e⟩ :: bs) ++ rest = Sign.phrase ["WHEN"] ++ (c.signs N
        ++ (Sign.phrase ["THEN"] ++ (e.signs N ++ (branchesSigns N bs ++ rest)))) := by
      rw [branchesSigns]
      simp only [Sign.phrase, List.map_cons, List.map_nil, List.cons_append, List.append_assoc,
        List.nil_append]
    have hlength : (c.signs N).length ≤ n ∧ (e.signs N).length ≤ n ∧ (branchesSigns N bs).length ≤ n := by
      rw [branchesSigns] at hn
      simp only [List.length_append, List.length_cons] at hn
      omega
    obtain ⟨hnext, hitems⟩ := items_branches hr hrest hno hlength.2.2 hbs
    rw [hsigns]
    refine ⟨.cons rfl, .cons (Reads.after? ?_) ?_ hitems⟩
    · exact (reads_expr hr hlength.1 hc (.cons rfl)).bind ((Reads.phrase ["THEN"] _).bind
        ((reads_expr hr hlength.2.1 he hnext).bind .pure))
    · simp only [Sign.phrase, List.map_cons, List.map_nil, List.cons_append, List.nil_append,
        List.length_cons, List.length_append]
      omega

/-- An expression after a phrase, or nothing. -/
theorem reads_opt (hr : r.Recovers N V n) {w : String} {ws : Phrase} {o : Option Expr}
    (hn : (optSigns N (w :: ws) o).length ≤ n) (ho : OptShaped V o) (hrest : Before stops rest)
    (hno : Before (fun p => !p.isKeyword w) rest) :
    Reads (after? (w :: ws) (expr r)) (optSigns N (w :: ws) o ++ rest) o rest := by
  cases o with
  | none => exact .no_after (startsWith_cursor hno)
  | some e =>
    rw [optSigns, List.append_assoc]
    refine .after? (reads_expr hr ?_ ho hrest)
    rw [optSigns, List.length_append] at hn
    omega

theorem reads_case (hr : r.Recovers N V n) {o : Option Expr} {bs : List Branch} {e : Option Expr}
    (hn : ((Expr.case o bs e).signs N).length ≤ n + 1) (h : (Expr.case o bs e).Shaped V) :
    Reads (caseExpr r) ((Expr.case o bs e).signs N ++ rest) (.case o bs e) rest := by
  obtain ⟨ho, hne, hbs, he⟩ := h
  have hsigns : (Expr.case o bs e).signs N ++ rest = Sign.phrase ["CASE"] ++ (optSigns N [] o
      ++ (branchesSigns N bs ++ (optSigns N ["ELSE"] e ++ (Sign.phrase ["END"] ++ rest)))) := by
    rw [Expr.signs]
    simp only [Sign.phrase, List.map_cons, List.map_nil, List.cons_append, List.append_assoc,
      List.nil_append]
  have hlength : (optSigns N [] o).length ≤ n ∧ (branchesSigns N bs).length ≤ n
      ∧ (optSigns N ["ELSE"] e).length ≤ n := by
    rw [Expr.signs] at hn
    simp only [List.length_append, List.length_cons] at hn
    omega
  have helse : Before stops (optSigns N ["ELSE"] e ++ (Sign.phrase ["END"] ++ rest))
      ∧ Before (fun p => !p.isKeyword "WHEN") (optSigns N ["ELSE"] e ++ (Sign.phrase ["END"] ++ rest)) := by
    cases e with
    | none => exact ⟨.cons rfl, .cons rfl⟩
    | some e => exact ⟨.cons rfl, .cons rfl⟩
  obtain ⟨hnext, hitems⟩ := items_branches hr helse.1 helse.2 hlength.2.1 hbs
  rw [hsigns]
  have hbranches : Reads (many (branch? r) >>= fun branches =>
      if branches.isEmpty then fail "Expected WHEN"
      else do
        let otherwise ← after? ["ELSE"] (expr r)
        phrase ["END"] "Expected END"
        pure (Expr.case o branches otherwise))
      (branchesSigns N bs ++ (optSigns N ["ELSE"] e ++ (Sign.phrase ["END"] ++ rest))) (Expr.case o bs e) rest := by
    refine (Reads.many hitems).bind ?_
    rw [if_neg (by simpa using hne)]
    exact (reads_opt hr hlength.2.2 he (.cons rfl) (.cons rfl)).bind ((Reads.phrase ["END"] _).bind .pure)
  refine (Reads.phrase ["CASE"] _).bind (Reads.get fun c hc => ?_)
  dsimp only
  cases o with
  | none =>
    have hwhen : c.startsWith ["WHEN"] = true := by
      obtain ⟨⟨_, _⟩, bs, rfl⟩ := List.exists_cons_of_ne_nil hne
      rw [hc.startsWith]
      rfl
    rw [if_pos hwhen]
    exact .of hc (Reads.pure.bind hbranches)
  | some o =>
    have hoperand : Reads (expr r) (optSigns N [] (some o) ++ _) o _ :=
      reads_expr hr hlength.1 ho hnext
    rw [if_neg (At.no_phrase hc (o.before_signs
      (fun p hp => by rw [isKeyword_of_starts hp (by decide)]; rfl) _))]
    exact .of hc (hoperand.map.bind hbranches)

/-! ## Operands -/

/-- What is read where no sign before an operand and no parenthesis stands. -/
def atom (r : Rules) : Parse Expr := do
  let c ← get
  if c.startsWith ["CASE"] then caseExpr r
  else if atLiteral c then .literal <$> literal
  else if c.current.kind = .parameter then parameter
  else if atCall c then call r
  else if c.current.kind = .identifier then .ident <$> identifier
  else fail "Expected expression"

/-- A sign that only an atom starts with. -/
def startsAtom (p : Sign) : Bool :=
  !p.isKeyword "NOT" && !p.isSymbol "-" && !p.isSymbol "+" && !p.isSymbol "(" && !p.isSymbol "*"

theorem reads_atom {xs ys : List Sign} {e : Expr} (h : Before startsAtom xs) (ha : Reads (atom r) xs e ys) :
    Reads (operand r) xs e ys := by
  have hp : ∀ p, startsAtom p = true → p.isKeyword "NOT" = false ∧ p.isSymbol "-" = false
      ∧ p.isSymbol "+" = false ∧ p.isSymbol "(" = false ∧ p.isSymbol "*" = false := by
    intro p hp
    simpa [startsAtom, and_assoc] using hp
  refine (Reads.no_phrase (startsWith_cursor (h.mono fun p hs => ?_))).bind
    ((Reads.no_symbol (h.mono fun p hs => ?_)).bind ((Reads.no_symbol (h.mono fun p hs => ?_)).bind
      (Reads.get fun c hc => ?_)))
  · simp [hp p hs]
  · simp [hp p hs]
  · simp [hp p hs]
  · rw [if_neg (At.no_symbol hc (h.mono fun p hs => by simp [hp p hs]))]
    exact .of hc ((Reads.no_symbol (h.mono fun p hs => by simp [hp p hs])).bind ha)

theorem At.atLiteral {c : Cursor} {xs : List Sign} (hc : c.At xs) : atLiteral c = atLiteral (cursor xs) := by
  rw [Grammar.atLiteral, Grammar.atLiteral, hc.current.1, hc.startsWith, hc.startsWith, hc.startsWith]

theorem At.not_call {c : Cursor} {p : Sign} (hc : c.At (p :: rest))
    (h : Before (fun q => !q.isSymbol "(") rest) : atCall c = false := by
  rw [atCall, Bool.and_eq_false_iff]
  right
  cases rest with
  | nil =>
    obtain ⟨t, ts, -, hts, hafter⟩ := List.forall₂_cons_right_iff.mp hc.tokens
    rw [Cursor.peek?, hafter, List.forall₂_nil_right_iff.mp hts]
    rfl
  | cons q qs =>
    obtain ⟨t, hpeek, hk, ht⟩ := hc.second
    have hq : q.isSymbol "(" = false := by simpa using h q rfl
    rw [hpeek]
    simp only [Token.isSymbol, hk, ht]
    exact hq

/-- What stands in parentheses is an operand. -/
theorem reads_group {ps : List Sign} {e : Expr} (h : Reads (parenthesized r) (parens ps ++ rest) e rest) :
    Reads (operand r) (parens ps ++ rest) e rest := by
  refine (Reads.no_phrase rfl).bind ((Reads.no_symbol (.cons rfl)).bind
    ((Reads.no_symbol (.cons rfl)).bind (Reads.get fun c hc => ?_)))
  have hopen : c.isSymbol "(" = true := by
    rw [hc.isSymbol]
    rfl
  rw [if_pos hopen]
  exact .of hc h

theorem reads_name (hN : N.Legible V) {i : Identifier} (hname : V.name i.value ∨ i.value = "*")
    (hi : i.resolution = none) (hrest : Before parts rest) :
    Reads (operand r) ((Expr.ident i).signs N ++ rest) (.ident i) rest := by
  obtain ⟨value, resolution⟩ := i
  cases hi
  rw [Expr.signs]
  split
  · next hstar =>
    cases hstar
    refine (Reads.no_phrase rfl).bind ((Reads.no_symbol (.cons rfl)).bind
      ((Reads.no_symbol (.cons rfl)).bind (Reads.get fun c hc => ?_)))
    rw [if_neg (At.no_symbol hc (.cons rfl))]
    exact .of hc ((Reads.symbol? "*").bind .pure)
  · next hstar =>
    have hname := hname.resolve_right hstar
    have hread := (hN.reads hname (hrest.mono fun p hp => (Bool.and_eq_true_iff.mp hp).1)).map
      (f := Expr.ident)
    obtain ⟨w, ps, hsigns, hps⟩ := hN.atom hname
    rw [hsigns, List.cons_append] at hread ⊢
    refine reads_atom (.cons rfl) (Reads.get fun c hc => ?_)
    have hcase : ¬ c.startsWith ["CASE"] = true := At.no_phrase hc (.cons rfl)
    have hliteral : ¬ atLiteral c = true := by
      rw [At.atLiteral hc]
      exact Bool.false_ne_true
    have hkind : c.current.kind = .identifier := hc.current.1
    have hcall : ¬ atCall c = true := by
      rw [At.not_call hc (hps.append (hrest.mono fun p hp => (Bool.and_eq_true_iff.mp hp).2))]
      exact Bool.false_ne_true
    rw [if_neg hcase, if_neg hliteral, if_neg (by rw [hkind]; decide), if_neg hcall, if_pos hkind]
    exact .of hc hread

/-- A literal that is written without a sign. -/
theorem reads_unsigned {l : Literal} (hl : l.IsPlain) (hsign : ∀ k, l ≠ .int (.negSucc k)) :
    Reads (operand r) ((Expr.literal l).signs N ++ rest) (.literal l) rest := by
  have hstart : Before startsAtom (l.signs ++ rest) ∧ (cursor (l.signs ++ rest)).startsWith ["CASE"] = false
      ∧ atLiteral (cursor (l.signs ++ rest)) = true := by
    cases l with
    | string s => exact ⟨.cons rfl, rfl, rfl⟩
    | int i =>
      cases i with
      | ofNat k => exact ⟨.cons rfl, rfl, rfl⟩
      | negSucc k => exact absurd rfl (hsign k)
    | float x => exact hl.elim
    | bool b => cases b <;> exact ⟨.cons rfl, rfl, rfl⟩
    | null => exact ⟨.cons rfl, rfl, rfl⟩
  rw [Expr.signs]
  refine reads_atom hstart.1 (Reads.get fun c hc => ?_)
  rw [if_neg (by rw [hc.startsWith, hstart.2.1]; exact Bool.false_ne_true),
    if_pos (by rw [At.atLiteral hc, hstart.2.2])]
  exact .of hc (reads_literal hl hsign).map

theorem reads_parameter {p : Sign} {e : Expr} (hp : p.kind = .parameter)
    (h : Reads parameter (p :: rest) e rest) : Reads (operand r) (p :: rest) e rest := by
  obtain ⟨kind, text, mark⟩ := p
  cases hp
  refine reads_atom (.cons rfl) (Reads.get fun c hc => ?_)
  have hliteral : ¬ atLiteral c = true := by
    rw [At.atLiteral hc]
    exact Bool.false_ne_true
  have hkind : c.current.kind = .parameter := hc.current.1
  rw [if_neg (At.no_phrase hc (.cons rfl)), if_neg hliteral, if_pos hkind]
  exact .of hc h

theorem reads_application {f : String} {e : Expr} {ps : List Sign}
    (h : Reads (call r) (.name f :: .symbol "(" :: ps) e rest) :
    Reads (operand r) (.name f :: .symbol "(" :: ps) e rest := by
  refine reads_atom (.cons rfl) (Reads.get fun c hc => ?_)
  have hliteral : ¬ atLiteral c = true := by
    rw [At.atLiteral hc]
    exact Bool.false_ne_true
  have hkind : c.current.kind = .identifier := hc.current.1
  rw [if_neg (At.no_phrase hc (.cons rfl)), if_neg hliteral, if_neg (by rw [hkind]; decide),
    if_pos (atCall_signs hc).1]
  exact .of hc h

theorem reads_caseOperand {e : Expr} {ps : List Sign} (h : Reads (caseExpr r) (.keyword "CASE" :: ps) e rest) :
    Reads (operand r) (.keyword "CASE" :: ps) e rest := by
  refine reads_atom (.cons rfl) (Reads.get fun c hc => ?_)
  rw [if_pos (by rw [hc.startsWith]; rfl)]
  exact .of hc h

/-- No binary operator has the strength of `NOT`. -/
theorem comparison_le {op : Operator} (h : Precedence.not ≤ op.precedence) :
    Precedence.comparison ≤ op.precedence := by
  cases op with
  | arith op => cases op <;> decide
  | compare op => exact le_refl _
  | logic op => cases op <;> exact absurd h (by decide)

theorem reads_not (hr : r.Recovers N V n) {e : Expr} (hn : ((Expr.unary .not e).signs N).length ≤ n + 1)
    (he : e.Shaped V) (hends : Leaf.Ends ⟨false, .unary .not e⟩ rest) :
    Reads (operand r) ((Expr.unary .not e).signs N ++ rest) (.unary .not e) rest := by
  have hwithin : (branch (e.needsParens UnaryOp.not.precedence none) e e.fork).Within
      (Precedence.comparison ≤ ·) := by
    refine (Expr.stands_branch he _).ordered.within fun o ho => comparison_le ?_
    obtain ⟨hb, hp⟩ := root_branch ho
    rw [hp]
    exact Expr.le_precedence hb
  rw [Expr.signs, List.length_cons, Fork.signs_branch e.signs_fork] at hn
  rw [Expr.signs, Fork.signs_branch e.signs_fork]
  exact (Reads.phrase? ["NOT"]).bind (hr.flat (Nat.le_of_succ_le_succ hn) (Expr.stands_branch he _)
    (le_refl _) hwithin hends.parts (hends.below rfl)).map

theorem reads_minus (hr : r.Recovers N V n) {e : Expr}
    (hn : ((Expr.unary .negate e).signs N).length ≤ n + 1) (he : e.Shaped V)
    (hl : ∀ l, e = .literal l → l.negate? = none) (hrest : Before parts rest) :
    Reads (operand r) ((Expr.unary .negate e).signs N ++ rest) (.unary .negate e) rest := by
  rw [Expr.signs] at hn ⊢
  generalize hb : (e.needsParens UnaryOp.negate.precedence none || e.isNegative) = b at hn ⊢
  -- without parentheses the operand binds as tight as a minus
  have htight : b = false → Precedence.unary ≤ e.precedence := by
    rintro rfl
    exact Expr.le_precedence (Bool.or_eq_false_iff.mp hb).1
  have hreadable : Leaf.Readable V false ⟨b, e⟩ := by
    refine ⟨fun _ => ⟨he, ?_⟩, nofun⟩
    cases b with
    | true => exact .inl rfl
    | false => exact .inr (Expr.isLeaf_of_precedence (htight rfl))
  have hends : Leaf.Ends ⟨b, e⟩ rest := by
    refine ⟨hrest, fun hnot => ?_⟩
    obtain ⟨hwrapped, hunary⟩ := Bool.and_eq_true_iff.mp hnot
    have htight := htight (by simpa using hwrapped)
    dsimp only at hunary
    split at hunary
    · exact absurd (show Precedence.unary ≤ Precedence.not from htight) (by decide)
    · cases hunary
  have hnegated : negated e = .unary .negate e := by
    cases e with
    | literal l => rw [negated, hl l rfl]
    | _ => rfl
  have hread : Reads r.operand (wrapSigns b (e.signs N) ++ rest) e rest :=
    hr.operand (l := ⟨b, e⟩) (Nat.le_of_succ_le_succ hn) hreadable hends
  rw [← hnegated]
  exact (Reads.no_phrase rfl).bind ((Reads.symbol? "-").bind hread.map)

theorem reads_negative (hr : r.Recovers N V n) {k : Nat} (hn : 1 ≤ n)
    (hk : V.literal (.int (.negSucc k))) (hrest : Before parts rest) :
    Reads (operand r) ((Expr.literal (.int (.negSucc k))).signs N ++ rest) (.literal (.int (.negSucc k))) rest := by
  have hpositive : V.literal (.int (.ofNat (k + 1))) := by
    have hplain : (Int.negSucc k).natAbs < 0x8000000000000000 := hr.legible.literal hk
    refine V.literal_negate hk (if_neg fun hmin => ?_)
    rw [hmin] at hplain
    exact absurd hplain (by decide)
  have hread : Reads r.operand (.literal (k + 1).repr :: rest) (.literal (.int (.ofNat (k + 1)))) rest :=
    hr.operand (l := ⟨false, .literal (.int (.ofNat (k + 1)))⟩) hn
      ⟨fun _ => ⟨hpositive, .inr rfl⟩, nofun⟩ ⟨hrest, nofun⟩
  have hnegated : negated (.literal (.int (.ofNat (k + 1)))) = .literal (.int (.negSucc k)) := by
    rw [negated, Literal.negate?, if_neg (by intro h; cases h)]
    rfl
  rw [← hnegated]
  exact (Reads.no_phrase rfl).bind ((Reads.symbol? "-").bind hread.map)

/-- **Operands are read back.** -/
theorem reads_operand (hr : r.Recovers N V n) {l : Leaf} (hn : (l.signs N).length ≤ n + 1)
    (hl : l.Readable V false) (hends : l.Ends rest) :
    Reads (operand r) (l.signs N ++ rest) l.expr rest := by
  obtain ⟨wrapped, e⟩ := l
  obtain ⟨he, hleaf⟩ := hl.1 rfl
  have hgroup : ∀ {ps : List Sign}, (parens ps).length ≤ n + 1 → ps.length ≤ n := by
    intro ps h
    simp only [parens, List.length_cons, List.length_append] at h
    omega
  cases wrapped with
  | true => exact reads_group (reads_wrapped hr (hgroup hn) he)
  | false =>
    have hn : (e.signs N).length ≤ n + 1 := hn
    show Reads (operand r) (e.signs N ++ rest) e rest
    cases e with
    | arith | compare | logic => exact absurd hleaf (by simp [Expr.isLeaf])
    | ident i => exact reads_name hr.legible he.1 he.2 hends.parts
    | literal l =>
      by_cases hneg : ∃ k, l = .int (.negSucc k)
      · obtain ⟨k, rfl⟩ := hneg
        exact reads_negative hr (Nat.le_of_succ_le_succ hn) he hends.parts
      · exact reads_unsigned (hr.legible.literal he) fun k hk => hneg ⟨k, hk⟩
    | marker m => exact reads_parameter rfl reads_marker
    | named m => exact reads_parameter rfl reads_named
    | call f d args =>
      have hlength : (exprsSigns N args).length ≤ n := by
        rw [Expr.signs, parens] at hn
        simp only [List.length_cons, List.length_append] at hn
        omega
      exact reads_application (reads_call hr hlength he.2)
    | list items => exact reads_group (reads_list hr he.1 (hgroup hn) he.2)
    | unary op e =>
      cases op with
      | not => exact reads_not hr hn he hends
      | negate => exact reads_minus hr hn he.1 he.2 hends.parts
    | case o bs e => exact reads_caseOperand (reads_case hr hn he)
    | subquery s => exact reads_group (reads_subquery hr (hgroup hn) he)

/-! ## Rows of operands -/

/-- One operator of the right strength, with the operand after it. -/
theorem reads_step (hr : r.Recovers N V n) {min : Nat} {op : Operator} {l : Leaf} (hmin : min ≤ op.precedence)
    (hn : (l.signs N).length ≤ n + 1) (hl : l.Readable V op.isMembership)
    (hop : op = .compare .is → l.isNot = false) (hends : l.Ends rest) :
    Reads (step? r min) (op.signs ++ (l.signs N ++ rest)) (some (op, l.expr)) rest := by
  have hquiet : ∀ p ∈ op.signs, p.mark = none := by
    unfold Operator.signs
    split <;> simp [Sign.phrase, Sign.keyword, Sign.symbol]
  refine Reads.get fun c hc => ?_
  rw [hc.operator?, operator?_signs op fun h => hl.not_not (hop h) rest]
  dsimp only
  rw [if_neg (Nat.not_lt.mpr hmin)]
  refine .of hc ((Reads.jump hquiet).bind ?_)
  cases hmember : op.isMembership with
  | false =>
    rw [hmember] at hl
    exact (reads_operand hr hn hl hends).bind .pure
  | true =>
    rw [hmember] at hl
    exact (reads_membership hr hn hl).bind .pure

theorem reads_no_step {min : Nat} (hrest : OpBelow min rest) : Reads (step? r min) rest none rest := by
  refine Reads.get fun c hc => ?_
  rw [hc.operator?]
  split
  · exact .of hc .pure
  · next op k hop =>
    rw [if_pos (hrest op k hop)]
    exact .of hc .pure

/-- The operators of a row, after its first operand. -/
theorem items_steps (hr : r.Recovers N V n) {min : Nat} : ∀ {t : Fork Leaf} {member : Bool}
    {ys : List Sign} {ss : List (Operator × Expr)}, (t.signs N).length ≤ n + 1 → t.Readable V member →
    t.Within (min ≤ ·) → t.last.Ends ys → Items (step? r min) ys ss rest →
    Items (step? r min) (t.stepSigns N ++ ys) ((t.map Leaf.expr).steps ++ ss) rest
  | .operand _, _, _, _, _, _, _, _, hitems => hitems
  | .node op left right, member, ys, ss, hn, h, hwithin, hends, hitems => by
    rw [Fork.signs_node] at hn
    simp only [List.length_append] at hn
    have hright := items_steps hr (by omega) h.2.1 hwithin.2.2 hends hitems
    have hhead : (right.head.signs N).length ≤ n + 1 := right.length_head_le.trans (by omega)
    have hstep := reads_step hr hwithin.1 hhead h.2.1.head h.2.2.2 (h.2.1.ends_head (N := N) hends)
    rw [Fork.stepSigns_node, Fork.map, Fork.steps, List.append_assoc]
    refine items_steps hr (by omega) h.1 hwithin.2.1 (h.ends_left _) ?_
    rw [Fork.head_map]
    refine .cons hstep ?_ hright
    have hop := List.length_pos_iff.mpr op.signs_ne_nil
    simp only [List.length_append]
    omega

/-- **A row of operands and operators is read back**, and folded to the expression it was made of. -/
theorem reads_flat (hr : r.Recovers N V n) {min : Nat} {t : Fork Leaf} {e : Expr} (hn : (t.signs N).length ≤ n + 1)
    (ht : t.Stands V e) (hmin : min ≤ Precedence.comparison) (hwithin : t.Within (min ≤ ·))
    (hparts : Before parts rest) (hbelow : OpBelow min rest) :
    Reads (flat r min) (t.signs N ++ rest) e rest := by
  have hlast : t.last.Ends rest := ⟨hparts, fun _ => hbelow.mono hmin⟩
  have hhead : (t.head.signs N).length ≤ n + 1 := t.length_head_le.trans hn
  have hitems := items_steps hr hn ht.readable hwithin hlast (.nil (reads_no_step hbelow))
  have hfold : Flat.toExpr ⟨t.head.expr, (t.map Leaf.expr).steps ++ []⟩ = e := by
    rw [List.append_nil, ← ht.expr, ← Fork.head_map Leaf.expr t]
    exact Fork.toExpr_flat ((Fork.ordered_map _ t).mpr ht.ordered)
  rw [Fork.signs, List.append_assoc, ← hfold]
  exact (reads_operand hr hhead ht.readable.head (ht.readable.ends_head hlast)).bind
    ((Reads.many hitems).bind .pure)

end Grammar

end EntitySql
