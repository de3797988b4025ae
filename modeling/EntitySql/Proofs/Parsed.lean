import Mathlib
import EntitySql.Grammar.Rules
import EntitySql.Proofs.Folding
import EntitySql.Proofs.Reader

/-!
# What the grammar builds

Every construct of the grammar, where it is read, gives a shaped part of a tree whose markers are
those of the tokens that were read, in their order and with their numbers. The recursive readers are
assumed to do so (`Rules.Sound`) while one level of nesting is looked at; `Rules.sound_upTo` closes
the circle.

* `Query.ofText_shaped`: a query read from a text has no facts, and its markers are those of the
  tokens of the text.
* `Expr.ofDetached_shaped`: the same for an expression that is spliced into another query.
-/

namespace EntitySql

open Parse

variable {α : Type} {V : Vocabulary}

/-- Each success of `p` gives something of a shape, with the markers that were read. -/
abbrev Parse.Builds (V : Vocabulary) (p : Parse α) (marks : α → List Mark) (shape : α → Prop) : Prop :=
  Yields V.Admits p fun m a => marks a = m ∧ shape a

theorem Parse.Each.flatMap {Q : List Mark → α → Prop} (marks : α → List Mark) {shape : α → Prop}
    (hQ : ∀ m a, Q m a → marks a = m ∧ shape a) :
    ∀ {as : List α} {m : List Mark}, Each Q m as → as.flatMap marks = m ∧ ∀ a ∈ as, shape a
  | [], _, h => ⟨h.symm, nofun⟩
  | a :: as, _, ⟨m₁, m₂, hm, ha, has⟩ => by
    obtain ⟨h₁, s₁⟩ := hQ m₁ a ha
    obtain ⟨h₂, s₂⟩ := Each.flatMap marks hQ has
    exact ⟨by rw [List.flatMap_cons, h₁, h₂, hm], List.forall_mem_cons.mpr ⟨s₁, s₂⟩⟩

/-- The rules build shaped trees from the tokens they read. -/
structure Rules.Sound (V : Vocabulary) (r : Rules) : Prop where
  flat : ∀ min, Builds V (r.flat min) (Expr.collect markers) (Expr.Shaped V)
  operand : Builds V r.operand (Expr.collect markers) (Expr.Shaped V)
  select : Builds V r.select (Select.collect markers) (Select.Shaped V)

namespace Grammar

/-! ## Leaves -/

theorem yields_segment? : Yields V.Admits identifier.segment?
    (Found fun m s => m = [] ∧ (V.word s ∨ s = "*")) := by
  intro c hc o d h
  unfold identifier.segment? at h
  split at h
  · next t hdot ht =>
    split at h
    · next hk =>
      cases h
      obtain ⟨hcur, ts, ha⟩ := hc.current (by
        intro hk
        simp [Cursor.isSymbol, Token.isSymbol, hk] at hdot)
      obtain ⟨us, rfl⟩ : ∃ us, ts = t :: us := by
        rw [Cursor.peek?, ha] at ht
        cases ts with
        | nil => simp at ht
        | cons u us => exact ⟨us, by simpa using ht⟩
      have hquiet : Token.Quiet (c.after.take 2) := by
        rw [ha]
        simp only [Cursor.isSymbol, Token.isSymbol, Bool.and_eq_true, beq_iff_eq] at hdot
        simp only [Token.isSymbol, Bool.or_eq_true, decide_eq_true_eq, Bool.and_eq_true,
          beq_iff_eq] at hk
        simp only [List.take_succ_cons, List.take_zero, Token.Quiet, List.forall_mem_cons]
        refine ⟨by rw [hdot.1]; decide, ?_, List.forall_mem_nil _⟩
        rcases hk with hk | ⟨hk, -⟩ <;> rw [hk] <;> decide
      obtain ⟨used, hm, hq⟩ := silent_jump hquiet rfl
      refine ⟨used, hm, hq, ?_⟩
      have hadm : V.Admits t := hc.ahead t (by simp [ha])
      simp only [Bool.or_eq_true, decide_eq_true_eq] at hk
      rcases hk with hk | hk
      · exact .inl (hadm.word hk)
      · simp only [Token.isSymbol, Bool.and_eq_true, beq_iff_eq] at hk
        exact .inr hk.2
    · cases h
      exact ⟨[], .refl c, rfl⟩
  · cases h
    exact ⟨[], .refl c, rfl⟩

theorem name_foldl : ∀ {more : List String} {first : String}, V.name first →
    (∀ s ∈ more, V.word s ∨ s = "*") →
    V.name (more.foldl (fun value s => value ++ "." ++ s) first)
  | [], _, h, _ => h
  | s :: more, first, h, hs => by
    obtain ⟨hs, hmore⟩ := List.forall_mem_cons.mp hs
    rw [List.foldl_cons]
    refine name_foldl ?_ hmore
    rcases hs with hs | rfl
    · exact V.name_segment h hs
    · exact V.name_wildcard h

theorem yields_name : Yields V.Admits identifier fun m i =>
    m = [] ∧ V.name i.value ∧ i.resolution = none := by
  refine .bind (yields_identifier _) ?_
  rintro _ first ⟨rfl, t, ht, hk, rfl⟩
  refine .bind (.many yields_segment?) fun m more hmore => .pure ?_
  obtain ⟨hm, hs⟩ := hmore.flatMap (fun _ => []) fun m s hq => ⟨hq.1.symm, hq.2⟩
  refine ⟨?_, name_foldl (V.name_word (ht.word hk)) hs, rfl⟩
  rw [← hm]
  simp

theorem yields_literal : Yields V.Admits literal fun m l => m = [] ∧ V.literal l := by
  refine .bind (silent_phrase? _) fun m b hm => .ite (fun _ => .pure ⟨by rw [hm]; rfl, V.literal_bool _⟩)
    fun _ => .bind (silent_phrase? _) fun m' b hm' => .ite
      (fun _ => .pure ⟨by rw [hm, hm']; rfl, V.literal_bool _⟩) fun _ => .bind (silent_phrase? _)
        fun m'' b hm'' => .ite (fun _ => .pure ⟨by rw [hm, hm', hm'']; rfl, V.literal_null⟩) fun _ => ?_
  subst hm hm' hm''
  refine .get fun c => .ite (fun hk => ?_) fun _ => Yields.fail c
  intro hc l d h
  cases hl : Literal.ofToken? c.current.text with
  | none => rw [hl] at h; cases h
  | some l' =>
    rw [hl] at h
    obtain ⟨_, d', hd', h⟩ := Outcome.read_bind_eq_ok.mp h
    cases h
    obtain ⟨used, hmoves, hm⟩ := YieldsAt.next (by rw [hk]; decide) hc _ _ hd'
    exact ⟨used, hmoves, hm, (hc.current (by rw [hk]; decide)).1.literal hk _ hl⟩

theorem parameter_named {c : Cursor} {name : List Char} (hk : c.current.kind = .parameter)
    (hname : c.current.text.toList = ':' :: name) :
    parameter c = .ok (.named { name := String.ofList name }) c.next := by
  change (if c.current.kind = .parameter then _ else _ : Parse Expr) c = _
  rw [if_pos hk, hname]
  rfl

theorem parameter_positional {c : Cursor} (hk : c.current.kind = .parameter)
    (hname : ∀ name, c.current.text.toList ≠ ':' :: name) :
    parameter c = .ok (.marker { position := some c.next.positional })
      { c.next with positional := c.next.positional + 1 } := by
  change (if c.current.kind = .parameter then _ else _ : Parse Expr) c = _
  rw [if_pos hk]
  generalize c.current.text.toList = cs at hname
  match cs, hname with
  | [], _ => rfl
  | x :: xs, hname =>
    by_cases hx : x = ':'
    · exact absurd (hx ▸ rfl) (hname xs)
    · simp only
      rfl

theorem parameter_other {c : Cursor} (hk : c.current.kind ≠ .parameter) :
    parameter c = .error (c.error "Invalid parameter") c := by
  change (if c.current.kind = .parameter then _ else _ : Parse Expr) c = _
  rw [if_neg hk]
  rfl

theorem builds_parameter : Builds V parameter (Expr.collect markers) (Expr.Shaped V) := by
  intro c hc e d h
  by_cases hk : c.current.kind = .parameter
  · obtain ⟨hadm, ts, ha⟩ := hc.current (by rw [hk]; decide)
    have hnext : c.next = { c with before := c.current :: c.before, after := ts } := by
      unfold Cursor.next
      rw [ha]
    refine ⟨[c.current], ?_⟩
    by_cases hname : ∃ name, c.current.text.toList = ':' :: name
    · obtain ⟨name, hname⟩ := hname
      rw [parameter_named hk hname, hnext] at h
      cases h
      have hpos : c.current.isPositional = false := by simp [Token.isPositional, hname]
      refine ⟨⟨rfl, ha, rfl, ?_⟩, ?_, hadm.parameter hk name hname, rfl⟩
      · rw [List.countP_cons_of_neg (by simp [hpos])]
        rfl
      · simp [Token.marksFrom, hk, hname, Expr.collect, markers]
    · have hname := not_exists.mp hname
      rw [parameter_positional hk hname, hnext] at h
      cases h
      have hpos : c.current.isPositional = true := by
        unfold Token.isPositional
        rw [hk]
        split
        · exact absurd ‹_› (hname _)
        · rfl
      refine ⟨⟨rfl, ha, rfl, ?_⟩, ?_, trivial⟩
      · rw [List.countP_cons_of_pos hpos]
        rfl
      · simp only [Token.marksFrom, if_pos hk]
        rfl
  · rw [parameter_other hk] at h
    cases h

theorem yields_word (reason : String) : Yields V.Admits (Parse.identifier reason) fun m s =>
    m = [] ∧ V.word s := by
  refine (yields_identifier reason).mono ?_
  rintro m _ ⟨rfl, t, ht, hk, rfl⟩
  exact ⟨rfl, ht.word hk⟩

theorem yields_label : Yields V.Admits label fun m a => m = [] ∧ LabelShaped V a := by
  have hword : Yields V.Admits (some <$> Parse.identifier "Expected alias") fun m a =>
      m = [] ∧ LabelShaped V a := by
    refine .map ((yields_word _).mono fun m s hs => ⟨hs.1, ?_⟩)
    rintro _ ⟨⟩
    exact hs.2
  refine .bind (silent_phrase? _) ?_
  rintro _ b rfl
  refine .ite (fun _ => hword) fun _ => .get fun c => .ite (fun _ => hword c) fun _ => ?_
  exact YieldsAt.pure ⟨rfl, nofun⟩

variable {r : Rules}

theorem builds_expr (h : r.Sound V) : Builds V (expr r) (Expr.collect markers) (Expr.Shaped V) :=
  h.flat Precedence.lowest

/-! ## Expressions -/

/-- An expression that may be absent. -/
theorem found_opt {m : List Mark} {o : Option Expr}
    (h : Found (fun m e => e.collect markers = m ∧ e.Shaped V) m o) :
    collectOpt markers o = m ∧ OptShaped V o := by
  cases o with
  | none => exact ⟨h.symm, trivial⟩
  | some e => exact h

/-- Expressions in a row. -/
theorem each_exprs {m : List Mark} {es : List Expr}
    (h : Each (fun m e => e.collect markers = m ∧ e.Shaped V) m es) :
    collectExprs markers es = m ∧ ExprsShaped V es := by
  rw [collectExprs_eq, exprsShaped_iff]
  exact h.flatMap _ fun _ _ hq => hq

theorem many_comma_nil {p : Parse α} {c d : Cursor}
    (h : many (do if ← symbol? "," then some <$> p else pure none) c = .ok [] d) : d = c := by
  obtain ⟨o, d', ho, h⟩ := Outcome.read_bind_eq_ok.mp (show manyUpTo _ (_ + 1) c = .ok [] d from h)
  cases o with
  | some a =>
    obtain ⟨as, e, -, h⟩ := Outcome.read_bind_eq_ok.mp h
    cases h
  | none =>
    cases h
    obtain ⟨b, e, hb, ho⟩ := Outcome.read_bind_eq_ok.mp ho
    unfold symbol? at hb
    split at hb <;> cases hb
    · obtain ⟨_, -, h⟩ := Outcome.read_map_eq_ok.mp ho
      cases h
    · cases ho
      rfl

/-- A list that goes on after its first item has a second one, as the parenthesis did not close. -/
theorem yields_items (h : r.Sound V) (first : Expr) :
    Yields V.Admits
      (do
        if ← symbol? ")" then pure first
        else
          let more ← many do
            if ← symbol? "," then some <$> expr r else pure none
          symbol ")"
          pure (.list (first :: more)))
      fun m e => (e = first ∧ m = []) ∨ ∃ more, e = .list (first :: more) ∧ more ≠ []
        ∧ collectExprs markers more = m ∧ ExprsShaped V more := by
  intro c hc e d hrun
  obtain ⟨b, c₁, hb, hrun⟩ := Outcome.read_bind_eq_ok.mp hrun
  obtain ⟨us, hus, hm⟩ := silent_symbol? ")" c hc b c₁ hb
  unfold symbol? at hb
  split at hb <;> cases hb
  · cases hrun
    exact ⟨us, hus, .inl ⟨rfl, hm⟩⟩
  · next hopen =>
    obtain ⟨more, c₂, hmany, hrun⟩ := Outcome.read_bind_eq_ok.mp hrun
    obtain ⟨_, c₃, hclose, hrun⟩ := Outcome.read_bind_eq_ok.mp hrun
    cases hrun
    obtain ⟨vs, hvs, heach⟩ :=
      Yields.many (.when (silent_symbol? ",") (builds_expr h)) c hc more c₂ hmany
    obtain ⟨ws, hws, hquiet⟩ := silent_symbol ")" c₂ (hvs.ready hc) _ _ hclose
    obtain ⟨hmarks, hshaped⟩ := each_exprs heach
    refine ⟨vs ++ ws, hvs.trans hws, .inr ⟨more, rfl, ?_, ?_, hshaped⟩⟩
    · rintro rfl
      obtain rfl := many_comma_nil hmany
      unfold symbol at hclose
      rw [if_neg hopen] at hclose
      cases hclose
    · rw [Token.marksFrom_append, ← hvs.positional, hquiet, List.append_nil, hmarks]

/-- What stands in parentheses is shaped, and fits the right side of a membership test: a list or
subquery as it is, anything else as a list of one. -/
theorem builds_parenthesized (h : r.Sound V) :
    Builds V (parenthesized r) (Expr.collect markers) fun e =>
      e.Shaped V ∧ (e.isGroup = true → e.Member V) := by
  refine .bind (silent_symbol "(") ?_
  rintro _ _ rfl
  refine .get fun c => .ite (fun _ => ?_) fun _ => ?_
  · refine .bind (h.select c) fun m s hs => .bind (silent_symbol ")") ?_
    rintro _ _ rfl
    exact .pure ⟨by simpa [Expr.collect] using hs.1, hs.2, fun _ => hs.2⟩
  · refine .bind (builds_expr h c) fun m first hfirst => (yields_items h first).mono ?_
    rintro n e (⟨rfl, rfl⟩ | ⟨more, rfl, hmore, hn, hs⟩)
    · refine ⟨by simpa using hfirst.1, hfirst.2, fun hg => ?_⟩
      cases e with
      | list items =>
        obtain ⟨hlen, hitems⟩ := hfirst.2
        refine ⟨by rintro rfl; simp at hlen, ?_, hitems⟩
        rintro e rfl
        simp at hlen
      | subquery s => exact hfirst.2
      | _ => cases hg
    · refine ⟨?_, ⟨?_, hfirst.2, hs⟩, fun _ => ⟨List.cons_ne_nil _ _, ?_, hfirst.2, hs⟩⟩
      · simp only [Expr.collect, collectExprs, hfirst.1, hn, List.nil_append]
      · simp only [List.length_cons]
        have := List.length_pos_iff.mpr hmore
        omega
      · rintro e he
        exact absurd (List.cons.inj he).2 hmore

theorem builds_membership (h : r.Sound V) :
    Builds V (membership r) (Expr.collect markers) fun e =>
      e.Member V ∧ Precedence.atom ≤ e.precedence := by
  refine .get fun c => .ite (fun _ => ?_) fun _ => Yields.fail c
  refine .bind (builds_parenthesized h c) fun m e he => ?_
  obtain ⟨hm, hs, hg⟩ := he
  split
  · exact .pure ⟨by simpa using hm, hg rfl, le_refl _⟩
  · exact .pure ⟨by simpa using hm, hg rfl, le_refl _⟩
  · next hlist hsub =>
    refine .pure ⟨by simpa [Expr.collect, collectExprs] using hm, ?_, le_refl _⟩
    refine ⟨List.cons_ne_nil _ _, ?_, hs, trivial⟩
    rintro e' he
    cases he
    cases e with
    | list items => exact absurd rfl (hlist items)
    | subquery s => exact absurd rfl (hsub s)
    | _ => rfl

theorem atCall_quiet {c : Cursor} (hc : c.Ready V.Admits) (h : atCall c = true) :
    V.call c.current.text ∧ Token.Quiet (c.after.take 2) := by
  unfold atCall at h
  simp only [Bool.and_eq_true, beq_iff_eq] at h
  obtain ⟨hk, hp⟩ := h
  obtain ⟨hadm, ts, ha⟩ := hc.current (by rw [hk]; decide)
  refine ⟨hadm.call hk, ?_⟩
  rw [Cursor.peek?, ha] at hp
  rw [ha]
  cases ts with
  | nil => simp [Token.Quiet, hk]
  | cons u us =>
    simp only [List.getElem?_cons_succ, List.getElem?_cons_zero, Token.isSymbol, Bool.and_eq_true,
      beq_iff_eq] at hp
    simp [Token.Quiet, hk, hp.1]

theorem builds_call (h : r.Sound V) : Builds V (call r) (Expr.collect markers) (Expr.Shaped V) := by
  refine .get fun c => .ite (fun hcall => .ready fun hc => ?_) fun _ => Yields.fail c
  obtain ⟨hname, hquiet⟩ := atCall_quiet hc hcall
  refine .bind (.jump hquiet) ?_
  rintro _ _ rfl
  refine .bind (silent_phrase? _) ?_
  rintro _ distinct rfl
  refine .bind (silent_symbol? _) ?_
  rintro _ closed rfl
  refine .ite (fun _ => .pure ⟨rfl, hname, trivial⟩) fun _ => ?_
  refine .bind (.commaList (builds_expr h)) fun m args hargs => .bind (silent_symbol _) ?_
  rintro _ _ rfl
  obtain ⟨hm, hs⟩ := each_exprs hargs.2
  exact .pure ⟨by simpa [Expr.collect] using hm, hname, hs⟩

theorem builds_branch? (h : r.Sound V) : Yields V.Admits (branch? r)
    (Found fun m b => b.condition.collect markers ++ b.result.collect markers = m
      ∧ b.condition.Shaped V ∧ b.result.Shaped V) := by
  refine .after? (.bind (builds_expr h) fun m c hc => .bind (silent_phrase _ _) ?_)
  rintro _ _ rfl
  refine .bind (builds_expr h) fun m' e he => .pure ?_
  exact ⟨by simp [hc.1, he.1], hc.2, he.2⟩

theorem builds_caseExpr (h : r.Sound V) :
    Builds V (caseExpr r) (Expr.collect markers) (Expr.Shaped V) := by
  have hrest : ∀ operand, OptShaped V operand → Yields V.Admits
      (do
        let branches ← many (branch? r)
        if branches.isEmpty then fail "Expected WHEN"
        else
          let otherwise ← after? ["ELSE"] (expr r)
          phrase ["END"] "Expected END"
          pure (Expr.case operand branches otherwise))
      fun m e => e.collect markers = collectOpt markers operand ++ m ∧ e.Shaped V := by
    intro operand hop
    refine .bind (.many (builds_branch? h)) fun m bs hbs => .ite (fun _ => .fail) fun hne => ?_
    refine .bind (.after? (builds_expr h)) fun m' o ho => .bind (silent_phrase _ _) ?_
    rintro _ _ rfl
    obtain ⟨hm, hs⟩ := hbs.flatMap
      (fun b : Branch => b.condition.collect markers ++ b.result.collect markers) fun _ _ hq => hq
    obtain ⟨hm', hs'⟩ := found_opt ho
    rw [← collectBranches_eq] at hm
    refine .pure ⟨by simp [Expr.collect, hm, hm'], hop, ?_, branchesShaped_iff.mpr hs, hs'⟩
    rintro rfl
    exact hne rfl
  refine .bind (silent_phrase _ _) ?_
  rintro _ _ rfl
  refine .get fun c => ?_
  refine .ite (fun _ => ?_) fun _ => ?_
  · refine .bind (Q := fun m o => m = [] ∧ o = none) (.pure ⟨rfl, rfl⟩) ?_
    rintro _ _ ⟨rfl, rfl⟩
    exact hrest none trivial
  · refine .bind (Yields.map (Q := Found fun m e => e.collect markers = m ∧ e.Shaped V)
      (builds_expr h) c) fun m o ho => ?_
    obtain ⟨hm, hs⟩ := found_opt ho
    exact (hrest o hs).mono fun m' e he => ⟨by rw [he.1, hm, List.nil_append], he.2⟩

theorem negated_shaped {e : Expr} (h : e.Shaped V) :
    (negated e).collect markers = e.collect markers ∧ (negated e).Shaped V := by
  cases e with
  | literal l =>
    simp only [negated]
    split
    · next l' hl => exact ⟨rfl, V.literal_negate h hl⟩
    · next hl =>
      refine ⟨rfl, h, ?_⟩
      rintro _ ⟨⟩
      exact hl
  | _ => exact ⟨rfl, h, nofun⟩

theorem builds_operand (h : r.Sound V) :
    Builds V (operand r) (Expr.collect markers) (Expr.Shaped V) := by
  refine .bind (silent_phrase? _) ?_
  rintro _ _ rfl
  refine .ite (fun _ => .map ((h.flat _).mono fun m e he => he)) fun _ => .bind (silent_symbol? _) ?_
  rintro _ _ rfl
  refine .ite (fun _ => .map (h.operand.mono fun m e he => ?_)) fun _ => .bind (silent_symbol? _) ?_
  · obtain ⟨hm, hs⟩ := negated_shaped he.2
    exact ⟨hm.trans he.1, hs⟩
  rintro _ _ rfl
  refine .ite (fun _ => h.operand) fun _ => .get fun c => .ite (fun _ => ?_) fun _ => ?_
  · exact (builds_parenthesized h c).mono fun m e he => ⟨he.1, he.2.1⟩
  refine .bind (silent_symbol? _ c) ?_
  rintro _ _ rfl
  refine .ite (fun _ => .pure ⟨rfl, .inr rfl, rfl⟩) fun _ => .get fun c => ?_
  refine .ite (fun _ => builds_caseExpr h c) fun _ => .ite (fun _ => ?_) fun _ =>
    .ite (fun _ => builds_parameter c) fun _ => .ite (fun _ => builds_call h c) fun _ =>
      .ite (fun _ => ?_) fun _ => Yields.fail c
  · exact Yields.map (yields_literal.mono fun m l hl => ⟨hl.1.symm, hl.2⟩) c
  · exact Yields.map (yields_name.mono fun m i hi => ⟨hi.1.symm, .inl hi.2.1, hi.2.2⟩) c

/-- The tokens of a binary operator hold no marker. -/
theorem operator?_quiet {c : Cursor} {op : Operator} {n : Nat} (h : c.operator? = some (op, n)) :
    Token.Quiet (c.after.take n) := by
  unfold Cursor.operator? at h
  split at h
  · next hk =>
    obtain ⟨_, -, h⟩ := Option.map_eq_some_iff.mp h
    cases h
    exact Cursor.quiet_current (by rw [hk]; decide)
  · obtain ⟨ph, hph, h⟩ := Option.map_eq_some_iff.mp h
    cases h
    have hstarts := List.find?_some hph
    exact Cursor.startsWith_quiet hstarts

/-- A binary operator with its right operand. -/
def StepRead (V : Vocabulary) (m : List Mark) (s : Operator × Expr) : Prop :=
  s.2.collect markers = m ∧ Flat.OperandShaped V Precedence.atom s.1.isMembership s.2

theorem yields_step? (h : r.Sound V) (min : Nat) :
    Yields V.Admits (step? r min) (Found (StepRead V)) := by
  refine .get fun c => ?_
  split
  · exact .pure rfl
  · next op n hop =>
    refine .ite (fun _ => .pure rfl) fun _ => .bind (.jump (operator?_quiet hop)) ?_
    rintro _ _ rfl
    refine .ite (fun hm => ?_) fun hm => ?_
    · refine .bind (builds_membership h) fun m e he => .pure ⟨by simpa using he.1, ?_, fun _ => he.2⟩
      exact fun hf => absurd (hm.symm.trans hf) (by decide)
    · refine .bind (builds_operand h) fun m e he => .pure ⟨by simpa using he.1, fun _ => he.2, ?_⟩
      exact fun ht => absurd ht hm

theorem builds_flat (h : r.Sound V) (min : Nat) :
    Builds V (flat r min) (Expr.collect markers) (Expr.Shaped V) := by
  refine .bind (builds_operand h) fun m head hhead => .bind (.many (yields_step? h min)) fun n steps hs => ?_
  obtain ⟨hm, hs⟩ := hs.flatMap (fun s : Operator × Expr => s.2.collect markers) fun _ _ hq => hq
  refine .pure ⟨?_, Flat.shaped_toExpr hhead.2 hs⟩
  simp only [Flat.collect_toExpr, Flat.collect, hhead.1, hm, List.append_nil]

/-! ## Selects -/

theorem builds_field (h : r.Sound V) :
    Builds V (field r) (fun f => f.expr.collect markers) fun f =>
      f.expr.Shaped V ∧ LabelShaped V f.label := by
  refine .bind (builds_expr h) fun m e he => .bind yields_label fun n a ha => .pure ?_
  exact ⟨by simp [he.1, ha.1], he.2, ha.2⟩

theorem builds_order (h : r.Sound V) :
    Builds V (order r) (fun o => o.expr.collect markers) fun o => o.expr.Shaped V := by
  refine .bind (builds_expr h) fun m e he => .bind (silent_phrase? _) ?_
  rintro _ _ rfl
  refine .ite (fun _ => .pure ⟨by simpa using he.1, he.2⟩) fun _ => .bind (silent_phrase? _) ?_
  rintro _ _ rfl
  exact .pure ⟨by simpa using he.1, he.2⟩

theorem yields_tableName : Yields V.Admits tableName fun m s => m = [] ∧ V.name s := by
  intro c hc s d h
  unfold tableName at h
  cases hi : identifier c with
  | error e c' => rw [hi] at h; cases h
  | ok i c' =>
    rw [hi] at h
    cases h
    obtain ⟨used, hm, hq⟩ := yields_name c hc i _ hi
    exact ⟨used, hm, hq.1, hq.2.1⟩

theorem builds_table (h : r.Sound V) :
    Builds V (table r) (Table.collect markers) (Table.Shaped V) := by
  refine .bind (silent_symbol? _) ?_
  rintro _ _ rfl
  refine .ite (fun _ => .get fun c => .ite (fun _ => ?_) fun _ => Yields.fail c) fun _ => ?_
  · refine .bind (h.select c) fun m s hs => .bind (silent_symbol _) ?_
    rintro _ _ rfl
    refine .bind yields_label fun n a ha => .pure ?_
    exact ⟨by simp [Table.collect, hs.1, ha.1], hs.2, ha.2⟩
  · refine .bind yields_tableName fun m s hs => .bind yields_label fun n a ha => .pure ?_
    exact ⟨by simp [Table.collect, hs.1, ha.1], hs.2, ha.2⟩

theorem silent_joinKind : Silent V.Admits joinKind := by
  refine .bind (silent_phrase? _) ?_
  rintro _ _ rfl
  refine .ite (fun _ => .pure rfl) fun _ => .bind (silent_phrase? _) ?_
  rintro _ _ rfl
  refine .ite (fun _ => .pure rfl) fun _ => .bind (silent_phrase? _) ?_
  rintro _ _ rfl
  refine .ite (fun _ => .pure rfl) fun _ => .bind (silent_phrase? _) ?_
  rintro _ _ rfl
  exact .ite (fun _ => .pure rfl) fun _ => .fail

theorem builds_join (h : r.Sound V) :
    Builds V (join r) (fun j => j.table.collect markers ++ collectOpt markers j.condition)
      (Join.Shaped V) := by
  refine .bind silent_joinKind ?_
  rintro _ kind rfl
  refine .bind (builds_table h) fun m t ht => .bind (.after? (builds_expr h)) fun n o ho => ?_
  obtain ⟨hn, hs⟩ := found_opt ho
  refine .ite (fun _ => .fail) fun hpath => .pure ?_
  refine ⟨by simp [ht.1, hn], ht.2, hs, rfl, fun hnone hpathless => hpath ?_⟩
  simp only at hnone hpathless
  rw [hnone, hpathless]
  rfl

theorem yields_join? (h : r.Sound V) : Yields V.Admits (join? r)
    (Found fun m j => j.table.collect markers ++ collectOpt markers j.condition = m ∧ j.Shaped V) :=
  .get fun c => .ite (fun _ => Yields.map (builds_join h) c) fun _ => .pure rfl

theorem yields_listAfter {ph : Phrase} {p : Parse α} {Q : List Mark → α → Prop}
    (h : Yields V.Admits p Q) : Yields V.Admits (listAfter ph p) (Each Q) := by
  refine .bind (silent_phrase? _) ?_
  rintro _ _ rfl
  exact .ite (fun _ => (Yields.commaList h).mono fun m as ha => ha.2) fun _ => .pure rfl

/-- Ordering items in a row. -/
theorem each_orders {m : List Mark} {os : List OrderItem}
    (h : Each (fun m o => o.expr.collect markers = m ∧ o.expr.Shaped V) m os) :
    collectOrders markers os = m ∧ OrdersShaped V os := by
  rw [collectOrders_eq, ordersShaped_iff]
  exact h.flatMap _ fun _ _ hq => hq

/-- Result fields in a row. -/
theorem each_fields {m : List Mark} {fs : List ResultField}
    (h : Each (fun m f => f.expr.collect markers = m ∧ f.expr.Shaped V ∧ LabelShaped V f.label) m fs) :
    collectFields markers fs = m ∧ FieldsShaped V fs := by
  rw [collectFields_eq, fieldsShaped_iff]
  exact h.flatMap _ fun _ _ hq => hq

/-- A source that may be absent. -/
theorem found_optTable {m : List Mark} {o : Option Table}
    (h : Found (fun m t => t.collect markers = m ∧ t.Shaped V) m o) :
    collectOptTable markers o = m ∧ OptTableShaped V o := by
  cases o with
  | none => exact ⟨h.symm, trivial⟩
  | some e => exact h

theorem builds_selectCore (h : r.Sound V) :
    Builds V (selectCore r) (Select.collect markers) fun s => s.Shaped V ∧ s.unions = [] := by
  refine .bind (silent_phrase _ _) ?_
  rintro _ _ rfl
  refine .bind (silent_phrase? _) ?_
  rintro _ distinct rfl
  refine .get fun c => .ite (fun _ => Yields.fail c) fun _ => ?_
  refine .bind (Yields.commaList (builds_field h) c) fun m₁ fs hfs =>
    .bind (.after? (builds_table h)) fun m₂ t ht => .bind (.many (yields_join? h)) fun m₃ js hjs =>
    .bind (.after? (builds_expr h)) fun m₄ w hw => .bind (yields_listAfter (builds_expr h)) fun m₅ gs hgs =>
    .bind (.after? (builds_expr h)) fun m₆ hv hhv => .bind (yields_listAfter (builds_order h)) fun m₇ os hos =>
    .bind (.after? (builds_expr h)) fun m₈ l hl => .bind (.after? (builds_expr h)) fun m₉ o ho =>
    .pure ?_
  obtain ⟨e₁, s₁⟩ := each_fields hfs.2
  obtain ⟨e₂, s₂⟩ := found_optTable ht
  obtain ⟨e₃, s₃⟩ := hjs.flatMap
    (fun j : Join => j.table.collect markers ++ collectOpt markers j.condition) fun _ _ hq => hq
  rw [← collectJoins_eq] at e₃
  obtain ⟨e₄, s₄⟩ := found_opt hw
  obtain ⟨e₅, s₅⟩ := each_exprs hgs
  obtain ⟨e₆, s₆⟩ := found_opt hhv
  obtain ⟨e₇, s₇⟩ := each_orders hos
  obtain ⟨e₈, s₈⟩ := found_opt hl
  obtain ⟨e₉, s₉⟩ := found_opt ho
  refine ⟨?_, ⟨hfs.1, s₁, s₂, joinsShaped_iff.mpr s₃, s₄, s₅, s₆, s₇, s₈, s₉, trivial, rfl⟩, rfl⟩
  simp only [Select.collect, collectUnions, e₁, e₂, e₃, e₄, e₅, e₆, e₇, e₈, e₉, markers_facts,
    markers_paging, List.nil_append, List.append_nil, List.append_assoc]

theorem yields_union? (h : r.Sound V) : Yields V.Admits (union? r)
    (Found fun m u => u.select.collect markers = m ∧ u.select.Shaped V ∧ u.select.unions = []) := by
  refine .bind (silent_phrase? _) ?_
  rintro _ _ rfl
  refine .ite (fun _ => .map (builds_selectCore h)) fun _ => .bind (silent_phrase? _) ?_
  rintro _ _ rfl
  exact .ite (fun _ => .map (builds_selectCore h)) fun _ => .pure rfl

theorem builds_select (h : r.Sound V) :
    Builds V (select r) (Select.collect markers) (Select.Shaped V) := by
  refine .bind (builds_selectCore h) fun m s hs => .bind (.many (yields_union? h)) fun n us hus => .pure ?_
  obtain ⟨e, su⟩ := hus.flatMap (fun u : UnionPart => u.select.collect markers) fun _ _ hq => hq
  rw [← collectUnions_eq] at e
  obtain ⟨hm, hshaped, hu⟩ := hs
  cases s
  cases hu
  obtain ⟨h₁, h₂, h₃, h₄, h₅, h₆, h₇, h₈, h₉, h₁₀, -, hf⟩ := hshaped
  refine ⟨?_, h₁, h₂, h₃, h₄, h₅, h₆, h₇, h₈, h₉, h₁₀, unionsShaped_iff.mpr su, hf⟩
  rw [← hm, ← e]
  simp only [Select.collect, collectUnions, List.append_nil, List.append_assoc]

/-! ## The other statements -/

theorem builds_row (h : r.Sound V) :
    Builds V (row r) (Expr.collect markers) (Expr.RowShaped V) := by
  refine .bind (silent_symbol _) ?_
  rintro _ _ rfl
  refine .bind (.commaList (builds_expr h)) fun m es hes => .bind (silent_symbol _) ?_
  rintro _ _ rfl
  obtain ⟨hm, hs⟩ := each_exprs hes.2
  exact .pure ⟨by simpa [Expr.collect] using hm, es, rfl, hes.1, hs⟩

theorem builds_column :
    Builds V (Expr.ident <$> identifier) (Expr.collect markers) (Expr.NameShaped V) := by
  refine .map (yields_name.mono ?_)
  rintro m ⟨s, _⟩ ⟨rfl, hs, rfl⟩
  exact ⟨by simp [Expr.collect], s, hs, rfl⟩

theorem builds_columns :
    Builds V columns (collectExprs markers) fun es => ∀ e ∈ es, e.NameShaped V := by
  refine .bind (silent_symbol? _) ?_
  rintro _ _ rfl
  refine .ite (fun _ => ?_) fun _ => .pure ⟨rfl, nofun⟩
  refine .bind (.commaList builds_column) fun m es hes => .bind (silent_symbol _) ?_
  rintro _ _ rfl
  obtain ⟨hm, hs⟩ := hes.2.flatMap _ fun _ _ hq => hq
  exact .pure ⟨by simpa [collectExprs_eq] using hm, hs⟩

theorem builds_insertSource (h : r.Sound V) :
    Builds V (insertSource r) (InsertSource.collect markers) (InsertSource.Shaped V) := by
  refine .bind (silent_phrase? _) ?_
  rintro _ _ rfl
  refine .ite (fun _ => .map ((Yields.commaList (builds_row h)).mono fun m es hes => ?_)) fun _ =>
    .get fun c => .ite (fun _ => Yields.map (h.select) c) fun _ => Yields.fail c
  obtain ⟨hm, hs⟩ := hes.2.flatMap _ fun _ _ hq => hq
  exact ⟨by simpa [InsertSource.collect, collectExprs_eq] using hm, hes.1, hs⟩

theorem builds_insert (h : r.Sound V) :
    Builds V (insert r) (Insert.collect markers) (Insert.Shaped V) := by
  refine .bind (silent_phrase _ _) ?_
  rintro _ _ rfl
  refine .bind (builds_table h) fun m₁ t ht => .bind builds_columns fun m₂ cs hcs =>
    .bind (builds_insertSource h) fun m₃ s hs =>
    .bind (yields_listAfter (builds_field h)) fun m₄ fs hfs => .pure ?_
  obtain ⟨hm, hshaped⟩ := each_fields hfs
  refine ⟨?_, ht.2, hcs.2, hs.2, hshaped, rfl⟩
  simp only [Insert.collect, ht.1, hcs.1, hs.1, hm, markers_facts, markers_returned, List.nil_append,
    List.append_nil, List.append_assoc]

theorem builds_assignment (h : r.Sound V) :
    Builds V (assignment r) (fun a => a.target.collect markers ++ a.value.collect markers) fun a =>
      a.target.NameShaped V ∧ a.value.Shaped V := by
  refine .bind yields_name ?_
  rintro _ ⟨s, _⟩ ⟨rfl, hs, rfl⟩
  refine .bind (silent_symbol _) ?_
  rintro _ _ rfl
  refine .bind (builds_expr h) fun m e he => .pure ⟨?_, ⟨s, hs, rfl⟩, he.2⟩
  simpa [Expr.collect] using he.1

theorem builds_update (h : r.Sound V) :
    Builds V (update r) (Update.collect markers) (Update.Shaped V) := by
  refine .bind (silent_phrase _ _) ?_
  rintro _ _ rfl
  refine .bind (builds_table h) fun m₁ t ht => .bind (silent_phrase _ _) ?_
  rintro _ _ rfl
  refine .bind (.commaList (builds_assignment h)) fun m₂ as has =>
    .bind (.after? (builds_expr h)) fun m₃ w hw => .bind (yields_listAfter (builds_order h)) fun m₄ os hos =>
    .bind (.after? (builds_expr h)) fun m₅ l hl => .bind (.after? (builds_expr h)) fun m₆ o ho => .pure ?_
  obtain ⟨e₂, s₂⟩ := has.2.flatMap _ fun _ _ hq => hq
  rw [← collectAssignments_eq] at e₂
  obtain ⟨e₃, s₃⟩ := found_opt hw
  obtain ⟨e₄, s₄⟩ := each_orders hos
  obtain ⟨e₅, s₅⟩ := found_opt hl
  obtain ⟨e₆, s₆⟩ := found_opt ho
  refine ⟨?_, ht.2, has.1, s₂, s₃, s₄, s₅, s₆, rfl⟩
  simp only [Update.collect, ht.1, e₂, e₃, e₄, e₅, e₆, markers_facts, markers_paging, List.nil_append,
    List.append_nil, List.append_assoc]

theorem builds_delete (h : r.Sound V) :
    Builds V (delete r) (Delete.collect markers) (Delete.Shaped V) := by
  refine .bind (silent_phrase _ _) ?_
  rintro _ _ rfl
  refine .bind (builds_table h) fun m₁ t ht =>
    .bind (.after? (builds_expr h)) fun m₃ w hw => .bind (yields_listAfter (builds_order h)) fun m₄ os hos =>
    .bind (.after? (builds_expr h)) fun m₅ l hl => .bind (.after? (builds_expr h)) fun m₆ o ho => .pure ?_
  obtain ⟨e₃, s₃⟩ := found_opt hw
  obtain ⟨e₄, s₄⟩ := each_orders hos
  obtain ⟨e₅, s₅⟩ := found_opt hl
  obtain ⟨e₆, s₆⟩ := found_opt ho
  refine ⟨?_, ht.2, s₃, s₄, s₅, s₆, rfl⟩
  simp only [Delete.collect, ht.1, e₃, e₄, e₅, e₆, markers_facts, markers_paging, List.nil_append,
    List.append_nil, List.append_assoc]

theorem silent_finish : Silent V.Admits finish := by
  refine .bind (silent_symbol? _) ?_
  rintro _ _ rfl
  exact .get fun c => .ite (fun _ => .pure rfl) fun _ => Yields.fail c

/-- Where the reading ends, no token is left. -/
theorem finish_atEnd {c d : Cursor} {u : Unit} (h : finish c = .ok u d) : d.after = [] := by
  obtain ⟨_, e, -, h⟩ := Outcome.read_bind_eq_ok.mp h
  change (if e.atEnd then pure () else Parse.fail _ : Parse Unit) e = _ at h
  split at h
  · next hend =>
    cases h
    exact List.isEmpty_iff.mp hend
  · cases h

/-- What is read up to the end of the text. -/
theorem builds_finished {p : Parse α} {marks : α → List Mark} {shape : α → Prop}
    (h : Builds V p marks shape) : Builds V (do let a ← p; finish; pure a) marks shape := by
  refine .bind h fun m a ha => .bind silent_finish ?_
  rintro _ _ rfl
  exact .pure ⟨by simpa using ha.1, ha.2⟩

theorem finished_atEnd {p : Parse α} {c d : Cursor} {a : α}
    (h : (do let a ← p; finish; pure a : Parse α) c = .ok a d) : d.after = [] := by
  obtain ⟨_, _, -, h⟩ := Outcome.read_bind_eq_ok.mp h
  obtain ⟨_, _, hfin, h⟩ := Outcome.read_bind_eq_ok.mp h
  cases h
  exact finish_atEnd hfin

theorem builds_query (h : r.Sound V) : Builds V (query r) (Query.collect markers) (Query.Shaped V) := by
  have statement {α : Type} {p : Parse α} {f : α → Query}
      (hp : Builds V p (fun a => (f a).collect markers) fun a => (f a).Shaped V) :
      Builds V (do let q ← f <$> p; finish; pure q) (Query.collect markers) (Query.Shaped V) :=
    builds_finished (.map hp)
  exact .get fun c => .ite (fun _ => statement h.select c) fun _ =>
    .ite (fun _ => statement (builds_insert h) c) fun _ =>
    .ite (fun _ => statement (builds_update h) c) fun _ =>
    .ite (fun _ => statement (builds_delete h) c) fun _ => Yields.fail c

theorem query_atEnd {c d : Cursor} {q : Query} (h : query r c = .ok q d) : d.after = [] := by
  change (if _ then _ else _ : Parse Query) c = _ at h
  split at h
  · exact finished_atEnd h
  split at h
  · exact finished_atEnd h
  split at h
  · exact finished_atEnd h
  split at h
  · exact finished_atEnd h
  · cases h

end Grammar

/-! ## Whole texts -/

/-- **The rules build what they read**, at every depth of nesting. -/
theorem Rules.sound_upTo : ∀ n, (Rules.upTo n).Sound V
  | 0 => ⟨fun _ => Yields.fail, Yields.fail, Yields.fail⟩
  | n + 1 =>
    have h := Rules.sound_upTo n
    ⟨Grammar.builds_flat h, Grammar.builds_operand h, Grammar.builds_select h⟩

theorem Parse.Yields.nested {P : Token → Prop} {p : Rules → Parse α} {Q : List Mark → α → Prop}
    (h : ∀ n, Yields P (p (Rules.upTo n)) Q) : Yields P (Parse.nested p) Q :=
  fun c hc a d hp => h _ c hc a d hp

/-- A vocabulary that leaves out nothing. -/
def Vocabulary.all : Vocabulary where
  word _ := True
  call _ := True
  name _ := True
  parameter _ := True
  literal _ := True
  name_word _ := trivial
  name_segment _ _ := trivial
  name_wildcard _ := trivial
  literal_bool _ := trivial
  literal_null := trivial
  literal_negate _ _ := trivial

theorem Vocabulary.admits_all (t : Token) : Vocabulary.all.Admits t :=
  ⟨fun _ => trivial, fun _ => trivial, fun _ _ _ => trivial, fun _ _ _ => trivial⟩

theorem Token.marksFrom_filter : ∀ (ts : List Token) (n : Nat),
    marksFrom n (ts.filter fun t => t.kind != .whitespace) = marksFrom n ts
  | [], _ => rfl
  | t :: ts, n => by
    by_cases hk : t.kind = .whitespace
    · rw [List.filter_cons_of_neg (by simp [hk]), marksFrom, if_neg (by rw [hk]; decide),
        marksFrom_filter ts n]
    · rw [List.filter_cons_of_pos (by simp [hk])]
      simp only [marksFrom, marksFrom_filter ts]

/-- A text that is read is scanned first. -/
theorem Parse.run_eq_ok {p : Parse α} {text : String} {a : α} (h : Parse.run p text = .ok a) :
    ∃ ts c d, Token.scan text = .ok ts ∧ c.after = ts.filter (fun t => t.kind != .whitespace)
      ∧ c.sentinel.kind = .endOfInput ∧ c.positional = 0 ∧ p c = .ok a d := by
  unfold Parse.run Cursor.ofText at h
  split at h
  · cases h
  · next c hc =>
    split at hc <;> cases hc
    next ts hts =>
    split at h <;> cases h
    next d hd => exact ⟨ts, _, d, hts, rfl, rfl, rfl, hd⟩

/-- `Parse.run` on the characters of a text. -/
def Parse.runChars (p : Parse α) (cs : List Char) : Except ParseError α :=
  match Token.scanFrom 0 0 cs with
  | .error e => .error e
  | .ok ts =>
    match p ⟨[], ts.filter fun t => t.kind != .whitespace, .atEnd (String.ofList cs).utf8ByteSize, 0⟩ with
    | .ok a _ => .ok a
    | .error e _ => .error e

/-- A query is read by the characters of its text, which for a literal need not be decoded. -/
theorem Query.ofText_ofList (cs : List Char) : ofText (.ofList cs) = Parse.runChars (.nested Grammar.query) cs := by
  rw [ofText, Parse.run, Cursor.ofText, Token.scan, String.toList_ofList, Parse.runChars]
  cases Token.scanFrom 0 0 cs <;> rfl

/-- A reader that requires the end builds what it builds from all tokens of the text. -/
theorem Parse.Builds.whole {p : Parse α} {marks : α → List Mark} {shape : α → Prop} {text : String}
    {ts : List Token} {a : α} (hp : Builds V p marks shape)
    (hend : ∀ c d, p c = .ok a d → d.after = []) (hts : Token.scan text = .ok ts)
    (hV : ∀ t ∈ ts, V.Admits t) (h : Parse.run p text = .ok a) :
    marks a = Token.marksFrom 0 ts ∧ shape a := by
  obtain ⟨ts', c, d, hts', hafter, hsent, hpos, hrun⟩ := Parse.run_eq_ok h
  obtain rfl : ts = ts' := Except.ok.inj (hts.symm.trans hts')
  have hready : c.Ready V.Admits :=
    ⟨fun t ht => hV t (List.mem_of_mem_filter (hafter ▸ ht)), hsent⟩
  obtain ⟨used, hm, hq⟩ := hp c hready a d hrun
  have hused : used = ts.filter fun t => t.kind != .whitespace := by
    rw [← hafter, hm.after, hend c d hrun, List.append_nil]
  rw [hused, hpos, Token.marksFrom_filter] at hq
  exact hq

/-- **A query is made of its text**: it has no facts yet, its names and literals are those of the
tokens, and so are its markers, in the same order. -/
theorem Query.ofText_shaped {text : String} {ts : List Token} {q : Query}
    (h : Query.ofText text = .ok q) (hts : Token.scan text = .ok ts) (hV : ∀ t ∈ ts, V.Admits t) :
    q.collect markers = Token.marksFrom 0 ts ∧ q.Shaped V := by
  exact Parse.Builds.whole (.nested fun n => Grammar.builds_query (Rules.sound_upTo n))
    (fun _ _ hd => Grammar.query_atEnd hd) hts hV h

theorem Query.shaped_of_ofText {text : String} {q : Query} (h : Query.ofText text = .ok q) : q.Shaped .all := by
  obtain ⟨ts, -, -, hts, -⟩ := Parse.run_eq_ok h
  exact (ofText_shaped h hts fun t _ => Vocabulary.admits_all t).2

theorem silent_rejectPositional : Silent V.Admits rejectPositional := by
  intro c _ _ d h
  unfold rejectPositional at h
  split at h <;> cases h
  exact ⟨[], .refl c, rfl⟩

/-- What is spliced into another query is made of its text as well. -/
theorem Parse.Builds.detached {p : Rules → Parse α} {marks : α → List Mark} {shape : α → Prop}
    {text : String} {ts : List Token} {a : α} (hp : ∀ n, Builds V (p (Rules.upTo n)) marks shape)
    (h : Parse.detached p text = .ok a) (hts : Token.scan text = .ok ts) (hV : ∀ t ∈ ts, V.Admits t) :
    marks a = Token.marksFrom 0 ts ∧ shape a := by
  refine Parse.Builds.whole ?_ ?_ hts hV h
  · refine .bind silent_rejectPositional ?_
    rintro _ _ rfl
    exact Grammar.builds_finished (.nested hp)
  · intro c d hd
    obtain ⟨_, _, -, hd⟩ := Outcome.read_bind_eq_ok.mp hd
    exact Grammar.finished_atEnd hd

theorem Expr.ofDetached_shaped {text : String} {ts : List Token} {e : Expr}
    (h : Expr.ofDetached text = .ok e) (hts : Token.scan text = .ok ts) (hV : ∀ t ∈ ts, V.Admits t) :
    e.collect markers = Token.marksFrom 0 ts ∧ e.Shaped V :=
  Parse.Builds.detached (fun n => Grammar.builds_expr (Rules.sound_upTo n)) h hts hV

theorem Expr.shaped_of_ofDetached {text : String} {e : Expr} (h : Expr.ofDetached text = .ok e) :
    e.Shaped .all := by
  obtain ⟨ts, -, -, hts, -⟩ := Parse.run_eq_ok h
  exact (ofDetached_shaped h hts fun t _ => Vocabulary.admits_all t).2

/-- The selects of an expression that is spliced into another query have no facts. -/
theorem Expr.ofDetached_blank {text : String} {e : Expr} (h : Expr.ofDetached text = .ok e) :
    Blank (e.collect scopes) :=
  (Expr.Shaped.covers e (shaped_of_ofDetached h)).facts

end EntitySql
