import Mathlib
import EntitySql.Proofs.Progress

/-!
# Reading ends

The grammar sets no bound to the nesting of constructs or to the rounds of a loop, but each of them takes a
token. So the rules that lie as many levels down as tokens are left are never asked (`Rules.tracks_iterate`, for
any such rules), and a loop comes to its end by itself.

* `Parse.repeats_many`: the bound of `many` is not what ends a loop.
* `Buffer.sweeps_foldLevel?`: nor is the bound of a level what ends its folding.
* **`Grammar.reading_ends`**: every construct is read forward, and in finitely many steps.
-/

namespace EntitySql

/-! ## Places in tokens -/

namespace Cursor

/-- The cursor at a place in some tokens, with the size of the text and the number of the next `?`. -/
def ofTokens (tokens : List Token) (size positional p : Nat) : Cursor :=
  ⟨(tokens.take p).reverse, tokens.drop p, Token.atEnd size, positional⟩

/-- How a run from a place may end: further on in the same tokens, or, where it fails, not before that place. -/
def Advances {α : Type} (tokens : List Token) (size p : Nat) : EStateM.Result ParseError Cursor α → Prop
  | .ok _ d => ∃ q positional, d = ofTokens tokens size positional q ∧ p < q ∧ q ≤ tokens.length
  | .error _ d => ∃ q positional, d = ofTokens tokens size positional q ∧ p ≤ q ∧ q ≤ tokens.length

variable {tokens : List Token} {size positional p : Nat}

theorem position_ofTokens (hp : p ≤ tokens.length) : (ofTokens tokens size positional p).position = p := by
  simpa [position, ofTokens] using hp

theorem length_after_ofTokens (tokens : List Token) (size positional p : Nat) :
    (ofTokens tokens size positional p).after.length = tokens.length - p := List.length_drop

theorem Reaches.eq_ofTokens {d : Cursor} (h : (ofTokens tokens size positional p).Reaches d) :
    d = ofTokens tokens size d.positional d.position ∧ d.position ≤ tokens.length := by
  obtain ⟨before, after, sentinel, positional'⟩ := d
  have htokens : before.reverse ++ after = tokens := h.tokens.trans (by simp [Cursor.tokens, ofTokens])
  have hsentinel : sentinel = Token.atEnd size := h.sentinel
  have hlength : before.length = before.reverse.length := List.length_reverse.symm
  rw [ofTokens, Cursor.position, ← htokens, hsentinel, hlength, List.take_left, List.drop_left, List.reverse_reverse,
    List.length_append]
  exact ⟨rfl, Nat.le_add_right _ _⟩

theorem Leads.advances {α : Type} {run : EStateM.Result ParseError Cursor α} (hp : p ≤ tokens.length)
    (h : (ofTokens tokens size positional p).Leads (fun _ => True) run) : Advances tokens size p run := by
  cases run with
  | ok a d =>
    have hlt := h.2 trivial
    rw [position_ofTokens hp] at hlt
    exact ⟨d.position, d.positional, h.1.eq_ofTokens.1, hlt, h.1.eq_ofTokens.2⟩
  | error e d =>
    have hle := h.1.position
    rw [position_ofTokens hp] at hle
    exact ⟨d.position, d.positional, h.1.eq_ofTokens.1, hle, h.1.eq_ofTokens.2⟩

end Cursor

/-! ## Loops -/

namespace Parse

variable {α : Type} {p p' : Parse (Option α)} {n : Nat}

/-- The loop that repeats a reader as long as it finds something, and how it ends. -/
inductive Repeats (p : Parse (Option α)) : Cursor → EStateM.Result ParseError Cursor (List α) → Prop
  | fails {c d : Cursor} {e : ParseError} : p c = .error e d → Repeats p c (.error e d)
  | ends {c d : Cursor} : p c = .ok none d → Repeats p c (.ok [] d)
  | goes {c d d' : Cursor} {a : α} {as : List α} :
    p c = .ok (some a) d → Repeats p d (.ok as d') → Repeats p c (.ok (a :: as) d')
  | breaks {c d d' : Cursor} {a : α} {e : ParseError} :
    p c = .ok (some a) d → Repeats p d (.error e d') → Repeats p c (.error e d')

/-- Each round leaves fewer tokens, so that the rounds do not run out before the tokens. -/
theorem repeats_manyUpTo (h : ∀ {d}, Tracks n (·.isSome = true) p p' d) (k : Nat) :
    ∀ {c : Cursor}, c.sentinel.kind = .endOfInput → c.after.length < n → c.after.length < k →
      Repeats p c (manyUpTo p k c) := by
  induction k with
  | zero => exact fun _ _ hk => absurd hk (Nat.not_lt_zero _)
  | succ k ih =>
    intro c hend hn hk
    have hleads := (h (d := c) hend hn).2
    change Repeats p c (EStateM.bind p _ c)
    unfold EStateM.bind
    cases hrun : p c with
    | error e d => exact .fails hrun
    | ok o d =>
      rw [hrun] at hleads
      cases o with
      | none => exact .ends hrun
      | some a =>
        have hlength := hleads.1.length_eq
        have hlt := hleads.2 rfl
        have hrest := ih (c := d) (hleads.1.sentinel ▸ hend) (by omega) (by omega)
        change Repeats p c (EStateM.bind (manyUpTo p k) _ d)
        unfold EStateM.bind
        cases hmore : manyUpTo p k d with
        | error e d' => exact .breaks hrun (hmore ▸ hrest)
        | ok as d' => exact .goes hrun (hmore ▸ hrest)

theorem repeats_many (h : ∀ {d}, Tracks n (·.isSome = true) p p' d) {c : Cursor}
    (hend : c.sentinel.kind = .endOfInput) (hn : c.after.length < n) : Repeats p c (many p c) :=
  repeats_manyUpTo h _ hend hn (Nat.lt_succ_self _)

/-- One round of `commaList`: finds one more where a comma stands. -/
def listed (p : Parse α) : Parse (Option α) := do
  if ← symbol? "," then some <$> p else pure none

theorem commaList_eq (p : Parse α) : commaList p = do return (← p) :: (← many (listed p)) := rfl

end Parse

namespace Buffer

variable {level : Nat}

/-- The loop that folds the operators of one level from a place on, and how it ends; `none` where a fold lacks an
operand. -/
inductive Sweeps (level : Nat) : Nat → Buffer → Option Buffer → Prop
  | ends {i : Nat} {b : Buffer} : b.operators.length ≤ i → Sweeps level i b (some b)
  | skips {i : Nat} {b : Buffer} {op : Operator} {r : Option Buffer} : b.operators[i]? = some op →
    op.precedence ≠ level → Sweeps level (i + 1) b r → Sweeps level i b r
  | folds {i : Nat} {b b' : Buffer} {op : Operator} {r : Option Buffer} : b.operators[i]? = some op →
    op.precedence = level → b.foldAt? i = some b' → Sweeps level i b' r → Sweeps level i b r
  | lacks {i : Nat} {b : Buffer} {op : Operator} : b.operators[i]? = some op →
    op.precedence = level → b.foldAt? i = none → Sweeps level i b none

theorem length_operators_foldAt? {b b' : Buffer} {i : Nat} (hi : i < b.operators.length)
    (h : b.foldAt? i = some b') : b'.operators.length + 1 = b.operators.length := by
  simp only [foldAt?, Option.bind_eq_bind, Option.bind_eq_some_iff, Option.pure_def, Option.some.injEq] at h
  obtain ⟨-, -, -, -, -, -, rfl⟩ := h
  rw [List.length_eraseIdx_of_lt hi, Nat.sub_add_cancel (Nat.zero_lt_of_lt hi)]

/-- Each round takes an operator away or goes past one. -/
theorem sweeps_sweep? (n : Nat) : ∀ {i : Nat} {b : Buffer}, i + n = b.operators.length →
    Sweeps level i b (sweep? level n i b) := by
  induction n with
  | zero => exact fun h => .ends h.ge
  | succ n ih =>
    intro i b h
    have hi : i < b.operators.length := by omega
    have hop := List.getElem?_eq_getElem hi
    rw [sweep?, hop]
    dsimp only [Option.bind_eq_bind, Option.bind_some]
    split
    · next hlevel =>
      cases hfold : b.foldAt? i with
      | none => exact .lacks hop hlevel hfold
      | some b' =>
        have hlength := length_operators_foldAt? hi hfold
        exact .folds hop hlevel hfold (ih (by omega))
    · next hlevel => exact .skips hop hlevel (ih (by omega))

theorem sweeps_foldLevel? (b : Buffer) : Sweeps level 0 b (b.foldLevel? level) :=
  sweeps_sweep? _ (Nat.zero_add _)

end Buffer

/-! ## The grammar -/

namespace Grammar

open Parse

/-- The constructs of the language. -/
inductive Construct : Type → Type
  | query : Construct Query
  | select : Construct Select
  | insert : Construct Insert
  | update : Construct Update
  | delete : Construct Delete
  | join : Construct Join
  | table : Construct Table
  | field : Construct ResultField
  | order : Construct OrderItem
  | assignment : Construct Assignment
  | case : Construct Expr
  | call : Construct Expr
  | literal : Construct Literal
  | parameter : Construct Expr
  | identifier : Construct Identifier
  | expr : Construct Expr

/-- What reads a construct, with rules for those inside it. -/
def Construct.reader {α : Type} : Construct α → Rules → Parse α
  | query => Grammar.query
  | select => Grammar.select
  | insert => Grammar.insert
  | update => Grammar.update
  | delete => Grammar.delete
  | join => Grammar.join
  | table => Grammar.table
  | field => Grammar.field
  | order => Grammar.order
  | assignment => Grammar.assignment
  | case => caseExpr
  | call => Grammar.call
  | literal => fun _ => Grammar.literal
  | parameter => fun _ => Grammar.parameter
  | identifier => fun _ => Grammar.identifier
  | expr => Grammar.expr

/-- The loops of the grammar, by what they find. -/
inductive Repetition : Type → Type
  /-- The segments of a name. -/
  | segments : Repetition String
  /-- The operators of an expression, with their right operands. -/
  | steps (min : Nat) : Repetition (Operator × Expr)
  /-- The members of a list, a row, a call or a grouping. -/
  | members : Repetition Expr
  | branches : Repetition Branch
  | fields : Repetition ResultField
  | orders : Repetition OrderItem
  | joins : Repetition Join
  | unions : Repetition UnionPart
  | columns : Repetition Expr
  | rows : Repetition Expr
  | assignments : Repetition Assignment

/-- One round of a loop. -/
def Repetition.body {α : Type} : Repetition α → Rules → Parse (Option α)
  | segments => fun _ => identifier.segment?
  | steps min => fun r => step? r min
  | members => fun r => listed (expr r)
  | branches => branch?
  | fields => fun r => listed (field r)
  | orders => fun r => listed (order r)
  | joins => join?
  | unions => union?
  | columns => fun _ => listed (.ident <$> identifier)
  | rows => fun r => listed (row r)
  | assignments => fun r => listed (assignment r)

variable {α : Type} {n : Nat} {r r' : Rules} {c : Cursor}

theorem Construct.tracks (k : Construct α) (h : r.Tracks n r') :
    Parse.Tracks n (fun _ => True) (k.reader r) (k.reader r') c := by
  cases k with
  | query => exact h.query
  | select => exact h.select_succ.lower
  | insert => exact h.insert.lower
  | update => exact h.update.lower
  | delete => exact h.delete.lower
  | join => exact h.join.lower
  | table => exact h.table.lower
  | field => exact h.field
  | order => exact h.order
  | assignment => exact h.assignment
  | case => exact h.caseExpr.lower
  | call => exact h.call.lower
  | literal => exact tracks_literal
  | parameter => exact tracks_parameter
  | identifier => exact tracks_identifier
  | expr => exact h.flat

theorem Repetition.tracks (l : Repetition α) (h : r.Tracks n r') :
    Parse.Tracks n (·.isSome = true) (l.body r) (l.body r') c := by
  cases l with
  | segments => exact tracks_segment?
  | steps => exact h.step?.lower
  | members => exact .part .symbol? h.flat
  | branches => exact h.branch?
  | fields => exact .part .symbol? h.field
  | orders => exact .part .symbol? h.order
  | joins => exact h.join?.lower
  | unions => exact h.union?.lower
  | columns => exact .part .symbol? (.map tracks_identifier)
  | rows => exact .part .symbol? h.row
  | assignments => exact .part .symbol? h.assignment

/-- A construct does not depend on rules that lie as deep as there are tokens left. -/
theorem Construct.reader_iterate (k : Construct α) (hend : c.sentinel.kind = .endOfInput) {m : Nat}
    (hm : c.after.length < m) (r : Rules) : k.reader (Rules.around^[m] r) c = Parse.nested k.reader c := by
  have htracks := Rules.tracks_iterate (Rules.upTo 0) r (le_refl (c.after.length + 1)) hm
  rw [← Rules.upTo_eq_iterate] at htracks
  exact (k.tracks htracks hend (Nat.lt_succ_self _)).1

theorem Construct.leads_nested (k : Construct α) (hend : c.sentinel.kind = .endOfInput) :
    c.Leads (fun _ => True) (Parse.nested k.reader c) :=
  (k.tracks (Rules.tracks_upTo (le_refl (c.after.length + 1)) le_rfl) hend (Nat.lt_succ_self _)).2

/-- So it is for texts, whose tokens are finitely many. -/
theorem Construct.run_iterate (k : Construct α) (text : String) :
    ∃ n, ∀ m, n < m → ∀ r, Parse.run (k.reader (Rules.around^[m] r)) text = Parse.run (Parse.nested k.reader) text := by
  unfold Parse.run
  cases hc : Cursor.ofText text with
  | error e => exact ⟨0, fun _ _ _ => rfl⟩
  | ok c =>
    have hend : c.sentinel.kind = .endOfInput := by
      unfold Cursor.ofText at hc
      split at hc
      · cases hc
        rfl
      · cases hc
    refine ⟨c.after.length, fun m hm r => ?_⟩
    dsimp only
    rw [k.reader_iterate hend hm r]

/-- **Every construct is read forward, and reading ends.** From any place in any tokens, success leaves the cursor
further on in them, and failure not before that place. Whatever rules are called more levels down than tokens are
left, they are never asked; so it is on every text. And each loop, of the grammar or of the folding of what was read
flat, ends by itself. -/
theorem reading_ends {tokens : List Token} {p : Nat} (hp : p ≤ tokens.length) (size positional : Nat) :
    (∀ {α : Type} (k : Construct α),
        Cursor.Advances tokens size p (Parse.nested k.reader (.ofTokens tokens size positional p))
        ∧ (∀ m, tokens.length - p < m → ∀ r, k.reader (Rules.around^[m] r) (.ofTokens tokens size positional p)
          = Parse.nested k.reader (.ofTokens tokens size positional p))
        ∧ ∀ text, ∃ n, ∀ m, n < m → ∀ r,
          Parse.run (k.reader (Rules.around^[m] r)) text = Parse.run (Parse.nested k.reader) text)
    ∧ (∀ {α : Type} (l : Repetition α) m, tokens.length - p < m → ∀ r,
        Parse.Repeats (l.body (Rules.around^[m] r)) (.ofTokens tokens size positional p)
          (many (l.body (Rules.around^[m] r)) (.ofTokens tokens size positional p)))
    ∧ ∀ b level, Buffer.Sweeps level 0 b (b.foldLevel? level) := by
  rw [← Cursor.length_after_ofTokens tokens size positional p]
  refine ⟨fun k => ⟨(k.leads_nested rfl).advances hp, fun m hm r => k.reader_iterate rfl hm r, k.run_iterate⟩,
    fun l m hm r => ?_, fun b _ => b.sweeps_foldLevel?⟩
  exact Parse.repeats_many (l.tracks (Rules.tracks_iterate r r hm hm)) rfl (Nat.lt_succ_self _)

/-- In a list of fields that breaks off, the field is read, and the select fails at the end. -/
theorem reading_ends_comma :
    let tokens : List Token :=
      [⟨.symbol, "(", 0, 1⟩, ⟨.keyword, "SELECT", 1, 7⟩, ⟨.identifier, "a", 8, 9⟩, ⟨.symbol, ",", 9, 10⟩]
    (2 ≤ tokens.length
      ∧ Parse.nested Construct.field.reader (.ofTokens tokens 10 0 2) = .ok ⟨.name "a", none⟩ (.ofTokens tokens 10 0 3)
      ∧ Cursor.Advances tokens 10 2 (Parse.nested Construct.field.reader (.ofTokens tokens 10 0 2)))
    ∧ 1 ≤ tokens.length
      ∧ (∃ e, Parse.nested Construct.select.reader (.ofTokens tokens 10 0 1) = .error e (.ofTokens tokens 10 0 4))
      ∧ Cursor.Advances tokens 10 1 (Parse.nested Construct.select.reader (.ofTokens tokens 10 0 1)) := by
  intro tokens
  have hfield : 2 ≤ tokens.length := by decide
  have hselect : 1 ≤ tokens.length := by decide
  exact ⟨⟨hfield, rfl, ((reading_ends hfield 10 0).1 .field).1⟩,
    hselect, ⟨_, rfl⟩, ((reading_ends hselect 10 0).1 .select).1⟩

end Grammar

end EntitySql
