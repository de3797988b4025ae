import Mathlib
import EntitySql.Cursor
import EntitySql.Proofs.Collector
import EntitySql.Proofs.Outcome

/-!
# What readers take from the tokens

`Cursor.Moves` relates two cursors by the tokens read between them. `Parse.Yields P p Q` says of a
reader `p`: where all tokens ahead satisfy `P` and `p` succeeds, it has moved the cursor, and `Q`
holds of the markers among the tokens it read and of its result. The rules follow the way readers are
put together (`Yields.bind`, `Yields.many`, …), so that a statement about a construct of the grammar
needs no mention of cursors.

* `Token.marksFrom`: the markers that tokens write, each `?` with its number.
-/

namespace EntitySql

/-! ## Markers among tokens -/

/-- Whether a token is a marker without a name. -/
def Token.isPositional (t : Token) : Bool :=
  t.kind == .parameter && match t.text.toList with
    | ':' :: _ => false
    | _ => true

/-- The markers that tokens write, the next `?` being number `n`. -/
def Token.marksFrom (n : Nat) : List Token → List Mark
  | [] => []
  | t :: ts =>
    if t.kind = .parameter then
      match t.text.toList with
      | ':' :: name => .named { name := String.ofList name } :: marksFrom n ts
      | _ => .anonymous { position := some n } :: marksFrom (n + 1) ts
    else marksFrom n ts

namespace Token

theorem marksFrom_append : ∀ (us vs : List Token) (n : Nat),
    marksFrom n (us ++ vs) = marksFrom n us ++ marksFrom (n + us.countP isPositional) vs
  | [], vs, n => by simp [marksFrom]
  | t :: us, vs, n => by
    by_cases hk : t.kind = .parameter
    · simp only [List.cons_append, marksFrom, if_pos hk]
      split
      · next hn =>
        have ht : t.isPositional = false := by simp [isPositional, hn]
        rw [marksFrom_append us vs n, List.countP_cons_of_neg (by simp [ht]), List.cons_append]
      · next hn =>
        have ht : t.isPositional = true := by
          unfold isPositional
          rw [hk]
          split
          · exact absurd ‹_› (hn _)
          · rfl
        rw [marksFrom_append us vs (n + 1), List.countP_cons_of_pos ht, List.cons_append]
        congr 3
        omega
    · have ht : t.isPositional = false := by simp [isPositional, hk]
      simp only [List.cons_append, marksFrom, if_neg hk]
      rw [marksFrom_append us vs n, List.countP_cons_of_neg (by simp [ht])]

/-- The markers of a text have no ordinal yet. -/
theorem marksFrom_fresh : ∀ (ts : List Token) (n : Nat), ∀ m ∈ marksFrom n ts, m.ordinal? = none
  | [], _ => nofun
  | t :: ts, n => by
    rw [marksFrom]
    split
    · split
      · exact List.forall_mem_cons.mpr ⟨rfl, marksFrom_fresh ts n⟩
      · exact List.forall_mem_cons.mpr ⟨rfl, marksFrom_fresh ts (n + 1)⟩
    · exact marksFrom_fresh ts n

/-- Tokens that hold no marker. -/
def Quiet (ts : List Token) : Prop := ∀ t ∈ ts, t.kind ≠ .parameter

theorem Quiet.marksFrom {ts : List Token} (h : Quiet ts) (n : Nat) : marksFrom n ts = [] := by
  induction ts with
  | nil => rfl
  | cons t ts ih =>
    rw [Token.marksFrom, if_neg (h t List.mem_cons_self)]
    exact ih fun u hu => h u (List.mem_cons_of_mem _ hu)

theorem Quiet.countP {ts : List Token} (h : Quiet ts) : ts.countP isPositional = 0 := by
  rw [List.countP_eq_zero]
  intro t ht
  simp [isPositional, h t ht]

end Token

/-! ## Moving a cursor -/

/-- The second cursor stands `used` tokens after the first, with the numbers of their `?` taken. -/
structure Cursor.Moves (c : Cursor) (used : List Token) (d : Cursor) : Prop where
  before : d.before = used.reverse ++ c.before
  after : c.after = used ++ d.after
  sentinel : d.sentinel = c.sentinel
  positional : d.positional = c.positional + used.countP Token.isPositional

namespace Cursor

theorem Moves.refl (c : Cursor) : c.Moves [] c := ⟨rfl, rfl, rfl, rfl⟩

theorem Moves.trans {c d e : Cursor} {us vs : List Token} (h : c.Moves us d) (g : d.Moves vs e) :
    c.Moves (us ++ vs) e where
  before := by rw [g.before, h.before, List.reverse_append, List.append_assoc]
  after := by rw [h.after, g.after, List.append_assoc]
  sentinel := g.sentinel.trans h.sentinel
  positional := by rw [g.positional, h.positional, List.countP_append, Nat.add_assoc]

/-- All tokens ahead satisfy `P`, and the end shows as such. -/
structure Ready (P : Token → Prop) (c : Cursor) : Prop where
  ahead : ∀ t ∈ c.after, P t
  ending : c.sentinel.kind = .endOfInput

theorem Moves.ready {P : Token → Prop} {c d : Cursor} {us : List Token} (h : c.Moves us d)
    (hc : c.Ready P) : d.Ready P where
  ahead t ht := hc.ahead t (by rw [h.after]; exact List.mem_append_right us ht)
  ending := by rw [h.sentinel]; exact hc.ending

/-- A jump over tokens without markers. -/
theorem moves_jump {c : Cursor} {n : Nat} (h : Token.Quiet (c.after.take n)) :
    c.Moves (c.after.take n) (c.jump n) where
  before := rfl
  after := (List.take_append_drop n c.after).symm
  sentinel := rfl
  positional := by rw [h.countP]; rfl

theorem next_eq_jump (c : Cursor) : c.next = c.jump 1 := by
  unfold next jump
  cases h : c.after with
  | nil => cases c; simp_all
  | cons t ts => simp

/-- The current token is the next one, or there is none. -/
theorem current_cases (c : Cursor) :
    (c.after = [] ∧ c.current = c.sentinel) ∨ ∃ ts, c.after = c.current :: ts := by
  unfold current
  cases c.after with
  | nil => exact .inl ⟨rfl, rfl⟩
  | cons t ts => exact .inr ⟨ts, rfl⟩

/-- A current token that is not the end is the next one. -/
theorem Ready.current {P : Token → Prop} {c : Cursor} (h : c.Ready P)
    (hk : c.current.kind ≠ .endOfInput) : P c.current ∧ ∃ ts, c.after = c.current :: ts := by
  rcases c.current_cases with ⟨-, hs⟩ | ⟨ts, ha⟩
  · exact absurd (hs ▸ h.ending) hk
  · exact ⟨h.ahead _ (by rw [ha]; exact List.mem_cons_self), ts, ha⟩

theorem startsWith_keywords {c : Cursor} {ph : Phrase} (h : c.startsWith ph = true) :
    ∀ t ∈ c.after.take ph.length, t.kind = .keyword := by
  unfold startsWith at h
  generalize c.after = ts at h ⊢
  induction ph generalizing ts with
  | nil => simp
  | cons w ws ih =>
    cases ts with
    | nil => simp
    | cons t ts =>
      simp only [startsWith.go, Bool.and_eq_true, Token.isKeyword, beq_iff_eq] at h
      intro u hu
      rcases List.mem_cons.mp hu with rfl | hu
      · exact h.1.1
      · exact ih ts h.2 u hu

theorem startsWith_quiet {c : Cursor} {ph : Phrase} (h : c.startsWith ph = true) :
    Token.Quiet (c.after.take ph.length) := by
  intro t ht
  rw [startsWith_keywords h t ht]
  decide

/-- A single token that is no marker. -/
theorem quiet_current {c : Cursor} (h : c.current.kind ≠ .parameter) :
    Token.Quiet (c.after.take 1) := by
  rcases c.current_cases with ⟨ha, -⟩ | ⟨ts, ha⟩
  · simp [ha, Token.Quiet]
  · rw [ha]
    simpa [Token.Quiet] using h

end Cursor

namespace Parse

variable {α β : Type} {P : Token → Prop}

/-- What a success of `p` at the cursor `c` says of the markers that were read and of the result. -/
def YieldsAt (P : Token → Prop) (c : Cursor) (p : Parse α) (Q : List Mark → α → Prop) : Prop :=
  c.Ready P → ∀ a d, p c = .ok a d →
    ∃ used, c.Moves used d ∧ Q (Token.marksFrom c.positional used) a

/-- What each success of `p` says of the markers that were read and of the result. -/
def Yields (P : Token → Prop) (p : Parse α) (Q : List Mark → α → Prop) : Prop :=
  ∀ c, YieldsAt P c p Q

/-! ## The rules -/

variable {c : Cursor} {p : Parse α} {Q : List Mark → α → Prop}

theorem YieldsAt.mono {R : List Mark → α → Prop}
    (h : YieldsAt P c p Q) (hQR : ∀ m a, Q m a → R m a) : YieldsAt P c p R := by
  intro hP a d hp
  obtain ⟨used, hm, hq⟩ := h hP a d hp
  exact ⟨used, hm, hQR _ _ hq⟩

/-- The tokens ahead may be assumed to be as they should. -/
theorem YieldsAt.ready (h : c.Ready P → YieldsAt P c p Q) : YieldsAt P c p Q := fun hc => h hc hc

theorem Yields.mono {R : List Mark → α → Prop} (h : Yields P p Q)
    (hQR : ∀ m a, Q m a → R m a) : Yields P p R := fun c => (h c).mono hQR

theorem YieldsAt.pure {a : α} (h : Q [] a) : YieldsAt P c (pure a) Q := by
  intro _ b d hb
  cases hb
  exact ⟨[], .refl c, h⟩

theorem Yields.pure {a : α} (h : Q [] a) : Yields P (pure a) Q :=
  fun _ => .pure h

theorem Yields.fail {reason : String} : Yields P (fail reason) Q :=
  fun _ _ _ _ h => nomatch h

theorem YieldsAt.bind {f : α → Parse β} {R : List Mark → β → Prop} (hp : YieldsAt P c p Q)
    (hf : ∀ m a, Q m a → Yields P (f a) fun n b => R (m ++ n) b) : YieldsAt P c (p >>= f) R := by
  intro hP b e h
  obtain ⟨a, d, hpa, hfb⟩ := Outcome.read_bind_eq_ok.mp h
  obtain ⟨us, hus, hq⟩ := hp hP a d hpa
  obtain ⟨vs, hvs, hr⟩ := hf _ a hq d (hus.ready hP) b e hfb
  refine ⟨us ++ vs, hus.trans hvs, ?_⟩
  rw [Token.marksFrom_append, ← hus.positional]
  exact hr

theorem Yields.bind {f : α → Parse β} {R : List Mark → β → Prop} (hp : Yields P p Q)
    (hf : ∀ m a, Q m a → Yields P (f a) fun n b => R (m ++ n) b) : Yields P (p >>= f) R :=
  fun c => (hp c).bind hf

theorem Yields.map {f : α → β} {Q : List Mark → β → Prop}
    (hp : Yields P p fun m a => Q m (f a)) : Yields P (f <$> p) Q := by
  intro c hP b d h
  obtain ⟨a, hpa, rfl⟩ := Outcome.read_map_eq_ok.mp h
  exact hp c hP a d hpa

/-- A reader that looks at its cursor first. -/
theorem Yields.get {f : Cursor → Parse α}
    (h : ∀ c, YieldsAt P c (f c) Q) : Yields P (get >>= f) Q := fun c => h c

theorem YieldsAt.ite {b : Prop} [Decidable b] {p q : Parse α}
    (hp : b → YieldsAt P c p Q) (hq : ¬ b → YieldsAt P c q Q) : YieldsAt P c (if b then p else q) Q := by
  split
  · exact hp ‹_›
  · exact hq ‹_›

theorem Yields.ite {b : Prop} [Decidable b] {p q : Parse α}
    (hp : b → Yields P p Q) (hq : ¬ b → Yields P q Q) : Yields P (if b then p else q) Q :=
  fun c => .ite (fun h => hp h c) fun h => hq h c

/-! ## Readers of single tokens -/

/-- A reader that takes tokens without markers. -/
abbrev Silent (P : Token → Prop) (p : Parse α) : Prop := Yields P p fun m _ => m = []

theorem silent_jump {c d : Cursor} {n : Nat} (h : Token.Quiet (c.after.take n)) (hd : d = c.jump n) :
    ∃ used, c.Moves used d ∧ Token.marksFrom c.positional used = [] :=
  ⟨_, hd ▸ Cursor.moves_jump h, h.marksFrom _⟩

theorem quiet_symbol {s : String} (h : c.isSymbol s = true) : Token.Quiet (c.after.take 1) := by
  refine Cursor.quiet_current fun hk => ?_
  simp [Cursor.isSymbol, Token.isSymbol, hk] at h

theorem silent_symbol? (s : String) : Silent P (symbol? s) := by
  intro c _ b d h
  unfold symbol? at h
  split at h
  · next hs =>
    cases h
    exact silent_jump (quiet_symbol hs) c.next_eq_jump
  · cases h
    exact ⟨[], .refl c, rfl⟩

theorem silent_symbol (s : String) : Silent P (symbol s) := by
  intro c _ b d h
  unfold symbol at h
  split at h
  · next hs =>
    cases h
    exact silent_jump (quiet_symbol hs) c.next_eq_jump
  · cases h

theorem silent_phrase? (ph : Phrase) : Silent P (phrase? ph) := by
  intro c _ b d h
  unfold phrase? at h
  split at h
  · next hs =>
    cases h
    exact silent_jump (Cursor.startsWith_quiet hs) rfl
  · cases h
    exact ⟨[], .refl c, rfl⟩

theorem silent_phrase (ph : Phrase) (reason : String) : Silent P (phrase ph reason) := by
  intro c _ b d h
  unfold phrase at h
  split at h
  · next hs =>
    cases h
    exact silent_jump (Cursor.startsWith_quiet hs) rfl
  · cases h

theorem YieldsAt.jump {n : Nat} (h : Token.Quiet (c.after.take n)) :
    YieldsAt P c (jump n) fun m _ => m = [] := by
  intro _ _ d hd
  cases hd
  exact silent_jump h rfl

theorem YieldsAt.next (h : c.current.kind ≠ .parameter) : YieldsAt P c next fun m _ => m = [] := by
  intro _ _ d hd
  cases hd
  exact silent_jump (Cursor.quiet_current h) c.next_eq_jump

theorem yields_identifier (reason : String) : Yields P (identifier reason) fun m s =>
    m = [] ∧ ∃ t, P t ∧ t.kind = .identifier ∧ t.text = s := by
  intro c hc s d h
  unfold identifier at h
  split at h
  · next hk =>
    cases h
    obtain ⟨used, hm, hq⟩ :=
      silent_jump (Cursor.quiet_current (by rw [hk]; decide)) c.next_eq_jump
    exact ⟨used, hm, hq, _, (hc.current (by rw [hk]; decide)).1, hk, rfl⟩
  · cases h

/-! ## Repetition -/

/-- Results in a row, each with the markers that were read for it. -/
def Each (Q : List Mark → α → Prop) : List Mark → List α → Prop
  | m, [] => m = []
  | m, a :: as => ∃ m₁ m₂, m = m₁ ++ m₂ ∧ Q m₁ a ∧ Each Q m₂ as

/-- What a reader says that may find nothing. -/
def Found (Q : List Mark → α → Prop) (m : List Mark) : Option α → Prop
  | none => m = []
  | some a => Q m a

theorem yields_manyUpTo {p : Parse (Option α)} {Q : List Mark → α → Prop}
    (h : Yields P p (Found Q)) : ∀ n, Yields P (manyUpTo p n) (Each Q)
  | 0 => .pure rfl
  | n + 1 => by
    refine .bind h fun m o ho => ?_
    cases o with
    | none => exact .pure (by rw [List.append_nil]; exact ho)
    | some a =>
      refine .bind (yields_manyUpTo h n) fun m' as has => .pure ?_
      exact ⟨m, m', by rw [List.append_nil], ho, has⟩

theorem Yields.many {p : Parse (Option α)} (h : Yields P p (Found Q)) :
    Yields P (many p) (Each Q) := .get fun c => yields_manyUpTo h _ c

/-- What is read where something silent was found before it. -/
theorem Yields.when {b : Parse Bool} (hb : Silent P b) (hp : Yields P p Q) :
    Yields P (do if ← b then some <$> p else Pure.pure none) (Found Q) := by
  refine .bind hb fun m c hm => ?_
  subst hm
  exact .ite (fun _ => .map hp) fun _ => .pure rfl

theorem Yields.commaList (h : Yields P p Q) : Yields P (commaList p) fun m as => as ≠ [] ∧ Each Q m as := by
  refine .bind h fun m a ha => .bind (.many (.when (silent_symbol? ",") h)) fun m' as has => .pure ?_
  exact ⟨List.cons_ne_nil _ _, m, m', by rw [List.append_nil], ha, has⟩

theorem Yields.after? {ph : Phrase} (h : Yields P p Q) :
    Yields P (after? ph p) (Found Q) := .when (silent_phrase? ph) h

end Parse

end EntitySql
