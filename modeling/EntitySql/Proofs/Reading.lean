import Mathlib
import EntitySql.Proofs.Reader
import EntitySql.Proofs.Signs

/-!
# Readers that succeed

`Cursor.At` says which signs stand ahead of a cursor, and that the markers among them continue the
numbers already taken. `Parse.Reads p xs a ys` says of a reader `p`: with the signs `xs` ahead it
succeeds with `a` and leaves `ys`. The rules follow the way readers are put together, and what a
reader looks at ahead of it depends on the signs only (`Sign.cursor`).

* `Reads.many`, `Reads.commaList`: repeated readers, from what one repetition reads.
-/

namespace EntitySql

/-! ## Numbered markers -/

/-- Markers as they are read, the next `?` being number `n`. -/
def Mark.Sequence : Nat → List Mark → Prop
  | _, [] => True
  | n, .anonymous m :: ms => m = { position := some n } ∧ Sequence (n + 1) ms
  | n, .named m :: ms => m = { name := m.name } ∧ Sequence n ms

theorem Token.sequence_marksFrom : ∀ (ts : List Token) (n : Nat), Mark.Sequence n (marksFrom n ts)
  | [], _ => trivial
  | t :: ts, n => by
    rw [marksFrom]
    split
    · split
      · exact ⟨rfl, sequence_marksFrom ts n⟩
      · exact ⟨rfl, sequence_marksFrom ts (n + 1)⟩
    · exact sequence_marksFrom ts n

/-! ## Signs ahead of a cursor -/

/-- The signs ahead of a cursor. -/
structure Cursor.At (c : Cursor) (ps : List Sign) : Prop where
  tokens : List.Forall₂ Sign.Of c.after ps
  marks : Mark.Sequence c.positional (Sign.marks ps)
  ending : c.sentinel.kind = .endOfInput

namespace Sign

/-- A token of the sign, at no particular place. -/
def token (p : Sign) : Token := ⟨p.kind, p.text, 0, 0⟩

/-- A cursor before the given signs. -/
def cursor (ps : List Sign) : Cursor := ⟨[], ps.map token, Token.atEnd 0, 0⟩

def isSymbol (p : Sign) (s : String) : Bool := p.token.isSymbol s

def isKeyword (p : Sign) (w : String) : Bool := p.token.isKeyword w

/-- What a reader finds next, if anything, satisfies `f`. -/
def Before (f : Sign → Bool) (ps : List Sign) : Prop := ∀ p, ps.head? = some p → f p = true

theorem Before.nil {f : Sign → Bool} : Before f [] := fun _ h => by cases h

theorem Before.cons {f : Sign → Bool} {p : Sign} {ps : List Sign} (h : f p = true) :
    Before f (p :: ps) := by
  rintro _ ⟨⟩
  exact h

theorem Before.append {f : Sign → Bool} {ps qs : List Sign} (hps : Before f ps) (hqs : Before f qs) :
    Before f (ps ++ qs) := by
  cases ps with
  | nil => exact hqs
  | cons p ps => exact .cons (hps p rfl)

theorem Before.mono {f g : Sign → Bool} {ps : List Sign} (h : Before f ps)
    (hfg : ∀ p, f p = true → g p = true) : Before g ps := fun p hp => hfg p (h p hp)

end Sign

open Sign

variable {c : Cursor} {ps : List Sign}

namespace Cursor

theorem startsWith_go_congr : ∀ (ph : Phrase) {ts : List Token} {ps : List Sign},
    List.Forall₂ Of ts ps → startsWith.go ph ts = startsWith.go ph (ps.map token)
  | [], _, _, _ => by simp only [startsWith.go]
  | w :: ws, _, _, .nil => rfl
  | w :: ws, _, _, .cons h hs => by
    simp only [startsWith.go, List.map_cons, startsWith_go_congr ws hs, Token.isKeyword, h.1, h.2, token]

theorem At.startsWith (h : c.At ps) (ph : Phrase) : c.startsWith ph = (cursor ps).startsWith ph :=
  startsWith_go_congr ph h.tokens

theorem At.current (h : c.At ps) :
    c.current.kind = (cursor ps).current.kind
      ∧ (c.current.kind ≠ .endOfInput → c.current.text = (cursor ps).current.text) := by
  have htokens := h.tokens
  unfold Cursor.current
  cases ps with
  | nil =>
    rw [List.forall₂_nil_right_iff.mp htokens]
    exact ⟨h.ending, fun hne => absurd h.ending hne⟩
  | cons p ps =>
    obtain ⟨t, ts, hp, -, hc⟩ := List.forall₂_cons_right_iff.mp htokens
    rw [hc]
    exact ⟨hp.1, fun _ => hp.2⟩

theorem At.isSymbol (h : c.At ps) (s : String) : c.isSymbol s = (cursor ps).isSymbol s := by
  obtain ⟨hkind, htext⟩ := h.current
  unfold Cursor.isSymbol Token.isSymbol
  by_cases hk : c.current.kind = .symbol
  · rw [htext (by rw [hk]; decide), hkind]
  · rw [← hkind, beq_false_of_ne hk, Bool.false_and, Bool.false_and]

theorem At.operator? (h : c.At ps) : c.operator? = (cursor ps).operator? := by
  obtain ⟨hkind, htext⟩ := h.current
  unfold Cursor.operator?
  rw [hkind]
  split
  · next hk => rw [htext (by rw [hkind, hk]; decide)]
  · simp only [h.startsWith]

theorem At.length (h : c.At ps) : c.after.length = ps.length := h.tokens.length_eq

/-- The token after the next. -/
theorem At.second {p q : Sign} (h : c.At (p :: q :: ps)) : ∃ t, c.peek? 1 = some t ∧ Of t q := by
  obtain ⟨t, ts, -, hts, hc⟩ := List.forall₂_cons_right_iff.mp h.tokens
  obtain ⟨u, us, hu, -, rfl⟩ := List.forall₂_cons_right_iff.mp hts
  exact ⟨u, by rw [Cursor.peek?, hc]; rfl, hu⟩

/-- Past a sign without a marker. -/
theorem At.next {p : Sign} (h : c.At (p :: ps)) (hp : p.mark = none) : c.next.At ps := by
  obtain ⟨t, ts, -, hts, hc⟩ := List.forall₂_cons_right_iff.mp h.tokens
  have hmarks := h.marks
  rw [Sign.marks, List.filterMap_cons_none hp] at hmarks
  unfold Cursor.next
  rw [hc]
  exact ⟨hts, hmarks, h.ending⟩

theorem jump_succ (c : Cursor) (n : Nat) : c.jump (n + 1) = c.next.jump n := by
  unfold jump Cursor.next
  cases h : c.after with
  | nil => cases c; simp_all
  | cons t ts => simp

theorem At.jump : ∀ {qs : List Sign} {c : Cursor}, c.At (qs ++ ps) → (∀ q ∈ qs, q.mark = none) →
    (c.jump qs.length).At ps
  | [], c, h, _ => by
    have : c.jump 0 = c := by simp [Cursor.jump]
    rw [List.length_nil, this]
    exact h
  | q :: qs, c, h, hq => by
    obtain ⟨hq, hqs⟩ := List.forall_mem_cons.mp hq
    rw [List.length_cons, jump_succ]
    exact At.jump (h.next hq) hqs

end Cursor

namespace Parse

variable {α β : Type} {xs ys zs : List Sign} {a : α} {b : β}

/-- The reader succeeds at the cursor with `a` and leaves the signs `ys`. -/
def ReadsAt (c : Cursor) (p : Parse α) (a : α) (ys : List Sign) : Prop :=
  ∃ d, p c = .ok a d ∧ d.At ys

/-- The reader succeeds on the signs `xs` with `a` and leaves `ys`. -/
def Reads (p : Parse α) (xs : List Sign) (a : α) (ys : List Sign) : Prop :=
  ∀ c : Cursor, c.At xs → ReadsAt c p a ys

/-! ## The rules -/

theorem Reads.pure : Reads (pure a) xs a xs := fun c hc => ⟨c, rfl, hc⟩

theorem Reads.bind {p : Parse α} {f : α → Parse β} (hp : Reads p xs a ys) (hf : Reads (f a) ys b zs) :
    Reads (p >>= f) xs b zs := by
  intro c hc
  obtain ⟨d, hpa, hd⟩ := hp c hc
  obtain ⟨e, hfb, he⟩ := hf d hd
  exact ⟨e, Outcome.read_bind_eq_ok.mpr ⟨a, d, hpa, hfb⟩, he⟩

theorem Reads.map {p : Parse α} {f : α → β} (hp : Reads p xs a ys) : Reads (f <$> p) xs (f a) ys := by
  intro c hc
  obtain ⟨d, hpa, hd⟩ := hp c hc
  exact ⟨d, Outcome.read_map_eq_ok.mpr ⟨a, hpa, rfl⟩, hd⟩

/-- A reader that looks at its cursor first. -/
theorem Reads.get {f : Cursor → Parse α} (h : ∀ c, c.At xs → ReadsAt c (f c) a ys) :
    Reads (get >>= f) xs a ys := h

theorem ReadsAt.of {p : Parse α} (hc : c.At xs) (h : Reads p xs a ys) : ReadsAt c p a ys := h c hc

/-! ## Readers of single tokens -/

theorem Reads.symbol (s : String) : Reads (symbol s) (.symbol s :: xs) () xs := by
  intro c hc
  have hs : c.isSymbol s = true := by
    rw [hc.isSymbol]
    exact beq_self_eq_true s
  exact ⟨c.next, if_pos hs, hc.next rfl⟩

theorem Reads.symbol? (s : String) : Reads (symbol? s) (.symbol s :: xs) true xs := by
  intro c hc
  have hs : c.isSymbol s = true := by
    rw [hc.isSymbol]
    exact beq_self_eq_true s
  exact ⟨c.next, if_pos hs, hc.next rfl⟩

theorem isSymbol_cursor {s : String} (h : Before (fun p => !p.isSymbol s) xs) :
    (cursor xs).isSymbol s = false := by
  cases xs with
  | nil => rfl
  | cons p ps =>
    have hp : p.isSymbol s = false := by simpa using h p rfl
    exact hp

theorem startsWith_cursor {w : String} {ws : Phrase} (h : Before (fun p => !p.isKeyword w) xs) :
    (cursor xs).startsWith (w :: ws) = false := by
  cases xs with
  | nil => rfl
  | cons p ps =>
    have hp : p.isKeyword w = false := by simpa using h p rfl
    exact Bool.and_eq_false_iff.mpr (.inl hp)

theorem At.no_phrase {w : String} {v : Phrase} (hc : c.At xs)
    (h : Before (fun p => !p.isKeyword w) xs) : ¬ c.startsWith (w :: v) = true := by
  rw [hc.startsWith, startsWith_cursor h]
  exact Bool.false_ne_true

theorem At.no_symbol {s : String} (hc : c.At xs) (h : Before (fun p => !p.isSymbol s) xs) :
    ¬ c.isSymbol s = true := by
  rw [hc.isSymbol, isSymbol_cursor h]
  exact Bool.false_ne_true

theorem Reads.no_symbol {s : String} (h : Before (fun p => !p.isSymbol s) xs) :
    Reads (Parse.symbol? s) xs false xs :=
  fun c hc => ⟨c, if_neg (At.no_symbol hc h), hc⟩

/-- The words of a phrase are the next tokens. -/
theorem startsWith_phrase (ph : Phrase) : (cursor (Sign.phrase ph ++ xs)).startsWith ph = true := by
  induction ph with
  | nil => simp only [Cursor.startsWith, Cursor.startsWith.go]
  | cons w ws ih => exact Bool.and_eq_true_iff.mpr ⟨beq_self_eq_true _, ih⟩

theorem At.jump_phrase {ph : Phrase} (hc : c.At (Sign.phrase ph ++ xs)) :
    (c.jump ph.length).At xs := by
  have hquiet : ∀ q ∈ Sign.phrase ph, q.mark = none := by
    intro q hq
    obtain ⟨w, -, rfl⟩ := List.mem_map.mp hq
    rfl
  have hjump := hc.jump hquiet
  rwa [Sign.phrase, List.length_map] at hjump

theorem Reads.phrase (ph : Phrase) (reason : String) :
    Reads (phrase ph reason) (Sign.phrase ph ++ xs) () xs := by
  intro c hc
  have hs : c.startsWith ph = true := by rw [hc.startsWith, startsWith_phrase]
  exact ⟨c.jump ph.length, if_pos hs, At.jump_phrase hc⟩

theorem Reads.phrase? (ph : Phrase) : Reads (phrase? ph) (Sign.phrase ph ++ xs) true xs := by
  intro c hc
  have hs : c.startsWith ph = true := by rw [hc.startsWith, startsWith_phrase]
  exact ⟨c.jump ph.length, if_pos hs, At.jump_phrase hc⟩

theorem Reads.no_phrase {ph : Phrase} (h : (cursor xs).startsWith ph = false) :
    Reads (Parse.phrase? ph) xs false xs := by
  intro c hc
  have hs : ¬ c.startsWith ph = true := by
    rw [hc.startsWith, h]
    exact Bool.false_ne_true
  exact ⟨c, if_neg hs, hc⟩

theorem Reads.identifier (s reason : String) : Reads (identifier reason) (.name s :: xs) s xs := by
  intro c hc
  obtain ⟨hkind, htext⟩ := hc.current
  have hk : c.current.kind = .identifier := hkind
  refine ⟨c.next, ?_, hc.next rfl⟩
  rw [Parse.identifier, if_pos hk, htext (by rw [hk]; decide)]
  rfl

/-- A jump over signs without markers. -/
theorem Reads.jump {qs : List Sign} (h : ∀ q ∈ qs, q.mark = none) :
    Reads (jump qs.length) (qs ++ xs) () xs := fun c hc => ⟨c.jump qs.length, rfl, hc.jump h⟩

/-! ## Repetition -/

/-- The readings of a repeated reader, until it finds nothing. -/
inductive Items (p : Parse (Option α)) : List Sign → List α → List Sign → Prop
  | nil {xs : List Sign} : Reads p xs none xs → Items p xs [] xs
  | cons {xs ys zs : List Sign} {a : α} {as : List α} : Reads p xs (some a) ys →
    ys.length < xs.length → Items p ys as zs → Items p xs (a :: as) zs

theorem Items.manyUpTo {p : Parse (Option α)} {xs zs : List Sign} {as : List α}
    (h : Items p xs as zs) : ∀ {n : Nat}, xs.length < n → Reads (manyUpTo p n) xs as zs := by
  induction h with
  | nil hp =>
    intro n hn
    obtain ⟨m, rfl⟩ := Nat.exists_eq_add_of_lt hn
    exact hp.bind .pure
  | cons hp hlt _ ih =>
    intro n hn
    obtain ⟨m, rfl⟩ : ∃ m, n = m + 1 := ⟨n - 1, by omega⟩
    exact hp.bind ((ih (by omega)).bind .pure)

theorem Reads.many {p : Parse (Option α)} {as : List α} (h : Items p xs as zs) :
    Reads (many p) xs as zs :=
  .get fun c hc => h.manyUpTo (by rw [hc.tokens.length_eq]; omega) c hc

/-- Further items, each after a comma. -/
theorem Items.commas {p : Parse α} {f : α → List Sign} {g : Sign → Bool} {rest : List Sign}
    (hcomma : g (.symbol ",") = true) (hrest : Before g rest)
    (hno : Before (fun p => !p.isSymbol ",") rest) :
    ∀ {as : List α}, (∀ a ∈ as, ∀ ys, Before g ys → Reads p (f a ++ ys) a ys) →
    Before g ((as.map f).flatMap (fun qs => .symbol "," :: qs) ++ rest)
      ∧ Items (do if ← Parse.symbol? "," then some <$> p else Pure.pure none)
        ((as.map f).flatMap (fun qs => .symbol "," :: qs) ++ rest) as rest
  | [], _ => ⟨hrest, .nil ((Reads.no_symbol hno).bind .pure)⟩
  | a :: as, h => by
    obtain ⟨ha, has⟩ := List.forall_mem_cons.mp h
    obtain ⟨hnext, hitems⟩ := Items.commas hcomma hrest hno has
    rw [List.map_cons, List.flatMap_cons, List.cons_append, List.cons_append, List.append_assoc]
    refine ⟨.cons hcomma, .cons ((Reads.symbol? ",").bind (ha _ hnext).map) ?_ hitems⟩
    simp only [List.length_cons, List.length_append]
    omega

theorem Reads.commaList {p : Parse α} {f : α → List Sign} {g : Sign → Bool} {rest : List Sign}
    {as : List α} (hne : as ≠ []) (hp : ∀ a ∈ as, ∀ ys, Before g ys → Reads p (f a ++ ys) a ys)
    (hcomma : g (.symbol ",") = true) (hrest : Before g rest)
    (hno : Before (fun p => !p.isSymbol ",") rest) :
    Reads (commaList p) (commas (as.map f) ++ rest) as rest := by
  obtain ⟨a, as, rfl⟩ := List.exists_cons_of_ne_nil hne
  obtain ⟨ha, has⟩ := List.forall_mem_cons.mp hp
  obtain ⟨hnext, hitems⟩ := Items.commas hcomma hrest hno has
  rw [List.map_cons, Sign.commas, List.append_assoc]
  exact (ha _ hnext).bind ((Reads.many hitems).bind .pure)

/-- The reader after a phrase that is there. -/
theorem Reads.after? {w : Phrase} {p : Parse α} (hp : Reads p xs a ys) :
    Reads (after? w p) (Sign.phrase w ++ xs) (some a) ys :=
  (Reads.phrase? w).bind hp.map

theorem Reads.no_after {ph : Phrase} {p : Parse α} (h : (cursor xs).startsWith ph = false) :
    Reads (Parse.after? ph p) xs none xs :=
  (Reads.no_phrase h).bind .pure

end Parse

end EntitySql
