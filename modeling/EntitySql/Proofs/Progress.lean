import Mathlib
import EntitySql.Grammar.Rules
import EntitySql.Proofs.Reader
import EntitySql.Proofs.Tiling

/-!
# Progress of readers

A reader moves its cursor forward only, and where it fails it names a token of the text, or the end of it.
Constructs that contain each other are read with rules of some depth, which does not matter as long as fewer
tokens are left. `Parse.Tracks n K p p'` says all of this of a reader with two such depths. Its rules follow
the way readers are put together; a token that was read makes the rest one level shallower.

* `Rules.tracks_iterate`: rules of two depths read alike, and with progress.
* **`Query.ofText_error`**: what is wrong with a text has a place in it.
-/

namespace EntitySql

/-! ## Moving forward -/

/-- The second cursor is at the same place in the same tokens, or further on. -/
structure Cursor.Reaches (c d : Cursor) : Prop where
  tokens : d.tokens = c.tokens
  sentinel : d.sentinel = c.sentinel
  position : c.position ≤ d.position

/-- The token is one of the text, or stands after the last. -/
def Cursor.Shows (c : Cursor) (t : Token) : Prop := t ∈ c.tokens ∨ t = c.sentinel

namespace Cursor

theorem Reaches.refl (c : Cursor) : c.Reaches c := ⟨rfl, rfl, le_rfl⟩

theorem Reaches.trans {c d e : Cursor} (h : c.Reaches d) (g : d.Reaches e) : c.Reaches e :=
  ⟨g.tokens.trans h.tokens, g.sentinel.trans h.sentinel, h.position.trans g.position⟩

theorem Reaches.shows {c d : Cursor} (h : c.Reaches d) {t : Token} (ht : d.Shows t) : c.Shows t := by
  rwa [Shows, h.tokens, h.sentinel] at ht

/-- What has been read is no longer left. -/
theorem Reaches.length_eq {c d : Cursor} (h : c.Reaches d) :
    d.position + d.after.length = c.position + c.after.length := by
  simpa [Cursor.tokens, Cursor.position] using congrArg List.length h.tokens

theorem reaches_jump (c : Cursor) (n : Nat) : c.Reaches (c.jump n) where
  tokens := by simp [tokens, jump]
  sentinel := rfl
  position := by simp [position, jump]

theorem lt_position_jump {c : Cursor} (h : c.after ≠ []) (n : Nat) : c.position < (c.jump (n + 1)).position := by
  have hlength := List.length_pos_iff.mpr h
  simp only [position, jump, List.length_append, List.length_reverse, List.length_take]
  omega

theorem shows_current (c : Cursor) : c.Shows c.current := by
  rcases c.current_cases with ⟨-, hs⟩ | ⟨ts, ha⟩
  · exact .inr hs
  · exact .inl (List.mem_append_right _ (by rw [ha]; exact List.mem_cons_self))

/-- Only the end looks like the end. -/
theorem after_ne_nil {c : Cursor} (hc : c.sentinel.kind = .endOfInput) (h : c.current.kind ≠ .endOfInput) :
    c.after ≠ [] := by
  rcases c.current_cases with ⟨-, hs⟩ | ⟨ts, ha⟩
  · exact absurd (hs ▸ hc) h
  · rw [ha]
    exact List.cons_ne_nil _ _

theorem after_ne_nil_of_isSymbol {c : Cursor} (hc : c.sentinel.kind = .endOfInput) {s : String}
    (h : c.isSymbol s = true) : c.after ≠ [] := by
  refine after_ne_nil hc fun hk => ?_
  simp [isSymbol, Token.isSymbol, hk] at h

theorem after_ne_nil_of_startsWith {c : Cursor} {w : String} {ws : Phrase} (h : c.startsWith (w :: ws) = true) :
    c.after ≠ [] := by
  intro ha
  rw [startsWith, ha] at h
  cases h

/-- How a run that starts at a cursor may end: it has read a token where its result satisfies `K`, or it fails
at a token. -/
def Leads {α : Type} (c : Cursor) (K : α → Prop) : EStateM.Result ParseError Cursor α → Prop
  | .ok a d => c.Reaches d ∧ (K a → c.position < d.position)
  | .error e d => c.Reaches d ∧ c.Shows e.token

theorem leads_refl {α : Type} {K : α → Prop} {c : Cursor} {a : α} (h : ¬ K a) : c.Leads K (.ok a c) :=
  ⟨.refl c, fun ha => (h ha).elim⟩

theorem leads_error {α : Type} {K : α → Prop} (c : Cursor) (reason : String) :
    c.Leads K (.error (c.error reason) c) := ⟨.refl c, c.shows_current⟩

theorem leads_jump {α : Type} {K : α → Prop} {c : Cursor} {a : α} {k : Nat} (h : c.after ≠ []) (hk : 0 < k) :
    c.Leads K (.ok a (c.jump k)) := by
  obtain ⟨k, rfl⟩ := Nat.exists_eq_add_one.mpr hk
  exact ⟨c.reaches_jump _, fun _ => lt_position_jump h k⟩

theorem leads_next {α : Type} {K : α → Prop} {c : Cursor} {a : α} (h : c.after ≠ []) :
    c.Leads K (.ok a c.next) := c.next_eq_jump ▸ leads_jump h Nat.one_pos

end Cursor

namespace Parse

variable {α β : Type} {n : Nat} {K : α → Prop} {J : β → Prop} {c : Cursor}

/-- Where fewer than `n` tokens are left, both readers do the same, and make progress. -/
def Tracks (n : Nat) (K : α → Prop) (p p' : Parse α) (c : Cursor) : Prop :=
  c.sentinel.kind = .endOfInput → c.after.length < n → p' c = p c ∧ c.Leads K (p c)

/-! ## The rules -/

namespace Tracks

variable {p p' : Parse α} {f f' : α → Parse β}

theorem zero : Tracks 0 K p p' c := fun _ hn => absurd hn (Nat.not_lt_zero _)

theorem lower (h : Tracks (n + 1) K p p' c) : Tracks n K p p' c :=
  fun hend hn => h hend (hn.trans (Nat.lt_succ_self n))

/-- A token was read, whatever that is needed for. -/
theorem weak (h : Tracks n (fun _ => True) p p' c) : Tracks n K p p' c := by
  intro hend hn
  obtain ⟨heq, hleads⟩ := h hend hn
  refine ⟨heq, ?_⟩
  cases hp : p c with
  | ok a d =>
    rw [hp] at hleads
    exact ⟨hleads.1, fun _ => hleads.2 trivial⟩
  | error e d => rwa [hp] at hleads

theorem pure {a : α} : Tracks n (fun _ => False) (pure a) (pure a) c :=
  fun _ _ => ⟨rfl, Cursor.leads_refl not_false⟩

theorem none : Tracks n (·.isSome = true) (Pure.pure (Option.none : Option α)) (Pure.pure Option.none) c :=
  fun _ _ => ⟨rfl, Cursor.leads_refl Bool.false_ne_true⟩

theorem fail {reason : String} : Tracks n K (fail reason) (fail reason) c :=
  fun _ _ => ⟨rfl, c.leads_error reason⟩

theorem get {f f' : Cursor → Parse α} (h : Tracks n K (f c) (f' c) c) : Tracks n K (get >>= f) (get >>= f') c := h

theorem ite {b : Prop} [Decidable b] {p p' q q' : Parse α} (hp : b → Tracks n K p p' c)
    (hq : ¬ b → Tracks n K q q' c) : Tracks n K (if b then p else q) (if b then p' else q') c := by
  split
  · exact hp ‹_›
  · exact hq ‹_›

theorem map {f : α → β} (h : Tracks n (fun _ => True) p p' c) : Tracks n J (f <$> p) (f <$> p') c := by
  intro hend hn
  obtain ⟨heq, hleads⟩ := h hend hn
  change EStateM.map f p' c = EStateM.map f p c ∧ c.Leads J (EStateM.map f p c)
  unfold EStateM.map
  rw [heq]
  cases hp : p c with
  | ok a d =>
    rw [hp] at hleads
    exact ⟨rfl, hleads.1, fun _ => hleads.2 trivial⟩
  | error e d => exact ⟨rfl, by rwa [hp] at hleads⟩

/-- The rest is to be tracked where the first step ends. It need not read a token if that step has. -/
theorem link (hp : Tracks n K p p' c)
    (hf : ∀ {a d}, c.after.length < n → c.Reaches d → (K a → c.position < d.position) →
      ∃ m I, d.after.length < m ∧ Tracks m I (f a) (f' a) d ∧ ∀ b, J b → I b ∨ c.position < d.position) :
    Tracks n J (p >>= f) (p' >>= f') c := by
  intro hend hn
  obtain ⟨heq, hleads⟩ := hp hend hn
  change EStateM.bind p' f' c = EStateM.bind p f c ∧ c.Leads J (EStateM.bind p f c)
  unfold EStateM.bind
  rw [heq]
  cases hrun : p c with
  | error e d => exact ⟨rfl, by rwa [hrun] at hleads⟩
  | ok a d =>
    rw [hrun] at hleads
    obtain ⟨m, I, hm, htracks, hI⟩ := hf hn hleads.1 hleads.2
    obtain ⟨heq', hleads'⟩ := htracks (by rw [hleads.1.sentinel]; exact hend) hm
    refine ⟨heq', ?_⟩
    dsimp only
    cases hrest : f a d with
    | error e d' =>
      rw [hrest] at hleads'
      exact ⟨hleads.1.trans hleads'.1, hleads.1.shows hleads'.2⟩
    | ok b d' =>
      rw [hrest] at hleads'
      refine ⟨hleads.1.trans hleads'.1, fun hb => ?_⟩
      rcases hI b hb with hb | hlt
      · exact hleads.1.position.trans_lt (hleads'.2 hb)
      · exact hlt.trans_le hleads'.1.position

theorem bind (hp : Tracks n K p p' c)
    (hf : ∀ {a d}, Tracks n J (f a) (f' a) d) : Tracks n J (p >>= f) (p' >>= f') c :=
  hp.link fun hn hd _ => ⟨n, J, by have := hd.length_eq; have := hd.position; omega, hf, fun _ => .inl⟩

/-- After a token the rest may be tracked one level shallower, and need not read another. -/
theorem leadTo {m : Nat} (hm : n ≤ m + 1)
    (hp : Tracks n (fun _ => True) p p' c) (hf : ∀ {a d}, Tracks m (fun _ => False) (f a) (f' a) d) :
    Tracks n J (p >>= f) (p' >>= f') c :=
  hp.link fun hn hd hlt =>
    ⟨m, _, by have := hd.length_eq; have := hlt trivial; omega, hf, fun _ _ => .inr (hlt trivial)⟩

theorem lead (hp : Tracks (n + 1) (fun _ => True) p p' c)
    (hf : ∀ {a d}, Tracks n (fun _ => False) (f a) (f' a) d) : Tracks (n + 1) J (p >>= f) (p' >>= f') c :=
  leadTo le_rfl hp hf

theorem first (hp : Tracks n (fun _ => True) p p' c)
    (hf : ∀ {a d}, Tracks n (fun _ => False) (f a) (f' a) d) : Tracks n J (p >>= f) (p' >>= f') c :=
  leadTo (Nat.le_succ n) hp hf

/-- So it is after a test that reads what it asks for. -/
theorem testTo {p p' : Parse Bool} {q q' r r' : Parse α} {m : Nat} (hm : n ≤ m + 1)
    (hp : Tracks n (· = true) p p' c) (hq : ∀ {d}, Tracks m (fun _ => False) q q' d)
    (hr : ∀ {d}, Tracks n K r r' d) :
    Tracks n K (p >>= fun b => if b then q else r) (p' >>= fun b => if b then q' else r') c := by
  refine hp.link fun {b d} hn hd hlt => ?_
  have hlength := hd.length_eq
  cases b with
  | true => exact ⟨m, _, by have := hlt rfl; omega, hq, fun _ _ => .inr (hlt rfl)⟩
  | false => exact ⟨n, K, by have := hd.position; omega, hr, fun _ => .inl⟩

theorem test {p p' : Parse Bool} {q q' r r' : Parse α} (hp : Tracks (n + 1) (· = true) p p' c)
    (hq : ∀ {d}, Tracks n (fun _ => False) q q' d) (hr : ∀ {d}, Tracks (n + 1) K r r' d) :
    Tracks (n + 1) K (p >>= fun b => if b then q else r) (p' >>= fun b => if b then q' else r') c :=
  testTo le_rfl hp hq hr

theorem when {p p' : Parse Bool} {q q' r r' : Parse α} (hp : Tracks n (· = true) p p' c)
    (hq : ∀ {d}, Tracks n (fun _ => False) q q' d) (hr : ∀ {d}, Tracks n K r r' d) :
    Tracks n K (p >>= fun b => if b then q else r) (p' >>= fun b => if b then q' else r') c :=
  testTo (Nat.le_succ n) hp hq hr

/-- An optional part. -/
theorem part {p p' : Parse Bool} {q q' : Parse α} (hp : Tracks n (· = true) p p' c)
    (hq : ∀ {d}, Tracks n (fun _ => True) q q' d) :
    Tracks n (·.isSome = true) (p >>= fun b => if b then some <$> q else Pure.pure Option.none)
      (p' >>= fun b => if b then some <$> q' else Pure.pure Option.none) c :=
  .when hp (.map hq) .none

/-! ### Single tokens -/

theorem symbol? {s : String} : Tracks n (· = true) (symbol? s) (symbol? s) c := by
  intro hend _
  refine ⟨rfl, ?_⟩
  unfold Parse.symbol?
  split
  · exact Cursor.leads_next (Cursor.after_ne_nil_of_isSymbol hend ‹_›)
  · exact Cursor.leads_refl Bool.false_ne_true

theorem symbol {s : String} : Tracks n (fun _ => True) (symbol s) (symbol s) c := by
  intro hend _
  refine ⟨rfl, ?_⟩
  unfold Parse.symbol
  split
  · exact Cursor.leads_next (Cursor.after_ne_nil_of_isSymbol hend ‹_›)
  · exact c.leads_error _

theorem phrase? {w : String} {ws : Phrase} : Tracks n (· = true) (phrase? (w :: ws)) (phrase? (w :: ws)) c := by
  intro _ _
  refine ⟨rfl, ?_⟩
  unfold Parse.phrase?
  split
  · exact Cursor.leads_jump (Cursor.after_ne_nil_of_startsWith ‹_›) (Nat.succ_pos _)
  · exact Cursor.leads_refl Bool.false_ne_true

theorem phrase {w : String} {ws : Phrase} {reason : String} :
    Tracks n (fun _ => True) (phrase (w :: ws) reason) (phrase (w :: ws) reason) c := by
  intro _ _
  refine ⟨rfl, ?_⟩
  unfold Parse.phrase
  split
  · exact Cursor.leads_jump (Cursor.after_ne_nil_of_startsWith ‹_›) (Nat.succ_pos _)
  · exact c.leads_error _

theorem word {reason : String} : Tracks n (fun _ => True) (identifier reason) (identifier reason) c := by
  intro hend _
  refine ⟨rfl, ?_⟩
  unfold Parse.identifier
  split
  · next hk => exact Cursor.leads_next (Cursor.after_ne_nil hend (by rw [hk]; decide))
  · exact c.leads_error _

theorem jump {k : Nat} (h : c.sentinel.kind = .endOfInput → c.after ≠ [] ∧ 0 < k) :
    Tracks n (fun _ => True) (jump k) (jump k) c :=
  fun hend _ => ⟨rfl, Cursor.leads_jump (h hend).1 (h hend).2⟩

theorem next (h : c.current.kind ≠ .endOfInput) : Tracks n (fun _ => True) next next c :=
  fun hend _ => ⟨rfl, Cursor.leads_next (Cursor.after_ne_nil hend h)⟩

theorem finish : Tracks n (fun _ => False) finish finish c :=
  .bind .symbol? (.get (.ite (fun _ => .pure) fun _ => .fail))

/-! ### Repetitions -/

theorem manyUpTo {p p' : Parse (Option α)} (h : ∀ {d}, Tracks n (·.isSome = true) p p' d) (m : Nat) :
    ∀ {c}, Tracks n (fun _ => False) (manyUpTo p m) (manyUpTo p' m) c := by
  induction m with
  | zero => exact .pure
  | succ m ih =>
    refine .bind h fun {o d} => ?_
    cases o with
    | none => exact .pure
    | some a => exact .bind ih .pure

theorem many {p p' : Parse (Option α)} (h : ∀ {d}, Tracks n (·.isSome = true) p p' d) :
    Tracks n (fun _ => False) (many p) (many p') c := .get (manyUpTo h _)

theorem commaList (h : ∀ {d}, Tracks n (fun _ => True) p p' d) :
    Tracks n (fun _ => True) (commaList p) (commaList p') c :=
  .first h (.bind (.many (.part .symbol? h)) .pure)

theorem after? {w : String} {ws : Phrase} (h : ∀ {d}, Tracks n (fun _ => True) p p' d) :
    Tracks n (·.isSome = true) (after? (w :: ws) p) (after? (w :: ws) p') c := .part .phrase? h

end Tracks

end Parse

/-! ## The grammar -/

namespace Cursor

theorem operator?_reads {c : Cursor} (hc : c.sentinel.kind = .endOfInput) {op : Operator} {k : Nat}
    (h : c.operator? = some (op, k)) : c.after ≠ [] ∧ 0 < k := by
  unfold operator? at h
  split at h
  · next hk =>
    obtain ⟨_, -, heq⟩ := Option.map_eq_some_iff.mp h
    exact ⟨after_ne_nil hc (by rw [hk]; decide), by cases heq; exact Nat.one_pos⟩
  · obtain ⟨ph, hfind, heq⟩ := Option.map_eq_some_iff.mp h
    have hne : ∀ ph ∈ Operator.phrases, ph.1 ≠ [] := by decide
    obtain ⟨w, ws, hph⟩ := List.exists_cons_of_ne_nil (hne ph (List.mem_of_find?_eq_some hfind))
    have hstarts := List.find?_some hfind
    cases heq
    rw [hph] at hstarts ⊢
    exact ⟨after_ne_nil_of_startsWith hstarts, Nat.succ_pos _⟩

end Cursor

namespace Grammar

open Parse

variable {n : Nat} {c : Cursor}

theorem tracks_segment? : Tracks n (·.isSome = true) identifier.segment? identifier.segment? c := by
  intro hend _
  refine ⟨rfl, ?_⟩
  unfold identifier.segment?
  split
  · next t hpoint _ =>
    split
    · exact Cursor.leads_jump (Cursor.after_ne_nil_of_isSymbol hend hpoint) Nat.two_pos
    · exact Cursor.leads_refl Bool.false_ne_true
  · exact Cursor.leads_refl Bool.false_ne_true

theorem tracks_identifier : Tracks n (fun _ => True) identifier identifier c :=
  .first .word (.bind (.many tracks_segment?) .pure)

theorem tracks_literal : Tracks n (fun _ => True) literal literal c := by
  refine .when .phrase? .pure (.when .phrase? .pure (.when .phrase? .pure (.get (.ite (fun hk => ?_) fun _ => .fail))))
  split
  · exact .first (.next (by rw [hk]; decide)) .pure
  · exact .fail

theorem tracks_parameter : Tracks n (fun _ => True) parameter parameter c := by
  refine .get (.ite (fun hk => .first (.next (by rw [hk]; decide)) ?_) fun _ => .fail)
  intro _ d
  split
  · exact .pure
  · exact .bind (K := fun _ => False) (fun _ _ => ⟨rfl, ⟨rfl, rfl, le_rfl⟩, False.elim⟩) .pure

theorem tracks_label : Tracks n (fun _ => False) label label c :=
  .bind .phrase? (.ite (fun _ => .map .word) fun _ => .get (.ite (fun _ => .map .word) fun _ => .pure))

/-- A table is refused where reading its name stopped. -/
theorem tracks_tableName : Tracks n (fun _ => True) tableName tableName c := by
  intro hend hn
  refine ⟨rfl, ?_⟩
  have hleads := (tracks_identifier (n := n) hend hn).2
  unfold tableName
  cases hrun : identifier c with
  | ok i d => rwa [hrun] at hleads
  | error e d =>
    rw [hrun] at hleads
    exact ⟨hleads.1, hleads.1.shows d.shows_current⟩

theorem after_ne_nil_of_atCall (h : atCall c = true) : c.after ≠ [] := by
  intro ha
  simp [atCall, Cursor.peek?, ha] at h

theorem tracks_joinKind : Tracks n (fun _ => True) joinKind joinKind c :=
  .when .phrase? .pure (.when .phrase? .pure (.when .phrase? .pure (.when .phrase? .pure .fail)))

theorem tracks_columns : Tracks n (fun _ => False) columns columns c :=
  .bind .symbol? (.ite (fun _ => .bind (.commaList (.map tracks_identifier)) (.bind .symbol .pure)) fun _ => .pure)

end Grammar

/-- The readers that occur inside each other do the same, and make progress. -/
structure Rules.Tracks (n : Nat) (r r' : Rules) : Prop where
  flat : ∀ {min c}, Parse.Tracks n (fun _ => True) (r.flat min) (r'.flat min) c
  operand : ∀ {c}, Parse.Tracks n (fun _ => True) r.operand r'.operand c
  select : ∀ {c}, Parse.Tracks n (fun _ => True) r.select r'.select c

namespace Rules.Tracks

open Parse Grammar

variable {n : Nat} {r r' : Rules} {c : Cursor}

/-! ### Expressions

What starts with a token of its own is tracked one level deeper than what is read inside it. -/

theorem parenthesized (h : r.Tracks n r') :
    Parse.Tracks (n + 1) (fun _ => True) (parenthesized r) (parenthesized r') c := by
  refine .lead .symbol (.get (.ite (fun _ => .bind h.select (.bind .symbol .pure)) fun _ => .bind h.flat ?_))
  refine .bind .symbol? (.ite (fun _ => .pure) fun _ => ?_)
  exact .bind (.many (.part .symbol? h.flat)) (.bind .symbol .pure)

theorem membership (h : r.Tracks n r') :
    Parse.Tracks (n + 1) (fun _ => True) (membership r) (membership r') c := by
  refine .get (.ite (fun _ => .first h.parenthesized ?_) fun _ => .fail)
  intro e d
  split <;> exact .pure

theorem call (h : r.Tracks n r') : Parse.Tracks (n + 1) (fun _ => True) (call r) (call r') c := by
  refine .get (.ite (fun hc => .lead (.jump fun _ => ⟨after_ne_nil_of_atCall hc, Nat.two_pos⟩) ?_) fun _ => .fail)
  refine .bind .phrase? (.bind .symbol? (.ite (fun _ => .pure) fun _ => ?_))
  exact .bind (.commaList h.flat) (.bind .symbol .pure)

theorem branch? (h : r.Tracks n r') : Parse.Tracks n (·.isSome = true) (branch? r) (branch? r') c :=
  .after? (.first h.flat (.bind .phrase (.bind h.flat .pure)))

theorem caseExpr (h : r.Tracks n r') : Parse.Tracks (n + 1) (fun _ => True) (caseExpr r) (caseExpr r') c := by
  refine .lead .phrase (.get (.ite (fun _ => .bind .pure ?_) fun _ => .first (.map h.flat) ?_)) <;>
  exact .bind (.many h.branch?) (.ite (fun _ => .fail) fun _ => .bind (.after? h.flat) (.bind .phrase .pure))

theorem operand_succ (h : r.Tracks n r') :
    Parse.Tracks (n + 1) (fun _ => True) (Grammar.operand r) (Grammar.operand r') c := by
  refine .test .phrase? (.map h.flat) (.test .symbol? (.map h.operand) (.test .symbol? h.operand.weak ?_))
  refine .get (.ite (fun _ => h.parenthesized) fun _ => .test .symbol? .pure (.get (.ite (fun _ => h.caseExpr) ?_)))
  refine fun _ => .ite (fun _ => .map tracks_literal) fun _ => .ite (fun _ => tracks_parameter) fun _ => ?_
  exact .ite (fun _ => h.call) fun _ => .ite (fun _ => .map tracks_identifier) fun _ => .fail

theorem step? (h : r.Tracks n r') {min : Nat} :
    Parse.Tracks (n + 1) (·.isSome = true) (step? r min) (step? r' min) c := by
  refine .get ?_
  split
  · exact .none
  · next op k hop =>
    refine .ite (fun _ => .none) fun _ => .lead (.jump fun hend => Cursor.operator?_reads hend hop) ?_
    exact .ite (fun _ => .bind h.membership.lower .pure) fun _ => .bind h.operand_succ.lower .pure

theorem flat_succ (h : r.Tracks n r') {min : Nat} :
    Parse.Tracks (n + 1) (fun _ => True) (Grammar.flat r min) (Grammar.flat r' min) c :=
  .first h.operand_succ (.bind (.many h.step?) .pure)

/-! ### Selects -/

theorem field (h : r.Tracks n r') : Parse.Tracks n (fun _ => True) (field r) (field r') c :=
  .first h.flat (.bind tracks_label .pure)

theorem order (h : r.Tracks n r') : Parse.Tracks n (fun _ => True) (order r) (order r') c :=
  .first h.flat (.bind .phrase? (.ite (fun _ => .pure) fun _ => .bind .phrase? .pure))

theorem table (h : r.Tracks n r') : Parse.Tracks (n + 1) (fun _ => True) (table r) (table r') c := by
  refine .test .symbol? (.get (.ite (fun _ => ?_) fun _ => .fail)) (.first tracks_tableName (.bind tracks_label .pure))
  exact .bind h.select (.bind .symbol (.bind tracks_label .pure))

theorem join (h : r.Tracks n r') : Parse.Tracks (n + 1) (fun _ => True) (join r) (join r') c :=
  .lead tracks_joinKind (.bind h.table.lower (.bind (.after? h.flat) (.ite (fun _ => .fail) fun _ => .pure)))

theorem join? (h : r.Tracks n r') : Parse.Tracks (n + 1) (·.isSome = true) (join? r) (join? r') c :=
  .get (.ite (fun _ => .map h.join) fun _ => .none)

theorem listAfter {α : Type} {p p' : Parse α} {w : String} {ws : Phrase}
    (h : ∀ {d}, Parse.Tracks n (fun _ => True) p p' d) :
    Parse.Tracks n (fun _ => False) (listAfter (w :: ws) p) (listAfter (w :: ws) p') c :=
  .bind .phrase? (.ite (fun _ => .weak (.commaList h)) fun _ => .pure)

theorem selectCore (h : r.Tracks n r') :
    Parse.Tracks (n + 1) (fun _ => True) (selectCore r) (selectCore r') c := by
  refine .lead .phrase (.bind .phrase? (.get (.ite (fun _ => .fail) fun _ => .bind (.commaList h.field) ?_)))
  refine .bind (.after? h.table.lower) (.bind (.many h.join?.lower) (.bind (.after? h.flat) ?_))
  refine .bind (listAfter h.flat) (.bind (.after? h.flat) (.bind (listAfter h.order) ?_))
  exact .bind (.after? h.flat) (.bind (.after? h.flat) .pure)

theorem union? (h : r.Tracks n r') : Parse.Tracks (n + 1) (·.isSome = true) (union? r) (union? r') c :=
  .test .phrase? (.map h.selectCore.lower) (.test .phrase? (.map h.selectCore.lower) .none)

theorem select_succ (h : r.Tracks n r') :
    Parse.Tracks (n + 1) (fun _ => True) (Grammar.select r) (Grammar.select r') c :=
  .first h.selectCore (.bind (.many h.union?) .pure)

/-! ### The other statements -/

theorem row (h : r.Tracks n r') : Parse.Tracks n (fun _ => True) (row r) (row r') c :=
  .first .symbol (.bind (.commaList h.flat) (.bind .symbol .pure))

theorem insertSource (h : r.Tracks n r') : Parse.Tracks n (fun _ => True) (insertSource r) (insertSource r') c :=
  .when .phrase? (.map (.commaList h.row)) (.get (.ite (fun _ => .map h.select) fun _ => .fail))

theorem insert (h : r.Tracks n r') : Parse.Tracks (n + 1) (fun _ => True) (insert r) (insert r') c :=
  .lead .phrase (.bind h.table.lower (.bind tracks_columns (.bind h.insertSource (.bind (listAfter h.field) .pure))))

theorem assignment (h : r.Tracks n r') : Parse.Tracks n (fun _ => True) (assignment r) (assignment r') c :=
  .first tracks_identifier (.bind .symbol (.bind h.flat .pure))

theorem update (h : r.Tracks n r') : Parse.Tracks (n + 1) (fun _ => True) (update r) (update r') c := by
  refine .lead .phrase (.bind h.table.lower (.bind .phrase (.bind (.commaList h.assignment) ?_)))
  refine .bind (.after? h.flat) (.bind (listAfter h.order) ?_)
  exact .bind (.after? h.flat) (.bind (.after? h.flat) .pure)

theorem delete (h : r.Tracks n r') : Parse.Tracks (n + 1) (fun _ => True) (delete r) (delete r') c := by
  refine .lead .phrase (.bind h.table.lower (.bind (.after? h.flat) (.bind (listAfter h.order) ?_)))
  exact .bind (.after? h.flat) (.bind (.after? h.flat) .pure)

theorem query (h : r.Tracks n r') : Parse.Tracks n (fun _ => True) (query r) (query r') c := by
  refine .get (.ite (fun _ => .first (.map h.select) (.bind .finish .pure)) fun _ => ?_)
  refine .ite (fun _ => .first (.map h.insert.lower) (.bind .finish .pure)) fun _ => ?_
  refine .ite (fun _ => .first (.map h.update.lower) (.bind .finish .pure)) fun _ => ?_
  exact .ite (fun _ => .first (.map h.delete.lower) (.bind .finish .pure)) fun _ => .first .fail (.bind .finish .pure)

end Rules.Tracks

/-- The rules for constructs that contain those of other rules. -/
def Rules.around (r : Rules) : Rules := ⟨Grammar.flat r, Grammar.operand r, Grammar.select r⟩

theorem Rules.upTo_eq_iterate (n : Nat) : upTo n = around^[n] (upTo 0) := by
  induction n with
  | zero => rfl
  | succ n ih => rw [Function.iterate_succ_apply', ← ih]; rfl

/-- Rules of two depths read alike where no more levels are needed than both have, whatever lies below. -/
theorem Rules.tracks_iterate (r r' : Rules) :
    ∀ {n m m' : Nat}, n ≤ m → n ≤ m' → (around^[m] r).Tracks n (around^[m'] r') := by
  intro n
  induction n with
  | zero => exact fun _ _ => ⟨.zero, .zero, .zero⟩
  | succ n ih =>
    intro m m' hm hm'
    obtain ⟨m, rfl⟩ := Nat.exists_eq_add_one.mpr (Nat.zero_lt_of_lt hm)
    obtain ⟨m', rfl⟩ := Nat.exists_eq_add_one.mpr (Nat.zero_lt_of_lt hm')
    have h := ih (Nat.le_of_succ_le_succ hm) (Nat.le_of_succ_le_succ hm')
    rw [Function.iterate_succ_apply', Function.iterate_succ_apply']
    exact ⟨h.flat_succ, h.operand_succ, h.select_succ⟩

theorem Rules.tracks_upTo {n m m' : Nat} (hm : n ≤ m) (hm' : n ≤ m') : (upTo m).Tracks n (upTo m') := by
  rw [upTo_eq_iterate m, upTo_eq_iterate m']
  exact tracks_iterate _ _ hm hm'

/-! ## Where a text is wrong -/

/-- The place of an error in a text. -/
inductive ParseError.Points (text : String) (e : ParseError) : Prop
  /-- No token starts at a character; those found before it stand side by side up to it. -/
  | character {before after : String} {c : Char} {tokens : List Token} :
    text = before ++ String.singleton c ++ after →
    Token.scan text = .error e →
    e = ⟨"Unrecognized character",
      ⟨.unknown, String.singleton c, before.utf8ByteSize, before.utf8ByteSize + c.utf8Size⟩⟩ →
    Token.Finds 0 text.toList tokens before.utf8ByteSize (c :: after.toList) →
    Token.Contiguous 0 tokens before.utf8ByteSize → e.Points text
  /-- A token of the text does not fit. -/
  | token {tokens : List Token} :
    Token.scan text = .ok tokens → e.token ∈ tokens → e.token.kind ≠ .whitespace → e.Points text
  /-- The text ends too early. -/
  | ending {tokens : List Token} :
    Token.scan text = .ok tokens →
    e.token = ⟨.endOfInput, "", text.utf8ByteSize, text.utf8ByteSize⟩ → e.Points text

theorem Token.points_of_scan {text : String} {e : ParseError} (h : scan text = .error e) : e.Points text := by
  have hends := ends_scanFrom text.toList 0 0
  rw [← scan, h, List.drop_zero] at hends
  obtain ⟨tokens, stop, c, rest, hfinds, -, he⟩ := hends
  obtain ⟨used, htext, hstop⟩ := hfinds.used
  have hsize : stop = (String.ofList used).utf8ByteSize := by
    rw [hstop, Nat.zero_add, ← byteSize_toList, String.toList_ofList]
  have hsplit : text = String.ofList used ++ String.singleton c ++ String.ofList rest :=
    String.toList_injective (by simp [htext])
  refine .character hsplit h (by rw [he, hsize]; rfl) ?_ (hsize ▸ hfinds.contiguous)
  rwa [← hsize, String.toList_ofList]

theorem Parse.points_of_run {α : Type} {K : α → Prop} {p : Parse α}
    (hp : ∀ {c : Cursor}, c.sentinel.kind = .endOfInput → c.Leads K (p c)) {text : String} {e : ParseError}
    (h : p.run text = .error e) : e.Points text := by
  unfold run Cursor.ofText at h
  cases hscan : Token.scan text with
  | error e' =>
    rw [hscan] at h
    cases h
    exact Token.points_of_scan hscan
  | ok tokens =>
    rw [hscan] at h
    have hleads :=
      hp (c := ⟨[], tokens.filter fun t => t.kind != .whitespace, Token.atEnd text.utf8ByteSize, 0⟩) rfl
    dsimp only at h
    split at h
    · cases h
    · next e' d hrun =>
      cases h
      rw [hrun] at hleads
      rcases hleads.2 with hmem | hend
      · obtain ⟨hmem, hkind⟩ := List.mem_filter.mp hmem
        exact .token hscan hmem (by simpa using hkind)
      · exact .ending hscan hend

/-- **What is wrong with a text has a place in it**: a character that starts no token, a token that is no
blank, or the end. -/
theorem Query.ofText_error {text : String} {e : ParseError} (h : Query.ofText text = .error e) : e.Points text :=
  Parse.points_of_run (fun {c} hc => ((Rules.tracks_upTo (le_refl (c.after.length + 1)) le_rfl).query hc
    (Nat.lt_succ_self _)).2) h

/-- A character after one of two bytes, a token, and the end. -/
theorem Query.ofText_error_places :
    (Query.ofText "SELECT \x22é\x22, $" = .error ⟨"Unrecognized character", ⟨.unknown, "$", 13, 14⟩⟩
      ∧ ParseError.Points "SELECT \x22é\x22, $" ⟨"Unrecognized character", ⟨.unknown, "$", 13, 14⟩⟩)
    ∧ (Query.ofText "SELECT a FROM (b)" = .error ⟨"Expected subquery", ⟨.identifier, "b", 15, 16⟩⟩
      ∧ ParseError.Points "SELECT a FROM (b)" ⟨"Expected subquery", ⟨.identifier, "b", 15, 16⟩⟩)
    ∧ Query.ofText "SELECT a FROM" = .error ⟨"Expected table name", ⟨.endOfInput, "", 13, 13⟩⟩
      ∧ ParseError.Points "SELECT a FROM" ⟨"Expected table name", ⟨.endOfInput, "", 13, 13⟩⟩ := by
  have hcharacter : (fun _ => ()) <$> Query.ofText "SELECT \x22é\x22, $"
      = .error ⟨"Unrecognized character", ⟨.unknown, "$", 13, 14⟩⟩ := by decide +kernel
  have htoken : (fun _ => ()) <$> Query.ofText "SELECT a FROM (b)"
      = .error ⟨"Expected subquery", ⟨.identifier, "b", 15, 16⟩⟩ := by decide +kernel
  have hending : (fun _ => ()) <$> Query.ofText "SELECT a FROM"
      = .error ⟨"Expected table name", ⟨.endOfInput, "", 13, 13⟩⟩ := by decide +kernel
  rw [Outcome.map_eq_error] at hcharacter htoken hending
  exact ⟨⟨hcharacter, ofText_error hcharacter⟩, ⟨htoken, ofText_error htoken⟩, hending, ofText_error hending⟩

end EntitySql
