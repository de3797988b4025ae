import Mathlib
import EntitySql.Cursor

/-!
# Successful computations

A computation in steps succeeds exactly if its first step does and the rest does on what the first
gave. The lemmas say so for the outcomes used here: `Except` for the passes and the renderer, a state
over it for the numbering of parameters, and readers of tokens and assemblies of queries, whose state
stays when they fail.

`Gives Q x` says that `x` has results of `Q` only, and `FailsWith P x` that it fails with errors of `P` only.
Both are carried through a computation step by step.
-/

namespace EntitySql.Outcome

variable {ε σ α β : Type} {x : Except ε α} {f : α → Except ε β}

/-! ## Plain outcomes -/

theorem bind_eq_ok {b : β} : (x >>= f) = .ok b ↔ ∃ a, x = .ok a ∧ f a = .ok b := by
  cases x with
  | error e => exact ⟨nofun, fun ⟨_, h, _⟩ => nomatch h⟩
  | ok a => exact ⟨fun h => ⟨a, rfl, h⟩, fun ⟨_, h, hf⟩ => by cases h; exact hf⟩

/-- A computation fails in its first step, or in the rest. -/
theorem bind_eq_error {e : ε} : (x >>= f) = .error e ↔ x = .error e ∨ ∃ a, x = .ok a ∧ f a = .error e := by
  cases x with
  | error e' => exact ⟨fun h => by cases h; exact .inl rfl, fun h => by
      rcases h with h | ⟨_, h, -⟩ <;> cases h
      rfl⟩
  | ok a => exact ⟨fun h => .inr ⟨a, rfl, h⟩, fun h => by
      rcases h with h | ⟨_, h, hf⟩ <;> cases h
      exact hf⟩

theorem map_eq_ok {f : α → β} {b : β} : (f <$> x) = .ok b ↔ ∃ a, x = .ok a ∧ f a = b := by
  cases x with
  | error e => exact ⟨nofun, fun ⟨_, h, _⟩ => nomatch h⟩
  | ok a => exact ⟨fun h => ⟨a, rfl, Except.ok.inj h⟩, fun ⟨_, h, hf⟩ => by cases h; rw [← hf]; rfl⟩

theorem map_eq_error {f : α → β} {e : ε} : (f <$> x) = .error e ↔ x = .error e := by
  cases x with
  | error e' => exact ⟨fun h => by cases h; rfl, fun h => by cases h; rfl⟩
  | ok a => exact ⟨nofun, nofun⟩

theorem pure_eq_ok {a b : α} : (pure a : Except ε α) = .ok b ↔ a = b :=
  ⟨Except.ok.inj, congrArg _⟩

theorem pure_eq_error {a : α} {e : ε} : (pure a : Except ε α) = .error e ↔ False := ⟨nofun, False.elim⟩

/-- A step for each element succeeds exactly if all of them do. -/
theorem mapM_eq_ok {f : α → Except ε β} : ∀ {as : List α} {bs : List β},
    as.mapM f = .ok bs ↔ List.Forall₂ (fun a b => f a = .ok b) as bs
  | [], bs => by
    rw [List.mapM_nil, pure_eq_ok, List.forall₂_nil_left_iff, eq_comm]
  | a :: as, bs => by
    simp only [List.mapM_cons, bind_eq_ok, pure_eq_ok, List.forall₂_cons_left_iff, mapM_eq_ok]
    constructor
    · rintro ⟨b, hb, bs, hbs, rfl⟩
      exact ⟨b, bs, hb, hbs, rfl⟩
    · rintro ⟨b, bs, hb, hbs, rfl⟩
      exact ⟨b, hb, bs, hbs, rfl⟩

/-- A failure is that of some element. -/
theorem exists_of_mapM_error {f : α → Except ε β} {e : ε} : ∀ {as : List α},
    as.mapM f = .error e → ∃ a ∈ as, f a = .error e
  | [], h => nomatch h
  | a :: as, h => by
    rw [List.mapM_cons] at h
    cases ha : f a with
    | error e' =>
      rw [ha] at h
      cases h
      exact ⟨a, List.mem_cons_self, ha⟩
    | ok b =>
      rw [ha] at h
      change (as.mapM f >>= fun bs => pure (b :: bs)) = .error e at h
      cases has : as.mapM f with
      | error e' =>
        rw [has] at h
        cases h
        obtain ⟨a', ha', he⟩ := exists_of_mapM_error has
        exact ⟨a', List.mem_cons_of_mem _ ha', he⟩
      | ok bs =>
        rw [has] at h
        cases h

/-! ## Outcomes with a state -/

theorem state_bind_eq_ok {x : StateT σ (Except ε) α} {f : α → StateT σ (Except ε) β} {s s' : σ}
    {b : β} : (x >>= f) s = .ok (b, s') ↔ ∃ a t, x s = .ok (a, t) ∧ f a t = .ok (b, s') := by
  change (x s >>= fun p => f p.1 p.2) = .ok (b, s') ↔ _
  rw [bind_eq_ok]
  exact ⟨fun ⟨p, hx, hf⟩ => ⟨p.1, p.2, hx, hf⟩, fun ⟨a, t, hx, hf⟩ => ⟨(a, t), hx, hf⟩⟩

theorem state_map_eq_ok {x : StateT σ (Except ε) α} {f : α → β} {s s' : σ} {b : β} :
    (f <$> x) s = .ok (b, s') ↔ ∃ a, x s = .ok (a, s') ∧ f a = b := by
  change (x s >>= fun p => pure (f p.1, p.2)) = .ok (b, s') ↔ _
  rw [bind_eq_ok]
  constructor
  · rintro ⟨⟨a, t⟩, hx, hf⟩
    cases hf
    exact ⟨a, hx, rfl⟩
  · rintro ⟨a, hx, rfl⟩
    exact ⟨(a, s'), hx, rfl⟩

theorem state_pure_eq_ok {a b : α} {s s' : σ} :
    (pure a : StateT σ (Except ε) α) s = .ok (b, s') ↔ a = b ∧ s = s' :=
  ⟨fun h => by cases h; exact ⟨rfl, rfl⟩, fun ⟨ha, hs⟩ => by rw [ha, hs]; rfl⟩

theorem state_lift_eq_ok {a : α} {s s' : σ} :
    (liftM x : StateT σ (Except ε) α) s = .ok (a, s') ↔ x = .ok a ∧ s = s' := by
  change (x >>= fun a => pure (a, s)) = .ok (a, s') ↔ _
  rw [bind_eq_ok]
  constructor
  · rintro ⟨b, hx, hf⟩
    cases hf
    exact ⟨hx, rfl⟩
  · rintro ⟨hx, rfl⟩
    exact ⟨a, hx, rfl⟩

/-! ## Readers and assemblies -/

theorem read_bind_eq_ok {p : EStateM ε σ α} {f : α → EStateM ε σ β} {c c' : σ} {b : β} :
    (p >>= f) c = .ok b c' ↔ ∃ a d, p c = .ok a d ∧ f a d = .ok b c' := by
  change EStateM.bind p f c = .ok b c' ↔ _
  unfold EStateM.bind
  cases p c with
  | error e d => exact ⟨nofun, fun ⟨_, _, h, _⟩ => nomatch h⟩
  | ok a d => exact ⟨fun h => ⟨a, d, rfl, h⟩, fun ⟨_, _, h, hf⟩ => by cases h; exact hf⟩

theorem read_map_eq_ok {p : EStateM ε σ α} {f : α → β} {c c' : σ} {b : β} :
    (f <$> p) c = .ok b c' ↔ ∃ a, p c = .ok a c' ∧ f a = b := by
  change EStateM.map f p c = .ok b c' ↔ _
  unfold EStateM.map
  cases p c with
  | error e d => exact ⟨nofun, fun ⟨_, h, _⟩ => nomatch h⟩
  | ok a d =>
    constructor
    · intro h
      cases h
      exact ⟨a, rfl, rfl⟩
    · rintro ⟨_, h, rfl⟩
      cases h
      rfl

theorem read_pure_eq_ok {a b : α} {c c' : σ} :
    (pure a : EStateM ε σ α) c = .ok b c' ↔ a = b ∧ c = c' :=
  ⟨fun h => by cases h; exact ⟨rfl, rfl⟩, fun ⟨ha, hc⟩ => by rw [ha, hc]; rfl⟩

end EntitySql.Outcome

namespace EntitySql

open Outcome

/-! ## Results and errors of a kind -/

variable {ε α β : Type} {x : Except ε α} {f : α → Except ε β}

/-- The computation has no results but those of a kind. -/
def Gives (Q : α → Prop) (x : Except ε α) : Prop := ∀ ⦃a⦄, x = .ok a → Q a

namespace Gives

variable {P : α → Prop} {Q : β → Prop}

theorem pure {a : α} (h : P a) : Gives P (Pure.pure a : Except ε α) := by
  intro b hb
  cases hb
  exact h

theorem bind (hx : Gives P x) (hf : ∀ {a}, x = .ok a → P a → Gives Q (f a)) : Gives Q (x >>= f) := by
  intro b h
  obtain ⟨a, ha, h⟩ := bind_eq_ok.mp h
  exact hf ha (hx ha) h

/-- A step with a state. -/
theorem step {σ : Type} {P : α × σ → Prop} {Q : β × σ → Prop} {x : StateT σ (Except ε) α}
    {f : α → StateT σ (Except ε) β} {s : σ} (hx : Gives P (x s))
    (hf : ∀ {a t}, x s = .ok (a, t) → P (a, t) → Gives Q (f a t)) : Gives Q ((x >>= f) s) :=
  bind (x := x s) hx fun h hp => hf h hp

theorem error {e : ε} : Gives P (.error e : Except ε α) := by
  intro a h
  cases h

theorem any : Gives (fun _ => True) x := fun _ _ => trivial

/-- The run itself may be used in what is said of its result. -/
theorem of_run (h : Gives (fun a => x = .ok a → P a) x) : Gives P x := fun _ ha => h ha ha

theorem map {f : α → β} (hx : Gives (fun a => Q (f a)) x) : Gives Q (f <$> x) := by
  intro b h
  obtain ⟨a, ha, rfl⟩ := map_eq_ok.mp h
  exact hx ha

end Gives

/-- The outcome is a success, or an error of a kind. -/
def FailsWith (P : ε → Prop) (x : Except ε α) : Prop := ∀ e, x = .error e → P e

namespace FailsWith

variable {P : ε → Prop}

theorem ok (a : α) : FailsWith P (.ok a) := by
  intro e h
  cases h

theorem pure (a : α) : FailsWith P (Pure.pure a) := ok a

theorem error {e : ε} (h : P e) : FailsWith P (.error e : Except ε α) := by
  intro e' he
  cases he
  exact h

theorem bind (hx : FailsWith P x) (hf : ∀ a, x = .ok a → FailsWith P (f a)) : FailsWith P (x >>= f) := by
  intro e h
  rcases bind_eq_error.mp h with h | ⟨a, ha, h⟩
  · exact hx e h
  · exact hf a ha e h

theorem map (f : α → β) (hx : FailsWith P x) : FailsWith P (f <$> x) :=
  fun e h => hx e (map_eq_error.mp h)

end FailsWith

/-- Both: an error of a kind, or a result of a kind. -/
structure Ends (P : ε → Prop) (Q : α → Prop) (x : Except ε α) : Prop where
  gives : Gives Q x
  fails : FailsWith P x

namespace Ends

variable {E : ε → Prop} {P : α → Prop} {Q : β → Prop}

theorem pure {a : α} (h : P a) : Ends E P (Pure.pure a) := ⟨.pure h, .pure a⟩

theorem bind (hx : Ends E P x) (hf : ∀ {a}, x = .ok a → P a → Ends E Q (f a)) : Ends E Q (x >>= f) :=
  ⟨hx.gives.bind fun h hp => (hf h hp).gives, hx.fails.bind fun _ h => (hf h (hx.gives h)).fails⟩

/-- A step with a state. -/
theorem step {σ : Type} {P : α × σ → Prop} {Q : β × σ → Prop} {x : StateT σ (Except ε) α}
    {f : α → StateT σ (Except ε) β} {s : σ} (hx : Ends E P (x s))
    (hf : ∀ {a t}, x s = .ok (a, t) → P (a, t) → Ends E Q (f a t)) : Ends E Q ((x >>= f) s) :=
  bind (x := x s) hx fun h hp => hf h hp

theorem of_run (h : Ends E (fun a => x = .ok a → P a) x) : Ends E P x := ⟨h.gives.of_run, h.fails⟩

theorem mono {P' : α → Prop} (hx : Ends E P x) (h : ∀ a, P a → P' a) : Ends E P' x :=
  ⟨fun _ ha => h _ (hx.gives ha), hx.fails⟩

theorem map {f : α → β} (hx : Ends E (fun a => Q (f a)) x) : Ends E Q (f <$> x) :=
  ⟨hx.gives.map, hx.fails.map f⟩

/-- A map with a state. -/
theorem mapState {σ : Type} {Q : β × σ → Prop} {x : StateT σ (Except ε) α} {f : α → β} {s : σ}
    (hx : Ends E (fun a => Q (f a.1, a.2)) (x s)) : Ends E Q ((f <$> x) s) :=
  bind (x := x s) hx fun _ hp => .pure hp

end Ends

end EntitySql
