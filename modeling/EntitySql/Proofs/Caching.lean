import Mathlib
import EntitySql.Cache
import EntitySql.Proofs.Passes

/-!
# Caches over runs of requests

A cache is asked by compilers that share it and by direct callers, and it is cleared now and then. Between
two requests it is `Settled`: every cell is filled, and no key has two. It then answers as a map would that
holds, for each key, the first artifact generated for it since the last clear (`Cache.promised`).

* `Cache.Settled.askWith`: what one request for a key does, for a generator with any effects.
* `Cache.settled_after`, `Cache.get?_after`: what holds after any run of requests.
* **`Cache.serve_after`**: every answer, the number of generations it took, and the number of cells.
-/

namespace EntitySql

/-! ## Maps as lists of pairs -/

namespace Pairs

variable {α : Type} {key : String} {v : α}

theorem find?_eq_none : ∀ {m : List (String × α)}, find? key m = none ↔ key ∉ keys m
  | [] => by simp [find?, keys]
  | (k, v) :: m => by
    by_cases hk : k = key
    · simp [find?, keys, hk]
    · have ih := find?_eq_none (m := m)
      simp only [keys] at ih
      simp [find?, keys, hk, Ne.symm hk, ih]

theorem insert_of_find?_none : ∀ {m : List (String × α)}, find? key m = none → insert key v m = m ++ [(key, v)]
  | [], _ => rfl
  | (k, w) :: m, h => by
    have hk : k ≠ key := fun hk => by simp [find?, hk] at h
    rw [find?, if_neg hk] at h
    rw [insert, if_neg hk, insert_of_find?_none h, List.cons_append]

theorem insert_append_self {w : α} : ∀ {m : List (String × α)}, find? key m = none →
    insert key v (m ++ [(key, w)]) = m ++ [(key, v)]
  | [], _ => by simp [insert]
  | (k, u) :: m, h => by
    have hk : k ≠ key := fun hk => by simp [find?, hk] at h
    rw [find?, if_neg hk] at h
    rw [List.cons_append, insert, if_neg hk, insert_append_self h, List.cons_append]

theorem find?_append_single (k : String) : ∀ {m : List (String × α)}, find? key m = none →
    find? k (m ++ [(key, v)]) = if k = key then some v else find? k m
  | [], _ => by
    by_cases hk : key = k
    · simp [find?, hk]
    · simp [find?, hk, Ne.symm hk]
  | (k', u) :: m, h => by
    have hk : k' ≠ key := fun hk => by simp [find?, hk] at h
    rw [find?, if_neg hk] at h
    rw [List.cons_append, find?, find?_append_single k h, find?]
    by_cases hkk : k' = k
    · rw [if_pos hkk, if_pos hkk, if_neg (hkk ▸ hk)]
    · rw [if_neg hkk, if_neg hkk]

theorem filter_key_append {w : α} {m : List (String × α)} (h : find? key m = none) :
    (m ++ [(key, w)]).filter (fun p => p.1 != key) = m := by
  have hmem : ∀ p ∈ m, (p.1 != key) = true := fun p hp => by
    have hne : p.1 ≠ key := fun heq => find?_eq_none.mp h (heq ▸ List.mem_map_of_mem hp)
    simpa using hne
  rw [List.filter_append, List.filter_eq_self.mpr hmem]
  simp

end Pairs

namespace Cache

/-! ## One request for a key -/

/-- A cache in which nothing is being generated. -/
structure Settled (m : Cache) : Prop where
  filled : ∀ cell ∈ m.cells, cell.2.isSome
  nodup : (Pairs.keys m.cells).Nodup

/-- The cache with a new cell. -/
def extend (m : Cache) (key : String) (a : Artifact) : Cache := ⟨m.cells ++ [(key, some a)]⟩

/-- The cache after a generation for a key that had no cell. -/
def settle (m : Cache) (key : String) : Except CompileError Artifact → Cache
  | .ok a => m.extend key a
  | .error _ => m

theorem settled_empty : Settled {} := ⟨nofun, .nil⟩

variable {m : Cache} {key : String}

namespace Settled

theorem find?_of_get?_none (hm : m.Settled) (h : m.get? key = none) : Pairs.find? key m.cells = none := by
  cases hfind : Pairs.find? key m.cells with
  | none => rfl
  | some cell =>
    have hcell : cell.isSome := hm.filled _ (Pairs.mem_of_find? hfind)
    have hnone : cell = none := by
      rw [get?, hfind] at h
      exact h
    rw [hnone] at hcell
    cases hcell

theorem extend (hm : m.Settled) (h : m.get? key = none) (a : Artifact) : (m.extend key a).Settled where
  filled := List.forall_mem_append.mpr ⟨hm.filled, List.forall_mem_singleton.mpr rfl⟩
  nodup := by
    have hkey := Pairs.find?_eq_none.mp (hm.find?_of_get?_none h)
    rw [Cache.extend, Pairs.keys, List.map_append, List.map_singleton, ← List.concat_eq_append]
    exact hm.nodup.concat hkey

theorem settle (hm : m.Settled) (h : m.get? key = none) (made : Except CompileError Artifact) :
    (m.settle key made).Settled := by
  cases made with
  | ok a => exact hm.extend h a
  | error e => exact hm

theorem get?_settle (hm : m.Settled) (h : m.get? key = none) (made : Except CompileError Artifact)
    (k : String) : (m.settle key made).get? k = if k = key then made.toOption else m.get? k := by
  cases made with
  | ok a =>
    rw [Cache.settle, Cache.extend, get?, Pairs.find?_append_single k (hm.find?_of_get?_none h)]
    split <;> rfl
  | error e =>
    split
    · next hk => exact hk ▸ h
    · rfl

/-- Nothing is evicted from a settled cache but the cell that was made for the failed generation. -/
theorem evict_reserve (hm : m.Settled) (h : m.get? key = none) : (m.reserve key).evict key = m := by
  have hfind := hm.find?_of_get?_none h
  have hreserve : m.reserve key = ⟨m.cells ++ [(key, none)]⟩ := by
    rw [reserve, Pairs.contains, hfind]
    exact congrArg Cache.mk (Pairs.insert_of_find?_none hfind)
  rw [hreserve, evict, Pairs.find?_append_single key hfind, if_pos rfl]
  exact congrArg Cache.mk (Pairs.filter_key_append hfind)

theorem fill_reserve (hm : m.Settled) (h : m.get? key = none) (a : Artifact) :
    (m.reserve key).fill key a = m.extend key a := by
  have hfind := hm.find?_of_get?_none h
  rw [reserve, Pairs.contains, hfind]
  refine congrArg Cache.mk ?_
  simp only [Option.isSome_none, Bool.false_eq_true, if_false]
  rw [Pairs.insert_of_find?_none hfind, Pairs.insert_append_self hfind]

/-- **What is kept is given without a generation; else there is exactly one**, whatever its effects, and
the cache keeps what it made. -/
theorem askWith {μ : Type → Type} [Monad μ] (hm : m.Settled) (generate : Unit → μ Compilation) :
    m.askWith key generate = match m.get? key with
      | some a => pure (⟨[], .ok a⟩, m)
      | none => generate () >>= fun made => pure (made, m.settle key made.outcome) := by
  cases hkept : m.get? key with
  | some a =>
    have hreserve : m.reserve key = m := by
      rw [reserve, if_pos]
      rw [Pairs.contains]
      cases hfind : Pairs.find? key m.cells with
      | none =>
        rw [get?, hfind] at hkept
        cases hkept
      | some _ => rfl
    rw [Cache.askWith, hreserve]
    simp only [hkept]
  | none =>
    have hempty : (m.reserve key).get? key = none := by
      rw [reserve, Pairs.contains, hm.find?_of_get?_none hkept]
      refine (congrArg Option.join ?_ : _ = Option.join (some none))
      simp only [Option.isSome_none, Bool.false_eq_true, if_false]
      rw [Pairs.insert_of_find?_none (hm.find?_of_get?_none hkept),
        Pairs.find?_append_single key (hm.find?_of_get?_none hkept), if_pos rfl]
    rw [Cache.askWith]
    simp only [hempty, hm.fill_reserve hkept, hm.evict_reserve hkept]
    refine congrArg (generate () >>= ·) (funext fun made => ?_)
    cases made.outcome <;> rfl

end Settled

/-! ## Runs of requests -/

/-- A request to a cache. -/
inductive Request where
  /-- A compiler that shares the cache compiles a text. -/
  | translate (c : Compiler) (text : String)
  /-- A key is asked for directly; `made` is what the generator gives when it is run. -/
  | get (key : String) (made : Except CompileError Artifact)
  | clear

/-- What a request gives, if anything, and how often its generator was run. -/
structure Reply where
  compilation : Option Compilation
  runs : Nat

/-- The reply of a computation that counts the runs of its generator, and the cache after it. -/
def Reply.ofCount (x : StateM Nat (Compilation × Cache)) : Reply × Cache :=
  let ((made, m), runs) := Id.run (x.run 0)
  (⟨some made, runs⟩, m)

/-- What is kept, without a run of the generator; where nothing is, what one run makes. -/
def Reply.ofKept (kept : Option Artifact) (made : Compilation) : Reply :=
  match kept with
  | some a => ⟨some ⟨[], .ok a⟩, 0⟩
  | none => ⟨some made, 1⟩

/-- A generator that counts its runs. -/
def counted (made : Compilation) : Unit → StateM Nat Compilation := fun _ => do
  modify (· + 1)
  return made

/-- The reply to a request, and the cache after it. -/
def Request.serve (m : Cache) : Request → Reply × Cache
  | translate c text => Reply.ofCount (c.translateWith m text (counted (c.traceText text)))
  | get key made => Reply.ofCount (m.askWith key (counted ⟨[], made⟩))
  | clear => (⟨none, 0⟩, {})

/-- The cache after requests, from an empty one. -/
def after (rs : List Request) : Cache := rs.foldl (fun m r => (r.serve m).2) {}

/-! ## The map that a cache stands for -/

namespace Request

def isClear : Request → Bool
  | clear => true
  | _ => false

/-- The artifact that the generator of a request makes for a key. -/
def makes? (key : String) : Request → Option Artifact
  | translate c text => if c.settings.memoize ∧ text = key then (c.compileText text).toOption else none
  | get k made => if k = key then made.toOption else none
  | clear => none

/-- The reply of a map. A compiler that does not keep what it compiles pays no heed to it. -/
def reply (kept : String → Option Artifact) : Request → Reply
  | translate c text =>
    if c.settings.memoize then .ofKept (kept text) (c.traceText text) else ⟨some (c.traceText text), 1⟩
  | get key made => .ofKept (kept key) ⟨[], made⟩
  | clear => ⟨none, 0⟩

/-- Requests by compilers that compile as `c` does, whether or not they keep what they compile. -/
def Agrees (c : Compiler) : Request → Prop
  | translate c' _ => c'.schema = c.schema ∧ c'.dialect = c.dialect ∧ c'.settings.strict = c.settings.strict
  | get .. => False
  | clear => True

end Request

/-- What a cache holds after requests: for each key, the first artifact that was generated for it since
the last clear. -/
def promised (rs : List Request) (key : String) : Option Artifact :=
  (rs.rtakeWhile fun r => !r.isClear).findSome? (·.makes? key)

theorem promised_concat (rs : List Request) (r : Request) (key : String) :
    promised (rs ++ [r]) key = if r.isClear then none else (promised rs key).or (r.makes? key) := by
  cases hr : r.isClear with
  | true => simp [promised, hr]
  | false => simp [promised, hr, List.findSome?_append]

/-! ## Every run -/

/-- What one request does to a settled cache. -/
structure Serves (m : Cache) (r : Request) : Prop where
  reply : (r.serve m).1 = r.reply m.get?
  settled : (r.serve m).2.Settled
  get? : ∀ key, (r.serve m).2.get? key = if r.isClear then none else (m.get? key).or (r.makes? key)
  /-- A failed generation leaves the cache as it was. -/
  failed : ∀ made e, (r.serve m).1.compilation = some made → made.outcome = .error e → (r.serve m).2 = m

/-- A request for a key, by whomever. -/
theorem Settled.serves_ask (hm : m.Settled) {r : Request} (key : String) (made : Compilation)
    (hserve : r.serve m = Reply.ofCount (m.askWith key (counted made)))
    (hreply : r.reply m.get? = Reply.ofKept (m.get? key) made) (hclear : r.isClear = false)
    (hmakes : ∀ k, r.makes? k = if key = k then made.outcome.toOption else none) : m.Serves r := by
  cases hkept : m.get? key with
  | some a =>
    have hrun : r.serve m = (⟨some ⟨[], .ok a⟩, 0⟩, m) := by
      rw [hserve, hm.askWith, hkept]
      rfl
    refine ⟨?_, ?_, fun k => ?_, fun made e hmade herror => ?_⟩
    · rw [hrun, hreply, hkept]
      rfl
    · rw [hrun]
      exact hm
    · rw [hrun, hclear, hmakes]
      by_cases hk : key = k
      · rw [← hk, hkept]
        rfl
      · simp [hk]
    · rw [hrun]
  | none =>
    have hrun : r.serve m = (⟨some made, 1⟩, m.settle key made.outcome) := by
      rw [hserve, hm.askWith, hkept]
      rfl
    refine ⟨?_, ?_, fun k => ?_, fun made' e hmade herror => ?_⟩
    · rw [hrun, hreply, hkept]
      rfl
    · rw [hrun]
      exact hm.settle hkept _
    · rw [hrun, hclear, hmakes, hm.get?_settle hkept]
      by_cases hk : key = k
      · rw [← hk, hkept]
        simp
      · simp [hk, Ne.symm hk]
    · rw [hrun] at hmade ⊢
      cases hmade
      rw [herror]
      rfl

theorem Settled.serves (hm : m.Settled) : ∀ r : Request, m.Serves r
  | .get key made => hm.serves_ask key ⟨[], made⟩ rfl rfl rfl fun _ => rfl
  | .clear => ⟨rfl, settled_empty, fun _ => rfl, fun _ _ h => nomatch h⟩
  | .translate c text => by
    cases hkeeps : c.settings.memoize with
    | true =>
      refine hm.serves_ask text (c.traceText text) ?_ ?_ rfl fun k => ?_
      · simp only [Request.serve, Compiler.translateWith, hkeeps, if_true]
      · rw [Request.reply, if_pos hkeeps]
      · simp only [Request.makes?, hkeeps, true_and]
        rfl
    | false =>
      have hrun : (Request.translate c text).serve m = (⟨some (c.traceText text), 1⟩, m) := by
        simp only [Request.serve, Compiler.translateWith, hkeeps, Bool.false_eq_true, if_false]
        rfl
      refine ⟨?_, ?_, fun k => ?_, fun made e hmade herror => ?_⟩
      · rw [hrun, Request.reply, if_neg (by simp [hkeeps])]
      · rw [hrun]
        exact hm
      · rw [hrun]
        simp [Request.makes?, hkeeps, Request.isClear]
      · rw [hrun]

theorem after_concat (rs : List Request) (r : Request) : after (rs ++ [r]) = (r.serve (after rs)).2 := by
  rw [after, List.foldl_append]
  rfl

theorem settled_after (rs : List Request) : (after rs).Settled := by
  induction rs using List.reverseRecOn with
  | nil => exact settled_empty
  | append_singleton rs r ih => exact after_concat rs r ▸ (ih.serves r).settled

theorem get?_after (rs : List Request) : (after rs).get? = promised rs := by
  funext key
  induction rs using List.reverseRecOn with
  | nil => rfl
  | append_singleton rs r ih =>
    rw [after_concat, ((settled_after rs).serves r).get?, promised_concat, ih]

theorem Settled.size_eq (hm : m.Settled) : m.size = m.slots :=
  congrArg List.length (List.filter_eq_self.mpr hm.filled)

theorem Settled.slots_eq (hm : m.Settled) : m.slots = {key | (m.get? key).isSome}.ncard := by
  have hkeys : {key | (m.get? key).isSome} = ((Pairs.keys m.cells).toFinset : Set String) := by
    ext key
    rw [Set.mem_ofPred_eq, List.coe_toFinset, Set.mem_ofPred_eq, Option.isSome_iff_ne_none]
    rw [← not_iff_not, not_not, ← Pairs.find?_eq_none]
    refine ⟨hm.find?_of_get?_none, fun h => ?_⟩
    rw [get?, h]
    rfl
  rw [hkeys, Set.ncard_coe_finset, List.toFinset_card_of_nodup hm.nodup, Pairs.keys, List.length_map]
  rfl

/-- What is promised was made by a request. -/
theorem exists_of_promised {rs : List Request} {a : Artifact} (h : promised rs key = some a) :
    ∃ r ∈ rs, r.makes? key = some a := by
  obtain ⟨r, hr, hmakes⟩ := List.exists_of_findSome?_eq_some h
  exact ⟨r, (List.rtakeWhile_suffix _ rs).subset hr, hmakes⟩

end Cache

/-- Compilers with the same entities, dialect and strictness compile alike. -/
theorem Compiler.traceText_congr {c c' : Compiler} (hschema : c'.schema = c.schema)
    (hdialect : c'.dialect = c.dialect) (hstrict : c'.settings.strict = c.settings.strict) (text : String) :
    c'.traceText text = c.traceText text := by
  have hnaming : c'.naming = c.naming := by rw [naming, naming, hschema, hstrict]
  have hfinish : c'.finish = c.finish := by
    funext q
    have hgenerated : c'.generated? q = c.generated? q := by
      cases q <;> simp only [generated?, hdialect]
    rw [finish, finish, hgenerated, hdialect]
  simp only [traceText, trace, hnaming, hfinish]

namespace Cache

/-- **A cache answers as the map of what was first generated.** After any requests, the next one gets what
is promised for its key, without a run of its generator; where nothing is promised the generator is run
once, and the cache is left as it was if it fails. There is one cell for each key that something is promised
for. Compilers that agree answer as they would without a cache. -/
theorem serve_after (rs : List Request) (r : Request) :
    (r.serve (after rs)).1 = r.reply (promised rs)
      ∧ (∀ key, (after rs).get? key = promised rs key)
      ∧ (∀ made e, (r.serve (after rs)).1.compilation = some made → made.outcome = .error e →
        (r.serve (after rs)).2 = after rs)
      ∧ (after rs).size = (after rs).slots
      ∧ (after rs).slots = {key | (promised rs key).isSome}.ncard
      ∧ (∀ c text, r = .translate c text → (∀ x ∈ rs, x.Agrees c) →
        (r.serve (after rs)).1.compilation.map Compilation.outcome = some (c.compileText text)) := by
  have hm := settled_after rs
  have hreply : (r.serve (after rs)).1 = r.reply (promised rs) := by
    rw [(hm.serves r).reply, get?_after]
  refine ⟨hreply, fun key => congrFun (get?_after rs) key, (hm.serves r).failed, hm.size_eq, ?_, ?_⟩
  · rw [← get?_after]
    exact hm.slots_eq
  · rintro c text rfl hagree
    rw [hreply, Request.reply]
    split
    · cases hkept : promised rs text with
      | none => rfl
      | some a =>
        -- what is kept was compiled by one that agrees
        obtain ⟨x, hx, hmakes⟩ := exists_of_promised hkept
        have hx := hagree x hx
        cases x with
        | get => exact hx.elim
        | clear => cases hmakes
        | translate c' text' =>
          rw [Request.makes?] at hmakes
          split at hmakes
          · next hkeeps =>
            obtain ⟨-, rfl⟩ := hkeeps
            have hsame : c'.compileText text' = c.compileText text' :=
              congrArg Compilation.outcome (Compiler.traceText_congr hx.1 hx.2.1 hx.2.2 text')
            rw [hsame] at hmakes
            cases hc : c.compileText text' with
            | error e => rw [hc] at hmakes; cases hmakes
            | ok b =>
              rw [hc] at hmakes
              cases hmakes
              rfl
          · cases hmakes
    · rfl

/-- A compiler that keeps what it compiles, and the same one that does not. -/
def keeper : Compiler := { schema := {}, dialect := .generic }
def passer : Compiler := { keeper with settings := .uncached }

/-- The second of two compilations is kept and the third takes it, as after the clear nothing was there. -/
theorem serve_after_shared :
    (∀ x ∈ [Request.clear, .translate passer "SELECT 1 AS n", .translate keeper "SELECT 1 AS n"],
        x.Agrees keeper)
      ∧ ((Request.translate keeper "SELECT 1 AS n").serve
          (after [.clear, .translate passer "SELECT 1 AS n", .translate keeper "SELECT 1 AS n"])).1.compilation.map
            Compilation.outcome = some (keeper.compileText "SELECT 1 AS n") := by
  have hagrees : ∀ x ∈ [Request.clear, .translate passer "SELECT 1 AS n", .translate keeper "SELECT 1 AS n"],
      x.Agrees keeper := by
    simp only [List.forall_mem_cons]
    exact ⟨trivial, ⟨rfl, rfl, rfl⟩, ⟨rfl, rfl, rfl⟩, List.forall_mem_nil _⟩
  exact ⟨hagrees, (serve_after _ _).2.2.2.2.2 keeper _ rfl hagrees⟩

end Cache

end EntitySql
