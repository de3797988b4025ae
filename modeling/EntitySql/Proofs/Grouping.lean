import Mathlib
import EntitySql.Proofs.Assembled

/-!
# Groups and connectives of conditions

Entries are folded from the left, with a connective that waits for the next entry. A group is folded on its own, so
it only puts brackets around what it tests: one that tests nothing leaves no trace, and one that tests a single thing
needs no brackets. A connective counts only between two entries, and of several the last.

* `Condition.unbracketed`: a condition without the groups that bracket nothing.
* `Condition.Slack`: entries with and without a connective that joins nothing.
* **`Assembly.conditions_unbracketed`**: neither changes what conditions become.
-/

namespace EntitySql

/-! ## Brackets and connectives that do nothing -/

mutual
/-- A condition without needless groups. A group that tests nothing goes, and one that tests a single thing is
replaced by that test. -/
def Condition.unbracketed : Condition → List Condition
  | .group entries =>
    match testsOf entries with
    | [] => []
    | [test] => [test]
    | _ => [.group (unbracketedOf entries)]
  | c => [c]
/-- Conditions without needless groups at any depth. -/
def unbracketedOf : List Condition → List Condition
  | [] => []
  | c :: cs => c.unbracketed ++ unbracketedOf cs
end

/-- Entries with a connective, at any depth, and the same entries without it. Nothing is tested before the
connective, or nothing after it, or another connective comes before the next test. -/
inductive Condition.Slack : List Condition → List Condition → Prop
  | leading {before after : List Condition} (op : LogicOp) : testsOf before = [] →
    Slack (before ++ .connective op :: after) (before ++ after)
  | trailing {before after : List Condition} (op : LogicOp) : testsOf after = [] →
    Slack (before ++ .connective op :: after) (before ++ after)
  | overridden {before between after : List Condition} (op op' : LogicOp) : testsOf between = [] →
    Slack (before ++ .connective op :: (between ++ .connective op' :: after))
      (before ++ (between ++ .connective op' :: after))
  | inside {before after entries entries' : List Condition} : Slack entries entries' →
    Slack (before ++ .group entries :: after) (before ++ .group entries' :: after)

namespace Assembly

/-! ## The fold, entry by entry -/

/-- The entries after those folded so far, with the connective that waits after them. -/
def through (folded : Option Expr) (op : LogicOp) (cs : List Condition) : Assembly (Option Expr × LogicOp) :=
  cs.foldlM (fun next c => entry next.1 next.2 c) (folded, op)

theorem fold_eq_through (folded : Option Expr) (op : LogicOp) (cs : List Condition) :
    fold folded op cs = (do return (← through folded op cs).1) := by
  induction cs generalizing folded op with
  | nil => rfl
  | cons c cs ih =>
    rw [fold, through, List.foldlM_cons, bind_assoc]
    exact bind_congr fun next => ih next.1 next.2

theorem through_append (folded : Option Expr) (op : LogicOp) (cs ds : List Condition) :
    through folded op (cs ++ ds) = (do
      let next ← through folded op cs
      through next.1 next.2 ds) := List.foldlM_append

theorem fold_append (folded : Option Expr) (op : LogicOp) (cs ds : List Condition) :
    fold folded op (cs ++ ds) = (do
      let next ← through folded op cs
      fold next.1 next.2 ds) := by
  simp only [fold_eq_through, through_append, bind_assoc]

theorem fold_cons (folded : Option Expr) (op : LogicOp) (c : Condition) (cs : List Condition) :
    fold folded op (c :: cs) = (do
      let next ← entry folded op c
      fold next.1 next.2 cs) := by
  rw [fold]

/-! ## Entries that test nothing -/

/-- The connective that waits after an entry that tests nothing. -/
def waiting (op : LogicOp) : Condition → LogicOp
  | .connective op' => op'
  | _ => op

mutual
theorem entry_of_no_tests (folded : Option Expr) (op : LogicOp) (c : Condition) (h : c.tests = []) :
    entry folded op c = pure (folded, waiting op c) := by
  cases c with
  | connective => rw [entry, waiting]
  | field => cases h
  | raw => cases h
  | group entries =>
    rw [entry, fold_of_no_tests none .and entries h, pure_bind]
    rfl
/-- Nothing is folded where nothing is tested. -/
theorem fold_of_no_tests (folded : Option Expr) (op : LogicOp) (cs : List Condition) (h : testsOf cs = []) :
    fold folded op cs = pure folded := by
  cases cs with
  | nil => rw [fold]
  | cons c cs =>
    obtain ⟨hc, hcs⟩ := List.append_eq_nil_iff.mp h
    rw [fold_cons, entry_of_no_tests folded op c hc, pure_bind, fold_of_no_tests folded _ cs hcs]
end

theorem through_of_no_tests (folded : Option Expr) (op : LogicOp) (cs : List Condition) (h : testsOf cs = []) :
    through folded op cs = pure (folded, cs.foldl waiting op) := by
  induction cs generalizing op with
  | nil => rfl
  | cons c cs ih =>
    obtain ⟨hc, hcs⟩ := List.append_eq_nil_iff.mp h
    rw [through, List.foldlM_cons, entry_of_no_tests folded op c hc, pure_bind]
    exact ih _ hcs

/-- The connective that waits does not matter as long as nothing is folded. -/
theorem fold_none (op op' : LogicOp) (cs : List Condition) : fold none op cs = fold none op' cs := by
  induction cs with
  | nil => rw [fold, fold]
  | cons c cs ih =>
    rw [fold_cons, fold_cons]
    cases c with
    | connective => rw [entry, entry]
    | field => rw [entry, entry]; rfl
    | raw => rw [entry, entry]; rfl
    | group entries =>
      simp only [entry, bind_assoc]
      refine bind_congr fun inner => ?_
      cases inner with
      | none => simp only [pure_bind, ih]
      | some e => rfl

/-! ## Entries with a single test -/

/-- The entry attaches what `w` gives to what is folded. -/
def Attaches (c : Condition) (w : Assembly Expr) : Prop :=
  ∀ folded op, entry folded op c = (do return (some (attach folded op (← w)), .and))

mutual
theorem attaches_tests (c : Condition) (t : Condition) (h : t ∈ c.tests) : ∃ w, Attaches t w := by
  cases c with
  | connective => cases h
  | field key v =>
    obtain rfl := List.mem_singleton.mp h
    exact ⟨condition key v, fun folded op => by rw [entry]⟩
  | raw e =>
    obtain rfl := List.mem_singleton.mp h
    exact ⟨return e, fun folded op => by rw [entry, pure_bind]⟩
  | group entries => exact attaches_testsOf entries t h
theorem attaches_testsOf (cs : List Condition) (t : Condition) (h : t ∈ testsOf cs) : ∃ w, Attaches t w := by
  cases cs with
  | nil => cases h
  | cons c cs =>
    rcases List.mem_append.mp h with h | h
    · exact attaches_tests c t h
    · exact attaches_testsOf cs t h
end

mutual
/-- An entry with a single test does what the test does. -/
theorem attaches_of_tests {t : Condition} {w : Assembly Expr} (hw : Attaches t w) (c : Condition)
    (h : c.tests = [t]) : Attaches c w := by
  cases c with
  | connective => cases h
  | field => cases h; exact hw
  | raw => cases h; exact hw
  | group entries =>
    intro folded op
    rw [entry, fold_of_testsOf hw entries h, bind_assoc]
    exact bind_congr fun e => pure_bind ..
theorem fold_of_testsOf {t : Condition} {w : Assembly Expr} (hw : Attaches t w) (cs : List Condition)
    (h : testsOf cs = [t]) (op : LogicOp) : fold none op cs = (do return some (← w)) := by
  cases cs with
  | nil => cases h
  | cons c cs =>
    rw [fold_cons]
    -- the test is in the first entry or in the others, and the rest tests nothing
    rcases List.append_eq_singleton_iff.mp h with ⟨hc, hcs⟩ | ⟨hc, hcs⟩
    · rw [entry_of_no_tests none op c hc, pure_bind, fold_of_testsOf hw cs hcs]
    · rw [attaches_of_tests hw c hc, bind_assoc]
      refine bind_congr fun e => ?_
      rw [pure_bind, fold_of_no_tests _ _ cs hcs]
      rfl
end

/-! ## Needless groups -/

theorem through_singleton (folded : Option Expr) (op : LogicOp) (c : Condition) :
    through folded op [c] = entry folded op c := by
  rw [through, List.foldlM_cons]
  exact bind_pure _

mutual
theorem through_unbracketed (folded : Option Expr) (op : LogicOp) (c : Condition) :
    through folded op c.unbracketed = entry folded op c := by
  cases c with
  | connective op' => exact through_singleton folded op (.connective op')
  | field key v => exact through_singleton folded op (.field key v)
  | raw e => exact through_singleton folded op (.raw e)
  | group entries =>
    rw [Condition.unbracketed]
    split
    · next htests =>
      rw [entry_of_no_tests folded op (.group entries) htests]
      rfl
    · next test htests =>
      obtain ⟨w, hw⟩ := attaches_testsOf entries test (htests ▸ List.mem_singleton_self test)
      rw [through_singleton, hw, attaches_of_tests hw (.group entries) htests]
    · rw [through_singleton, entry, entry, fold_unbracketedOf none .and entries]
/-- Needless groups do not change a fold. -/
theorem fold_unbracketedOf (folded : Option Expr) (op : LogicOp) (cs : List Condition) :
    fold folded op (unbracketedOf cs) = fold folded op cs := by
  cases cs with
  | nil => rfl
  | cons c cs =>
    rw [unbracketedOf, fold_append, through_unbracketed folded op c, fold_cons]
    exact bind_congr fun next => fold_unbracketedOf next.1 next.2 cs
end

/-! ## Connectives that join nothing -/

/-- A connective that joins nothing does not change a fold. -/
theorem fold_slack {cs cs' : List Condition} (h : Condition.Slack cs cs') : fold none .and cs = fold none .and cs' := by
  induction h with
  | leading op hbefore =>
    rw [fold_append, fold_append, through_of_no_tests _ _ _ hbefore, pure_bind, pure_bind, fold_cons, entry, pure_bind]
    exact fold_none ..
  | trailing op hafter =>
    rw [fold_append, fold_append]
    refine bind_congr fun next => ?_
    rw [fold_cons, entry, pure_bind, fold_of_no_tests _ _ _ hafter, fold_of_no_tests _ _ _ hafter]
  | overridden op op' hbetween =>
    rw [fold_append, fold_append]
    refine bind_congr fun next => ?_
    rw [fold_cons, entry, pure_bind]
    simp only [fold_append, through_of_no_tests _ _ _ hbetween, pure_bind, fold_cons, entry]
  | inside _ ih =>
    rw [fold_append, fold_append]
    refine bind_congr fun next => ?_
    rw [fold_cons, fold_cons, entry, entry, ih]

/-! ## Conditions -/

/-- **Groups are only brackets, and a connective only joins.** Conditions become the same expression, or fail in the
same way, and collect the same values, if all groups that test nothing are deleted and all groups that test a single
thing are replaced by that test, at any depth. The same holds if a connective is deleted before which or after which
nothing is tested, or that another one overrides. -/
theorem conditions_unbracketed (cs : List Condition) :
    conditions (unbracketedOf cs) = conditions cs
      ∧ ∀ cs', Condition.Slack cs cs' → conditions cs' = conditions cs :=
  ⟨fold_unbracketedOf none .and cs, fun _ h => (fold_slack h).symm⟩

theorem conditions_unbracketed_mixed :
    Condition.Slack [.field "a" (.int 1), .group [], .group [.connective .or, .field "b" (.int 2)], .connective .or]
        [.field "a" (.int 1), .group [], .group [.field "b" (.int 2)], .connective .or]
      ∧ conditions [.field "a" (.int 1), .group [], .group [.field "b" (.int 2)], .connective .or]
        = conditions [.field "a" (.int 1), .group [], .group [.connective .or, .field "b" (.int 2)], .connective .or]
      ∧ conditions [.field "a" (.int 1), .field "b" (.int 2), .connective .or]
        = conditions [.field "a" (.int 1), .group [], .group [.connective .or, .field "b" (.int 2)], .connective .or] := by
  have hslack : Condition.Slack
      [.field "a" (.int 1), .group [], .group [.connective .or, .field "b" (.int 2)], .connective .or]
      [.field "a" (.int 1), .group [], .group [.field "b" (.int 2)], .connective .or] :=
    @Condition.Slack.inside [.field "a" (.int 1), .group []] _ _ _ (@Condition.Slack.leading [] _ .or rfl)
  obtain ⟨hbrackets, hconnectives⟩ := conditions_unbracketed
    [.field "a" (.int 1), .group [], .group [.connective .or, .field "b" (.int 2)], .connective .or]
  exact ⟨hslack, hconnectives _ hslack, hbrackets⟩

end Assembly

end EntitySql
