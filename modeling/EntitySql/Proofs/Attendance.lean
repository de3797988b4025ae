import Mathlib
import EntitySql.Walk

/-!
# The calls of a walk

Where in a query a walk calls its visitors, and what each step of the walk does about it. A walk of traced visitors
keeps every call in its state; it runs beside the walk of the visitors themselves (`Walk.Runs`).

* `Node.Lies`: a node lies in another, below the nodes of a path.
* `Walk.Serviced`: a walk made calls where they were due, took from the stacks what it put there, and failed
  with what a visitor answered. Walks in a row compose (`Walk.Serviced.trans`), and a visitor may cut one
  short (`Walk.Serviced.cut`).
* `Walk.Visits.placed`, `Walk.Serves.within`: a frame is taken off unless the visit fails, and the facts of
  a query are put back however its parts end.
* `Walk.Attends.visits`: the visit of a node services the node, given that the walk of its parts services them.
-/

namespace EntitySql

variable {σ α β : Type}

/-! ## What lies in a query -/

def Query.node : Query → Node
  | .select s => .select s
  | .insert i => .insert i
  | .update u => .update u
  | .delete d => .delete d

namespace Node

/-- The facts of a query. -/
def facts? : Node → Option Facts
  | select s => some s.facts
  | insert i => some i.facts
  | update u => some u.facts
  | delete d => some d.facts
  | _ => none

def ofExprs (es : List Expr) : List Node := es.map .expr

def ofExpr? (e : Option Expr) : List Node := ofExprs e.toList

/-- The nodes next below an expression. -/
def ofOperands : Expr → List Node
  | .call _ _ args => ofExprs args
  | .list items => ofExprs items
  | .arith _ x y | .compare _ x y | .logic _ x y => [expr x, expr y]
  | .unary _ e => [expr e]
  | .case operand bs otherwise => ofExpr? operand ++ (bs.map branch ++ ofExpr? otherwise)
  | .subquery s => [select s]
  | _ => []

def ofTable : Table → List Node
  | .named .. => []
  | .derived s _ => [select s]

def ofSource : InsertSource → List Node
  | .values rows => ofExprs rows
  | .select s => [select s]

/-- The nodes next below, in the order of the text. -/
def children : Node → List Node
  | select s =>
    s.fields.map field ++ (s.source.toList.map table ++ (s.joins.map join ++ (ofExpr? s.criteria ++
      (ofExprs s.grouping ++ (ofExpr? s.having ++ (s.ordering.map order ++ (ofExpr? s.limit ++
        (ofExpr? s.offset ++ s.unions.map fun u => select u.select))))))))
  | insert i => table i.table :: (ofExprs i.columns ++ (ofSource i.source ++ i.returning.map field))
  | update u =>
    table u.table :: (u.assignments.map assignment ++ (ofExpr? u.criteria ++ (u.ordering.map order ++
      (ofExpr? u.limit ++ ofExpr? u.offset))))
  | delete d =>
    table d.table :: (ofExpr? d.criteria ++ (d.ordering.map order ++ (ofExpr? d.limit ++ ofExpr? d.offset)))
  | table t => ofTable t
  | join j => table j.table :: ofExpr? j.condition
  | field f => [expr f.expr]
  | order o => [expr o.expr]
  | assignment a => [expr a.target, expr a.value]
  | branch b => [expr b.condition, expr b.result]
  | expr e => ofOperands e

/-- `n.Lies path m` says that `m` lies in `n`, below the nodes of the path, the nearest first. -/
inductive Lies : Node → List Node → Node → Prop
  | here (n : Node) : Lies n [] n
  | part {n c m : Node} {path : List Node} : c ∈ n.children → Lies c path m → Lies n (path ++ [n]) m

end Node

/-- The place of a node below the given nodes, the nearest first. -/
structure Context.Below (c : Context) (above : List Node) : Prop where
  depth : c.depth = above.length
  facts : c.facts? = above.findSome? Node.facts?

/-! ## Visitors that keep their calls -/

/-- A call of a visitor. -/
structure Call where
  visitor : String
  phase : Phase
  context : Context
  node : Node
  answer : Except CompileError Action

/-- The visitor with its calls. -/
def Visitor.traced (v : Visitor σ) : Visitor (σ × List Call) where
  name := v.name
  kinds := v.kinds
  visit phase c n s :=
    let r := v.visit phase c n s.1
    { action := r.action
      state := (r.state, s.2 ++ [⟨v.name, phase, c, n, r.action⟩])
      facts := r.facts
      rootFacts := r.rootFacts }

theorem Reply.noted_eq_self {r : Reply σ} (facts : r.facts = id) (rootFacts : r.rootFacts = id) (c : Context) :
    r.noted c = c := by
  have same : (fun s : Scope => { s with facts := id s.facts }) = id := rfl
  simp only [noted, Context.mapFacts, Context.mapRootFacts, facts, rootFacts, same, List.modifyHead_id,
    List.modify_id]
  rfl

/-- A visitor that replaces no node and leaves the facts as they are. -/
def Visitor.Observes (v : Visitor σ) : Prop :=
  ∀ phase c n s, (∀ new, (v.visit phase c n s).action ≠ .ok (.replace new)) ∧ (v.visit phase c n s).noted c = c

/-- Where a walk stops: before or after the parts of a node that lies below others. -/
structure Station where
  phase : Phase
  above : List Node
  node : Node

/-- The call is made there. -/
structure Call.At (call : Call) (t : Station) : Prop where
  phase : call.phase = t.phase
  node : call.node = t.node
  below : call.context.Below t.above

namespace Node

/-- Where a walk of the nodes stops. -/
def stations (above ns : List Node) : Set Station :=
  { t | ∃ n ∈ ns, ∃ path, n.Lies path t.node ∧ t.above = path ++ above }

@[simp] theorem stations_nil (above : List Node) : stations above [] = ∅ := by
  simp [stations]

theorem stations_append (above ns ms : List Node) :
    stations above (ns ++ ms) = stations above ns ∪ stations above ms := by
  ext t
  simp only [stations, List.mem_append, Set.mem_ofPred_eq, Set.mem_union, or_and_right, exists_or]

/-- A walk stops at a node, then at what lies below it, then at the node again. -/
theorem stations_singleton (above : List Node) (n : Node) :
    stations above [n] = {⟨.enter, above, n⟩} ∪ (stations (n :: above) n.children ∪ {⟨.leave, above, n⟩}) := by
  ext t
  constructor
  · rintro ⟨m, hm, path, lies, habove⟩
    obtain rfl := List.mem_singleton.mp hm
    obtain ⟨phase, around, node⟩ := t
    cases lies with
    | here => cases phase <;> simp_all
    | @part _ c _ path hc lies =>
      exact .inr (.inl ⟨c, hc, path, lies, by simpa using habove⟩)
  · rintro (rfl | ⟨c, hc, path, lies, habove⟩ | rfl)
    · exact ⟨n, List.mem_singleton.mpr rfl, [], .here n, rfl⟩
    · exact ⟨n, List.mem_singleton.mpr rfl, path ++ [n], .part hc lies, by simpa using habove⟩
    · exact ⟨n, List.mem_singleton.mpr rfl, [], .here n, rfl⟩

end Node

/-! ## Two walks side by side -/

/-- The progress without the trace. -/
def Progress.plain (p : Progress (σ × List Call)) : Progress σ := ⟨p.state.1, p.context, p.failure⟩

namespace Walk

/-- Both walks give `a` from `p`, and get to `o`; the first has no trace. -/
structure Runs (w : Walk σ α) (w' : Walk (σ × List Call) α) (p : Progress (σ × List Call)) (a : α)
    (o : Progress (σ × List Call)) : Prop where
  plain : w.run p.plain = (a, o.plain)
  traced : w'.run p = (a, o)

section

variable {w : Walk σ α} {w' : Walk (σ × List Call) α} {p o : Progress (σ × List Call)} {a : α}

theorem Runs.pure (a : α) (p : Progress (σ × List Call)) :
    Runs (Pure.pure a : Walk σ α) (Pure.pure a) p a p := ⟨rfl, rfl⟩

theorem Runs.bind {k : α → Walk σ β} {k' : α → Walk (σ × List Call) β} {b : β} {e : Progress (σ × List Call)}
    (first : Runs w w' p a o) (next : Runs (k a) (k' a) o b e) : Runs (w >>= k) (w' >>= k') p b e where
  plain := by
    rw [StateT.run_bind, first.plain]
    exact next.plain
  traced := by
    rw [StateT.run_bind, first.traced]
    exact next.traced

end

/-! ## What is due of a walk -/

/-- What a walk that is to stop at the stations `due` has done from `p` to `o`: it made the calls, took from the
stacks what it put there, and failed with what a visitor answered. -/
structure Serviced (vs : List (Visitor σ)) (due : Set Station) (p o : Progress (σ × List Call))
    (calls : List Call) : Prop where
  log : o.state.2 = p.state.2 ++ calls
  scopes : o.context.scopes = p.context.scopes
  height : o.failure = none → o.context.frames.length = p.context.frames.length
  failure : ∀ e, o.failure = some e ↔ ∃ call ∈ calls, call.answer = .error e
  located : ∀ call ∈ calls, ∃ t ∈ due, call.At t
  complete : (∀ call ∈ calls, call.answer = .ok .proceed) → ∀ t ∈ due, ∀ v ∈ vs, t.node.kind ∈ v.kinds →
    ∃ call ∈ calls, call.visitor = v.name ∧ call.At t

namespace Serviced

variable {vs : List (Visitor σ)} {due due' : Set Station} {p m o : Progress (σ × List Call)}
  {calls calls' : List Call}

theorem refl (running : p.failure = none) : Serviced vs ∅ p p [] where
  log := (List.append_nil _).symm
  scopes := rfl
  height _ := rfl
  failure e := by simp [running]
  located := by simp
  complete := by simp

/-- A walk that still runs goes on. -/
theorem trans (first : Serviced vs due p m calls) (running : m.failure = none)
    (next : Serviced vs due' m o calls') : Serviced vs (due ∪ due') p o (calls ++ calls') where
  log := by rw [next.log, first.log, List.append_assoc]
  scopes := next.scopes.trans first.scopes
  height ended := (next.height ended).trans (first.height running)
  failure e := by
    have quiet : ¬ ∃ call ∈ calls, call.answer = .error e := by
      rw [← first.failure, running]
      simp
    rw [next.failure]
    simp only [List.mem_append, or_and_right, exists_or, quiet, false_or]
  located call hcall := by
    rcases List.mem_append.mp hcall with hcall | hcall
    · obtain ⟨t, ht, at_t⟩ := first.located call hcall
      exact ⟨t, .inl ht, at_t⟩
    · obtain ⟨t, ht, at_t⟩ := next.located call hcall
      exact ⟨t, .inr ht, at_t⟩
  complete agreed t ht v hv hkind := by
    obtain ⟨agreed, agreed'⟩ := List.forall_mem_append.mp agreed
    rcases ht with ht | ht
    · obtain ⟨call, hcall, done⟩ := first.complete agreed t ht v hv hkind
      exact ⟨call, List.mem_append_left _ hcall, done⟩
    · obtain ⟨call, hcall, done⟩ := next.complete agreed' t ht v hv hkind
      exact ⟨call, List.mem_append_right _ hcall, done⟩

/-- More may be due of a walk that a visitor cut short. -/
theorem cut (h : Serviced vs due p o calls) (sub : due ⊆ due')
    (refused : ∃ call ∈ calls, call.answer ≠ .ok .proceed) : Serviced vs due' p o calls where
  log := h.log
  scopes := h.scopes
  height := h.height
  failure := h.failure
  located call hcall := by
    obtain ⟨t, ht, at_t⟩ := h.located call hcall
    exact ⟨t, sub ht, at_t⟩
  complete agreed := by
    obtain ⟨call, hcall, other⟩ := refused
    exact absurd (agreed call hcall) other

theorem refused (h : Serviced vs due p o calls) (failed : o.failure ≠ none) :
    ∃ call ∈ calls, call.answer ≠ .ok .proceed := by
  obtain ⟨e, he⟩ := Option.ne_none_iff_exists'.mp failed
  obtain ⟨call, hcall, answer⟩ := (h.failure e).mp he
  exact ⟨call, hcall, by simp [answer]⟩

/-- What is put on the stacks before the walk is taken from them after it. -/
theorem move {c d : Context} (h : Serviced vs due { p with context := c } o calls)
    (scopes : d.scopes = p.context.scopes)
    (height : o.failure = none → d.frames.length = p.context.frames.length) :
    Serviced vs due p { o with context := d } calls :=
  ⟨h.log, scopes, height, h.failure, h.located, h.complete⟩

end Serviced

/-- From a place that has the facts of the nearest query of `above` and lies at the height, both walks give
`a` and do what is due. -/
def Attends (vs : List (Visitor σ)) (above : List Node) (height : Nat) (due : Set Station)
    (w : Walk σ α) (w' : Walk (σ × List Call) α) (a : α) : Prop :=
  ∀ p : Progress (σ × List Call), p.failure = none → p.context.frames.length = height →
    p.context.facts? = above.findSome? Node.facts? → ∃ o calls, Runs w w' p a o ∧ Serviced vs due p o calls

/-- What follows a walk is done unless it fails. -/
theorem Attends.bind {vs : List (Visitor σ)} {above : List Node} {height : Nat} {due due' : Set Station}
    {w : Walk σ α} {w' : Walk (σ × List Call) α} {a : α} {b : β} {k : α → Walk σ β}
    {k' : α → Walk (σ × List Call) β} (first : Attends vs above height due w w' a)
    (next : Attends vs above height due' (k a) (k' a) b)
    (idle : ∀ p : Progress (σ × List Call), p.failure ≠ none → Runs (k a) (k' a) p b p) :
    Attends vs above height (due ∪ due') (w >>= k) (w' >>= k') b := by
  intro p running high facts
  obtain ⟨m, calls, run, done⟩ := first p running high facts
  by_cases running' : m.failure = none
  · have facts' : m.context.facts? = above.findSome? Node.facts? := by
      rw [← facts, Context.facts?, Context.facts?, done.scopes]
    obtain ⟨o, calls', run', done'⟩ := next m running' ((done.height running').trans high) facts'
    exact ⟨o, calls ++ calls', run.bind run', done.trans running' done'⟩
  · exact ⟨m, calls, run.bind (idle m running'),
      done.cut Set.subset_union_left (done.refused running')⟩

/-- The visit of a node below others. -/
abbrev Visits (vs : List (Visitor σ)) (above : List Node) (n : Node) (w : Walk σ α)
    (w' : Walk (σ × List Call) α) (a : α) : Prop :=
  Attends vs above (above.length + 1) (Node.stations above [n]) w w' a

/-- The walk of nodes below others, which does nothing after a failure. -/
structure Serves (vs : List (Visitor σ)) (above ns : List Node) (w : Walk σ α)
    (w' : Walk (σ × List Call) α) (a : α) : Prop where
  idle : ∀ p : Progress (σ × List Call), p.failure ≠ none → Runs w w' p a p
  attends : Attends vs above above.length (Node.stations above ns) w w' a

namespace Serves

variable {vs : List (Visitor σ)} {above ns ms : List Node} {n : Node} {w : Walk σ α}
  {w' : Walk (σ × List Call) α} {a : α} {b : β}

theorem pure (a : α) : Serves vs above [] (Pure.pure a) (Pure.pure a) a where
  idle p _ := Runs.pure a p
  attends p running _ _ := ⟨p, [], Runs.pure a p, by simpa using Serviced.refl running⟩

theorem bind {k : α → Walk σ β} {k' : α → Walk (σ × List Call) β} (first : Serves vs above ns w w' a)
    (next : Serves vs above ms (k a) (k' a) b) : Serves vs above (ns ++ ms) (w >>= k) (w' >>= k') b where
  idle p failed := (first.idle p failed).bind (next.idle p failed)
  attends := by
    rw [Node.stations_append]
    exact first.attends.bind next.attends next.idle

theorem cons {k : α → Walk σ β} {k' : α → Walk (σ × List Call) β} (first : Serves vs above [n] w w' a)
    (next : Serves vs above ns (k a) (k' a) b) : Serves vs above (n :: ns) (w >>= k) (w' >>= k') b :=
  first.bind next

/-- The last of the parts. -/
theorem last (f : α → β) (h : Serves vs above ns w w' a) :
    Serves vs above ns (w >>= fun x => Pure.pure (f x)) (w' >>= fun x => Pure.pure (f x)) (f a) := by
  rw [← List.append_nil ns]
  exact h.bind (pure (f a))

end Serves

/-! ## Steps of a walk -/

section

variable {vs : List (Visitor σ)} {above ns : List Node} {n : Node} {w : Walk σ α}
  {w' : Walk (σ × List Call) α} {a : α} {slot : String} {index : Nat} {siblings : List NodeKind}
  {kind : NodeKind}

theorem run_eq_pure {w : Walk σ α} {p o : Progress σ} {b : α} (run : w.run p = (b, o)) :
    w.run p = (Pure.pure (b, o) : Id (α × Progress σ)) := run

theorem placed_of_failed (w : Walk σ α) {p : Progress σ} (failed : p.failure ≠ none) :
    (placed slot index siblings kind a w).run p = (a, p) := by
  have stopped : p.failure.isSome = true := Option.isSome_iff_ne_none.mpr failed
  simp only [placed, StateT.run_bind, StateT.run_get, pure_bind, stopped, if_true]
  rfl

theorem placed_failing {p o : Progress σ} {b : α} {w : Walk σ α} (running : p.failure = none)
    (run : w.run { p with context := p.context.child slot index siblings kind } = (b, o))
    (failed : o.failure ≠ none) : (placed slot index siblings kind a w).run p = (b, o) := by
  have alive : p.failure.isSome = false := by simp [running]
  have stopped : o.failure.isSome = true := Option.isSome_iff_ne_none.mpr failed
  simp only [placed, StateT.run_bind, StateT.run_get, StateT.run_modify, pure_bind, alive, run_eq_pure run,
    stopped, Bool.false_eq_true, if_false, if_true]
  rfl

theorem placed_passing {p o : Progress σ} {b : α} {w : Walk σ α} {f : Frame} {frames : List Frame}
    (running : p.failure = none)
    (run : w.run { p with context := p.context.child slot index siblings kind } = (b, o))
    (ended : o.failure = none) (stack : o.context.frames = f :: frames) :
    (placed slot index siblings kind a w).run p = (b, { o with context := { o.context with frames } }) := by
  have alive : p.failure.isSome = false := by simp [running]
  have alive' : o.failure.isSome = false := by simp [ended]
  simp only [placed, popFrame, StateT.run_bind, StateT.run_get, StateT.run_modify, pure_bind, alive,
    run_eq_pure run, alive', stack, Bool.false_eq_true, if_false]
  rfl

/-- A child is visited one frame higher, and the frame is taken off unless the visit fails. -/
theorem Visits.placed (h : Visits vs above n w w' a) :
    Serves vs above [n] (placed slot index siblings kind a w) (placed slot index siblings kind a w') a where
  idle p failed := ⟨placed_of_failed w failed, placed_of_failed w' failed⟩
  attends p running height facts := by
    obtain ⟨o, calls, run, done⟩ := h { p with context := p.context.child slot index siblings kind } running
      (congrArg (· + 1) height) facts
    by_cases ended : o.failure = none
    · have high : o.context.frames.length = p.context.frames.length + 1 := done.height ended
      obtain ⟨f, frames, stack⟩ := List.exists_cons_of_length_eq_add_one high
      refine ⟨{ o with context := { o.context with frames } }, calls,
        ⟨placed_passing (o := o.plain) running run.plain ended stack,
          placed_passing running run.traced ended stack⟩,
        done.move done.scopes fun _ => ?_⟩
      simpa [stack] using high
    · exact ⟨o, calls, ⟨placed_failing running run.plain ended, placed_failing running run.traced ended⟩,
        done.move done.scopes fun ended' => absurd ended' ended⟩

theorem within_run {facts : Facts} {isolated : Bool} {p o : Progress σ} {whole : Facts → α}
    {parts : Walk σ (Facts → α)} {s : Scope} {scopes : List Scope}
    (run : parts.run { p with context := p.context.inside facts isolated } = (whole, o))
    (stack : o.context.scopes = s :: scopes) :
    (within facts isolated parts).run p =
      (whole s.facts, { o with context := { o.context with scopes } }) := by
  simp only [within, popScope, StateT.run_bind, StateT.run_get, StateT.run_modify, pure_bind, run_eq_pure run,
    stack]
  rfl

/-- The parts of a query are walked with its facts in the context, and get them back however they end. -/
theorem Serves.within {facts : Facts} {isolated : Bool} {whole : Facts → α} {parts : Walk σ (Facts → α)}
    {parts' : Walk (σ × List Call) (Facts → α)} (own : n.facts? = some facts)
    (h : Serves vs (n :: above) ns parts parts' whole) :
    Attends vs above (above.length + 1) (Node.stations (n :: above) ns) (within facts isolated parts)
      (within facts isolated parts') (whole facts) := by
  intro p running height _
  obtain ⟨o, calls, run, done⟩ := h.attends { p with context := p.context.inside facts isolated } running height
    (by simp [Context.facts?, Context.inside, own])
  exact ⟨{ o with context := { o.context with scopes := p.context.scopes } }, calls,
    ⟨within_run (o := o.plain) run.plain done.scopes, within_run run.traced done.scopes⟩,
    done.move rfl done.height⟩

/-- The parts of what is no query have the facts of the node itself. -/
theorem Serves.parts (plain : n.facts? = none) (h : Serves vs (n :: above) ns w w' a) :
    Attends vs above (above.length + 1) (Node.stations (n :: above) ns) w w' a := by
  intro p running height facts
  refine h.attends p running height ?_
  rw [facts, List.findSome?_cons, plain]

end

/-! ## Calls of the visitors -/

/-- The call that a visitor gets. -/
def called (v : Visitor σ) (phase : Phase) (n : Node) (p : Progress (σ × List Call)) : Call :=
  ⟨v.name, phase, p.context, n, (v.visit phase p.context n p.state.1).action⟩

/-- The progress after a call that changes no facts. -/
def heard (v : Visitor σ) (phase : Phase) (n : Node) (p : Progress (σ × List Call)) :
    Progress (σ × List Call) :=
  { p with state := ((v.visit phase p.context n p.state.1).state, p.state.2 ++ [called v phase n p]) }

/-- What comes out of a call that follows others. -/
def following (outcome : Action) : Action → Action
  | .skip => .skip
  | _ => outcome

section

variable {phase : Phase} {n : Node} {outcome : Action} {v : Visitor σ} {us : List (Visitor σ)}

section

variable {p : Progress σ} {r : Reply σ}

theorem consult_error {e : CompileError} (reply : v.visit phase p.context n p.state = r)
    (answer : r.action = .error e) :
    (consult phase n outcome (v :: us)).run p =
      (none, { state := r.state, context := r.noted p.context, failure := some e }) := by
  simp only [consult, StateT.run_bind, StateT.run_get, StateT.run_set, pure_bind, reply, answer]
  rfl

theorem consult_ok {action : Action} (reply : v.visit phase p.context n p.state = r)
    (answer : r.action = .ok action) (keeps : ∀ new, action ≠ .replace new) :
    (consult phase n outcome (v :: us)).run p =
      (consult phase n (following outcome action) us).run
        { p with state := r.state, context := r.noted p.context } := by
  cases action with
  | replace new => exact absurd rfl (keeps new)
  | skip => simp only [consult, StateT.run_bind, StateT.run_get, StateT.run_set, pure_bind, reply, answer, following]
  | proceed =>
    simp only [consult, StateT.run_bind, StateT.run_get, StateT.run_set, pure_bind, reply, answer, following]

end

variable {us' : List (Visitor (σ × List Call))} {p o : Progress (σ × List Call)} {act : Option Action}

theorem Runs.consult_error {e : CompileError} (observes : v.Observes)
    (answer : (called v phase n p).answer = .error e) :
    Runs (consult phase n outcome (v :: us)) (consult phase n outcome (v.traced :: us')) p none
      { heard v phase n p with failure := some e } := by
  have noted := (observes phase p.context n p.state.1).2
  constructor
  · rw [Walk.consult_error (p := p.plain) rfl answer]
    exact congrArg (fun c => (none, Progress.mk _ c _)) noted
  · rw [Walk.consult_error (p := p) (v := v.traced) rfl answer]
    exact congrArg (fun c => (none, Progress.mk _ c _)) noted

/-- After a visitor that does not fail come the others. -/
theorem Runs.consult_ok {action : Action} (observes : v.Observes)
    (answer : (called v phase n p).answer = .ok action)
    (next : Runs (consult phase n (following outcome action) us) (consult phase n (following outcome action) us')
      (heard v phase n p) act o) :
    Runs (consult phase n outcome (v :: us)) (consult phase n outcome (v.traced :: us')) p act o := by
  obtain ⟨keeps, noted⟩ := observes phase p.context n p.state.1
  have keeps' : ∀ new, action ≠ .replace new := fun new eq => keeps new (eq ▸ answer)
  constructor
  · rw [Walk.consult_ok (p := p.plain) rfl answer keeps', ← next.plain]
    exact congrArg (fun c => (consult phase n _ us).run (Progress.mk _ c _)) noted
  · rw [Walk.consult_ok (p := p) (v := v.traced) rfl answer keeps', ← next.traced]
    exact congrArg (fun c => (consult phase n _ us').run (Progress.mk _ c _)) noted

end

/-- What asking the visitors `us` about a node has done from `p` to `o`, and what came out of it. -/
structure Consulted (us : List (Visitor σ)) (phase : Phase) (n : Node) (outcome : Action)
    (p o : Progress (σ × List Call)) (act : Option Action) (calls : List Call) : Prop where
  log : o.state.2 = p.state.2 ++ calls
  context : o.context = p.context
  posed : ∀ call ∈ calls, call.phase = phase ∧ call.node = n ∧ call.context = p.context
  failure : ∀ e, o.failure = some e ↔ ∃ call ∈ calls, call.answer = .error e
  verdict : act = none ∧ o.failure ≠ none ∨ (act = some .proceed ∨ act = some .skip) ∧ o.failure = none
  heard : (∀ call ∈ calls, call.answer = .ok .proceed) →
    act = some outcome ∧ ∀ v ∈ us, ∃ call ∈ calls, call.visitor = v.name

section

variable {vs us : List (Visitor σ)} {phase : Phase} {n : Node} {outcome : Action} {above : List Node}

theorem Consulted.cons {v : Visitor σ} {p o : Progress (σ × List Call)} {act : Option Action} {calls : List Call}
    {action : Action} (answer : (called v phase n p).answer = .ok action)
    (next : Consulted us phase n (following outcome action) (Walk.heard v phase n p) o act calls) :
    Consulted (v :: us) phase n outcome p o act (called v phase n p :: calls) where
  log := by rw [next.log, Walk.heard, List.append_assoc, List.singleton_append]
  context := next.context
  posed := List.forall_mem_cons.mpr ⟨⟨rfl, rfl, rfl⟩, next.posed⟩
  failure e := by
    rw [next.failure]
    simp [answer]
  verdict := next.verdict
  heard agreed := by
    obtain ⟨first, rest⟩ := List.forall_mem_cons.mp agreed
    obtain rfl : action = .proceed := by simpa [answer] using first
    obtain ⟨out, all⟩ := next.heard rest
    refine ⟨out, List.forall_mem_cons.mpr ⟨⟨_, List.mem_cons_self, rfl⟩, fun u hu => ?_⟩⟩
    obtain ⟨call, hcall, name⟩ := all u hu
    exact ⟨call, List.mem_cons_of_mem _ hcall, name⟩

theorem consult_runs (phase : Phase) (n : Node) (observes : ∀ v ∈ us, v.Observes)
    (stays : outcome = .proceed ∨ outcome = .skip) (p : Progress (σ × List Call)) (running : p.failure = none) :
    ∃ o act calls, Runs (consult phase n outcome us) (consult phase n outcome (us.map Visitor.traced)) p act o ∧
      Consulted us phase n outcome p o act calls := by
  induction us generalizing p outcome with
  | nil =>
    refine ⟨p, some outcome, [], Runs.pure _ p, (List.append_nil _).symm, rfl, by simp, by simp [running], .inr ⟨?_, running⟩, by simp⟩
    simpa using stays
  | cons v us ih =>
    obtain ⟨observes, rest⟩ := List.forall_mem_cons.mp observes
    cases answer : (called v phase n p).answer with
    | error e =>
      refine ⟨_, none, [called v phase n p], .consult_error observes answer, rfl, rfl, ?_, ?_, .inl ⟨rfl, by simp⟩, ?_⟩
      · simp [called]
      · simp [answer]
      · simp [answer]
    | ok action =>
      have stays' : following outcome action = .proceed ∨ following outcome action = .skip := by
        cases action with
        | skip => exact .inr rfl
        | proceed | replace => exact stays
      obtain ⟨o, act, calls, run, done⟩ := ih rest stays' (heard v phase n p) running
      exact ⟨o, act, _, run.consult_ok observes answer, done.cons answer⟩

theorem calls_traced (kind : NodeKind) :
    calls (vs.map Visitor.traced) kind = (calls vs kind).map Visitor.traced := by
  simp only [calls, List.flatMap_map, List.map_flatMap, List.map_map]
  rfl

theorem mem_calls {kind : NodeKind} {v : Visitor σ} : v ∈ calls vs kind ↔ v ∈ vs ∧ kind ∈ v.kinds := by
  simp only [calls, List.mem_flatMap, List.mem_map, List.mem_filter, beq_iff_eq]
  grind

/-- The visitors are asked about a node below others. They fail together, and unless all of them agree to
proceed something has been refused. -/
theorem dispatch_runs (observes : ∀ v ∈ vs, v.Observes) {p : Progress (σ × List Call)} (running : p.failure = none)
    (height : p.context.frames.length = above.length + 1)
    (facts : p.context.facts? = above.findSome? Node.facts?) :
    ∃ o act calls, Runs (dispatch vs phase n) (dispatch (vs.map Visitor.traced) phase n) p act o ∧
      Serviced vs {⟨phase, above, n⟩} p o calls ∧ o.context = p.context ∧
      (act = none ∧ o.failure ≠ none ∨ o.failure = none ∧ (act = some .proceed ∨
        act = some .skip ∧ ∃ call ∈ calls, call.answer ≠ .ok .proceed)) := by
  have observes' : ∀ v ∈ calls vs n.kind, v.Observes := fun v hv => observes v (mem_calls.mp hv).1
  obtain ⟨o, act, calls, run, done⟩ := consult_runs phase n observes' (.inl rfl) p running
  have below : p.context.Below above := ⟨by rw [Context.depth, height, Nat.add_sub_cancel], facts⟩
  have at_node : ∀ call ∈ calls, call.At ⟨phase, above, n⟩ := by
    intro call hcall
    obtain ⟨at_phase, at_n, at_context⟩ := done.posed call hcall
    exact ⟨at_phase, at_n, at_context ▸ below⟩
  refine ⟨o, act, calls, ?_, ⟨done.log, by rw [done.context], fun _ => by rw [done.context], done.failure,
    fun call hcall => ⟨_, rfl, at_node call hcall⟩, ?_⟩, done.context, ?_⟩
  · rw [dispatch, dispatch, calls_traced]
    exact run
  · rintro agreed t rfl v hv hkind
    obtain ⟨call, hcall, name⟩ := (done.heard agreed).2 v (mem_calls.mpr ⟨hv, hkind⟩)
    exact ⟨call, hcall, name, at_node call hcall⟩
  · rcases done.verdict with ⟨rfl, failed⟩ | ⟨rfl | rfl, running'⟩
    · exact .inl ⟨rfl, failed⟩
    · exact .inr ⟨running', .inl rfl⟩
    · refine .inr ⟨running', .inr ⟨rfl, ?_⟩⟩
      by_contra agreed
      push Not at agreed
      exact absurd (done.heard agreed).1 (by simp)

end

/-! ## Visits of a node -/

section

variable {sort : PlaceSort α} {revisit : α → Walk σ α} {a : α}

section

variable {vs : List (Visitor σ)} {p o : Progress σ} {parts : Walk σ α}

theorem leave_of_failed (failed : p.failure ≠ none) : (leave vs sort revisit a).run p = (a, p) := by
  have stopped : p.failure.isSome = true := Option.isSome_iff_ne_none.mpr failed
  simp only [leave, StateT.run_bind, StateT.run_get, pure_bind, stopped, if_true]
  rfl

theorem leave_passing {act : Option Action} (running : p.failure = none)
    (run : (dispatch vs .leave (sort.node a)).run p = (act, o)) (keeps : ∀ new, act ≠ some (.replace new)) :
    (leave vs sort revisit a).run p = (a, o) := by
  have alive : p.failure.isSome = false := by simp [running]
  simp only [leave, StateT.run_bind, StateT.run_get, pure_bind, alive, run_eq_pure run, Bool.false_eq_true,
    if_false]
  rfl

theorem visit_none
    (run : (dispatch vs .enter (sort.node a)).run
      { p with context := p.context.withKind (sort.node a).kind } = (none, o)) :
    (visit vs sort revisit a parts).run p = (a, o) := by
  simp only [visit, StateT.run_bind, StateT.run_modify, pure_bind, run_eq_pure run]
  rfl

theorem visit_skip
    (run : (dispatch vs .enter (sort.node a)).run
      { p with context := p.context.withKind (sort.node a).kind } = (some .skip, o)) :
    (visit vs sort revisit a parts).run p = (leave vs sort revisit a).run o := by
  simp only [visit, StateT.run_bind, StateT.run_modify, pure_bind, run_eq_pure run]

theorem visit_proceed
    (run : (dispatch vs .enter (sort.node a)).run
      { p with context := p.context.withKind (sort.node a).kind } = (some .proceed, o)) :
    (visit vs sort revisit a parts).run p = (parts >>= leave vs sort revisit).run o := by
  simp only [visit, StateT.run_bind, StateT.run_modify, pure_bind, run_eq_pure run]

end

variable {revisit' : α → Walk (σ × List Call) α} {vs : List (Visitor σ)} {above : List Node}

theorem leave_attends (observes : ∀ v ∈ vs, v.Observes) :
    Attends vs above (above.length + 1) {⟨.leave, above, sort.node a⟩} (leave vs sort revisit a)
      (leave (vs.map Visitor.traced) sort revisit' a) a := by
  intro p running height facts
  obtain ⟨o, act, calls, run, done, -, verdict⟩ := dispatch_runs observes running height facts
  have keeps : ∀ new, act ≠ some (.replace new) := by
    rintro new rfl
    simp at verdict
  exact ⟨o, calls, ⟨leave_passing running run.plain keeps, leave_passing running run.traced keeps⟩, done⟩

theorem withKind_length (c : Context) (kind : NodeKind) : (c.withKind kind).frames.length = c.frames.length := by
  unfold Context.withKind
  split
  · next frames => simp [frames]
  · rfl

theorem withKind_scopes (c : Context) (kind : NodeKind) : (c.withKind kind).scopes = c.scopes := by
  unfold Context.withKind
  split <;> rfl

/-- The visitors are asked on the way in, the parts are walked, and the visitors are asked on the way out. -/
theorem Attends.visits {parts : Walk σ α} {parts' : Walk (σ × List Call) α} (observes : ∀ v ∈ vs, v.Observes)
    (h : Attends vs above (above.length + 1) (Node.stations (sort.node a :: above) (sort.node a).children)
      parts parts' a) :
    Visits vs above (sort.node a) (visit vs sort revisit a parts)
      (visit (vs.map Visitor.traced) sort revisit' a parts') a := by
  intro p running height facts
  -- From here on the frame of the node has its kind.
  let q : Progress (σ × List Call) := { p with context := p.context.withKind (sort.node a).kind }
  have height' : q.context.frames.length = above.length + 1 := (withKind_length ..).trans height
  have facts' : q.context.facts? = above.findSome? Node.facts? := by
    rw [← facts, Context.facts?, Context.facts?, withKind_scopes]
  suffices ∃ o calls, Runs (visit vs sort revisit a parts)
      (visit (vs.map Visitor.traced) sort revisit' a parts') p a o ∧
      Serviced vs (Node.stations above [sort.node a]) q o calls by
    obtain ⟨o, calls, run, done⟩ := this
    exact ⟨o, calls, run, done.move (done.scopes.trans (withKind_scopes ..)) fun ended =>
      (done.height ended).trans (withKind_length ..)⟩
  rw [Node.stations_singleton]
  obtain ⟨m, act, calls, run, done, place, verdict⟩ := dispatch_runs observes (p := q) running height' facts'
  rw [← place] at height' facts'
  have left : Attends vs above _ _ (leave vs sort revisit a) (leave (vs.map Visitor.traced) sort revisit' a) a :=
    leave_attends observes
  rcases verdict with ⟨rfl, failed⟩ | ⟨running', rfl | ⟨rfl, refused⟩⟩
  · exact ⟨m, calls, ⟨visit_none (p := p.plain) run.plain, visit_none run.traced⟩,
      done.cut Set.subset_union_left (done.refused failed)⟩
  · obtain ⟨o, calls', run', done'⟩ :=
      h.bind left (fun _ failed => ⟨leave_of_failed failed, leave_of_failed failed⟩) m running' height' facts'
    exact ⟨o, calls ++ calls', ⟨(visit_proceed (p := p.plain) run.plain).trans run'.plain,
      (visit_proceed run.traced).trans run'.traced⟩, done.trans running' done'⟩
  · obtain ⟨o, calls', run', done'⟩ := left m running' height' facts'
    have refused' : ∃ call ∈ calls ++ calls', call.answer ≠ .ok .proceed := by
      obtain ⟨call, hcall, other⟩ := refused
      exact ⟨call, List.mem_append_left _ hcall, other⟩
    exact ⟨o, calls ++ calls', ⟨(visit_skip (p := p.plain) run.plain).trans run'.plain,
      (visit_skip run.traced).trans run'.traced⟩,
      (done.trans running' done').cut (Set.union_subset_union_right _ Set.subset_union_right) refused'⟩

end

end Walk

end EntitySql
