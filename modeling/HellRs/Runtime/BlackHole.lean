import HellRs.Runtime.Ownership

/-! # Detection of black holes across evaluators

A waiting evaluator has an edge in the wait graph from the moment it registers until it wakes, and
the thunk it waits for can be completed in between. So every real wait is an edge, and a wait that
would close a cycle of real waits is always refused. A refused wait closes such a cycle exactly when
the edges that the walk follows are all of thunks still under evaluation.
-/

namespace HellRs.Runtime

variable {H : Host}

/-- The thunk that a blocked evaluator waits for, and its owner when the evaluator registered. -/
def Phase.awaits : Phase H → Option (ThunkId × EvaluationId)
  | .waiting thunk owner => some (thunk, owner)
  | _ => none

namespace System

open Core Builtins Chase

variable {natives : Natives H} {program : CoreProgram} {limit : FrameLimit}
  {system : System H}

/-- The evaluator is evaluating the thunk. -/
def Owns (system : System H) (owner : EvaluationId) (thunk : ThunkId) : Prop :=
  system.heap[thunk]? = some (.evaluating owner)

/-- The evaluator is blocked until the thunk is ready. -/
def Awaits (system : System H) (waiter : EvaluationId) (thunk : ThunkId) : Prop :=
  ∃ evaluator owner, system.evaluators[waiter]? = some evaluator ∧
    evaluator.phase.awaits = some (thunk, owner)

/-- The first evaluator is blocked on a thunk that the second is evaluating. -/
def WaitsFor (system : System H) (waiter owner : EvaluationId) : Prop :=
  ∃ thunk, system.Awaits waiter thunk ∧ system.Owns owner thunk

/-- A wait of the evaluator for the thunk closes a cycle of owned and awaited thunks. -/
def ClosesCycle (system : System H) (waiter : EvaluationId) (thunk : ThunkId) : Prop :=
  ∃ owner, system.Owns owner thunk ∧ Relation.ReflTransGen system.WaitsFor owner waiter

/-- The evaluator is in the loop of `enter_thunk`. -/
def Enters (system : System H) (id : EvaluationId) (thunk : ThunkId) : Prop :=
  ∃ evaluator, system.evaluators[id]? = some evaluator ∧ evaluator.phase = .entering thunk

/-- The next step of the evaluator raises a black hole. -/
def Reports (natives : Natives H) (program : CoreProgram) (limit : FrameLimit) (system : System H)
    (id : EvaluationId) : Prop :=
  ∃ next evaluator error, system.act natives program limit (.step id) = some next ∧
    next.evaluators[id]? = some evaluator ∧ evaluator.phase = .loop (.raise error) ∧
    error.kind = .blackHole

/-- The next step of the evaluator blocks it. -/
def Blocks (natives : Natives H) (program : CoreProgram) (limit : FrameLimit) (system : System H)
    (id : EvaluationId) : Prop :=
  ∃ next thunk, system.act natives program limit (.step id) = some next ∧ next.Awaits id thunk

/-- Every edge that leads from the owner to the waiter is of a thunk still under evaluation. -/
def LiveWalk (system : System H) (owner waiter : EvaluationId) : Prop :=
  ∀ first second, Leads system.waits.next owner first → system.waits.next first = some second →
    Leads system.waits.next second waiter → system.WaitsFor first second

section WaitGraph

theorem next_key {graph : WaitGraph} (waiter owner : EvaluationId)
    (link : graph.next waiter = some owner) : waiter ∈ graph.map Prod.fst := by
  simp only [WaitGraph.next, Option.map_eq_some_iff] at link
  obtain ⟨edge, found, rfl⟩ := link
  obtain rfl : edge.1 = waiter := by simpa using List.find?_some found
  exact List.mem_map_of_mem (List.mem_of_find?_eq_some found)

theorem next_remove (graph : WaitGraph) (removed waiter : EvaluationId) :
    (graph.remove removed).next waiter = if waiter = removed then none else graph.next waiter := by
  simp only [WaitGraph.next, WaitGraph.remove, List.find?_filter]
  split_ifs with same
  · subst same
    simp
  · congr 2
    funext edge
    by_cases eq : edge.1 = waiter
    · simp [eq, same]
    · simp [eq]

/-- `register_wait` refuses a wait exactly when the graph leads from the owner to the waiter. -/
theorem registerWait_eq_none {graph : WaitGraph} {waiter owner : EvaluationId} :
    registerWait graph waiter owner = none ↔ Leads graph.next owner waiter := by
  rw [← meets_iff (graph.map Prod.fst) next_key (graph.length + 1) (by simp)]
  simp [registerWait]

theorem registerWait_next {graph graph' : WaitGraph} {waiter owner : EvaluationId}
    (registered : registerWait graph waiter owner = some graph') (other : EvaluationId) :
    graph'.next other = if other = waiter then some owner else graph.next other := by
  simp only [registerWait] at registered
  split at registered
  next => cases registered
  next =>
    cases registered
    by_cases same : other = waiter
    · simp [WaitGraph.next, same]
    · have rest := next_remove graph waiter other
      simp only [same, if_false] at rest
      rw [if_neg same, ← rest]
      simp [WaitGraph.next, WaitGraph.remove, Ne.symm same]

end WaitGraph

/-- What an action of one evaluator does to the wait graph. -/
inductive WaitEffect (self : EvaluationId) (state next : Local H) : Prop
  | unchanged (same : next.waits = state.waits) (blocked : next.phase.awaits = state.phase.awaits)
  | register (thunk : ThunkId) (owner : EvaluationId)
      (here : state.heap[thunk]? = some (.evaluating owner)) (before : state.phase = .entering thunk)
      (registered : registerWait state.waits self owner = some next.waits)
      (after : next.phase.awaits = some (thunk, owner))
  | wake (removed : next.waits = state.waits.remove self) (after : next.phase.awaits = none)

section Steps

variable {self : EvaluationId} {state next : Local H}

theorem settle_waits (stack : Stack H) (transition : Fresh H ThunkId (Pushed H ThunkId)) :
    (state.settle limit stack transition).waits = state.waits := by
  simp only [Local.settle]
  split
  · rfl
  · split
    · rfl
    · split <;> rfl

theorem settle_awaits (stack : Stack H) (transition : Fresh H ThunkId (Pushed H ThunkId)) :
    (state.settle limit stack transition).phase.awaits = none := by
  simp only [Local.settle]
  split
  · rfl
  · split
    · rfl
    · split <;> rfl

theorem leave_awaits (result : Except RuntimeError (Value H ThunkId)) (stack : Stack H) :
    (state.leave natives result stack).phase.awaits = none := by
  rcases stack with _ | ⟨frame, stack⟩
  · rfl
  · cases frame <;> rfl

theorem WaitEffect.apart (same : next.waits = state.waits) (before : state.phase.awaits = none)
    (after : next.phase.awaits = none) : WaitEffect self state next :=
  .unchanged same (after.trans before.symm)

theorem iterate_waits (control : Control H ThunkId) :
    (state.iterate natives program limit control).waits = state.waits ∧
      (state.iterate natives program limit control).phase.awaits = none := by
  cases control with
  | raise error => exact ⟨rfl, rfl⟩
  | returned outcome =>
    cases outcome with
    | aliasOf target =>
      simp only [Local.iterate]
      split <;> exact ⟨rfl, rfl⟩
    | value value =>
      simp only [Local.iterate]
      split
      · exact ⟨rfl, rfl⟩
      · exact ⟨settle_waits _ _, settle_awaits _ _⟩
      · exact ⟨rfl, leave_awaits _ _⟩
  | enter thunk => exact ⟨rfl, rfl⟩
  | evaluate node environment => exact ⟨settle_waits _ _, settle_awaits _ _⟩

theorem enterThunk_waitEffect {thunk : ThunkId} (here : state.phase = .entering thunk)
    (step : state.enterThunk limit self thunk = some next) : WaitEffect self state next := by
  have before : state.phase.awaits = none := by rw [here]; rfl
  simp only [Local.enterThunk] at step
  split at step
  next => cases step
  next => cases step; exact .apart rfl before rfl
  next => cases step; exact .apart rfl before rfl
  next => cases step; exact .apart rfl before rfl
  next owner evaluating =>
    split at step
    next => cases step; exact .apart rfl before rfl
    next =>
      split at step
      next => cases step; exact .apart rfl before rfl
      next waits registered =>
        cases step
        exact .register thunk owner evaluating here registered rfl
  next =>
    split at step
    next => cases step; exact .apart rfl before rfl
    next => cases step; exact .apart (settle_waits _ _) before (settle_awaits _ _)

theorem step_waitEffect (step : state.step natives program limit self = some next) :
    WaitEffect self state next := by
  simp only [Local.step] at step
  split at step
  next => cases step
  next => cases step
  next control here =>
    have before : state.phase.awaits = none := by rw [here]; rfl
    split at step
    next => cases step; exact .apart rfl before rfl
    next => cases step; exact .apart (iterate_waits control).1 before (iterate_waits control).2
  next thunk here => exact enterThunk_waitEffect here step
  next thunk owner here => cases step; exact .wake rfl rfl
  next here =>
    have before : state.phase.awaits = none := by rw [here]; rfl
    split at step <;> cases step <;> exact .apart rfl before rfl
  next running here =>
    have before : state.phase.awaits = none := by rw [here]; rfl
    cases step
    simp only [Local.advance]
    split <;> exact .apart rfl before rfl
  next error here =>
    have before : state.phase.awaits = none := by rw [here]; rfl
    cases step
    simp only [Local.unwind]
    split
    next => exact .apart rfl before rfl
    next => exact .apart rfl before rfl
    next => exact .apart rfl before (leave_awaits _ _)
  next error guards here =>
    have before : state.phase.awaits = none := by rw [here]; rfl
    cases step
    cases guards with
    | nil => exact .apart rfl before (leave_awaits _ _)
    | cons => exact .apart rfl before rfl

theorem Acts.waitEffect {action : Action H}
    (acts : Acts natives program limit self state action next) :
    WaitEffect self state next := by
  cases acts with
  | force thunk resting =>
    refine .apart rfl ?_ rfl
    rcases resting with isIdle | ⟨result, isFinished⟩
    · rw [isIdle]; rfl
    · rw [isFinished]; rfl
  | step step => exact step_waitEffect step
  | cancel => exact .unchanged rfl rfl
  | exhaust => exact .unchanged rfl rfl

end Steps

/-- The thunk is under evaluation by this evaluator, or has its result. -/
def Held (heap : Heap H) (thunk : ThunkId) (owner : EvaluationId) : Prop :=
  ∃ state, heap[thunk]? = some state ∧ (state = .evaluating owner ∨ state.Settled)

theorem Held.effect {heap heap' : Heap H} {thunk : ThunkId} {owner : EvaluationId}
    (held : Held heap thunk owner) {self : EvaluationId} {aliasing : ThunkId → ThunkId → Prop}
    {holds holds' : List ThunkId} (effect : Effect self aliasing heap heap' holds holds') : Held heap' thunk owner := by
  obtain ⟨state, here, cases⟩ := held
  cases effect with
  | quiet grows => exact ⟨state, grows.get here, cases⟩
  | claim claimed suspension suspended grows =>
    have other : claimed ≠ thunk := by
      rintro rfl
      rcases cases with rfl | settled
      · simp [here] at suspended
      · rw [here] at suspended
        cases suspended
        exact settled
    exact ⟨state, grows.get (by rw [List.getElem?_set_ne other, here]), cases⟩
  | settle stored settledState settled _ heap' =>
    rw [heap']
    by_cases same : stored = thunk
    · subst same
      exact ⟨settledState, by simp [(List.getElem?_eq_some_iff.mp here).1], .inr settled⟩
    · exact ⟨state, by rw [List.getElem?_set_ne same, here], cases⟩

/-- The wait graph has an edge for each blocked evaluator, to the one that was evaluating the thunk
when it registered. -/
structure Registered (system : System H) : Prop where
  edge : ∀ waiter owner, system.waits.next waiter = some owner ↔
    ∃ evaluator thunk, system.evaluators[waiter]? = some evaluator ∧
      evaluator.phase.awaits = some (thunk, owner)
  held : ∀ (waiter : EvaluationId) (evaluator : Evaluator H) thunk owner,
    system.evaluators[waiter]? = some evaluator → evaluator.phase.awaits = some (thunk, owner) →
      Held system.heap thunk owner

theorem Initial.registered (initial : system.Initial) : system.Registered := by
  have none : ∀ (waiter : EvaluationId) (evaluator : Evaluator H),
      system.evaluators[waiter]? = some evaluator → evaluator.phase.awaits = none := by
    intro waiter evaluator here
    rw [(initial.evaluators evaluator (List.mem_of_getElem? here)).1]
    rfl
  refine ⟨fun waiter owner => ?_, ?_⟩
  · simp only [initial.waits, WaitGraph.next, List.find?_nil, Option.map_none, reduceCtorEq, false_iff]
    rintro ⟨evaluator, thunk, here, awaits⟩
    simp [none waiter evaluator here] at awaits
  · intro waiter evaluator thunk owner here awaits
    simp [none waiter evaluator here] at awaits

/-- The blocked evaluators after an action of one evaluator. -/
theorem update_awaits {id waiter : EvaluationId} {evaluator : Evaluator H} {state : Local H}
    {owner : EvaluationId} (here : system.evaluators[id]? = some evaluator) :
    (∃ found thunk, (system.update id state).evaluators[waiter]? = some found ∧
      found.phase.awaits = some (thunk, owner)) ↔
    if waiter = id then ∃ thunk, state.phase.awaits = some (thunk, owner)
    else ∃ found thunk, system.evaluators[waiter]? = some found ∧
      found.phase.awaits = some (thunk, owner) := by
  simp only [update_evaluators here]
  split_ifs with same
  · simp [Local.phase]
  · rfl

theorem Registered.update (registered : system.Registered) {id : EvaluationId}
    {evaluator : Evaluator H} {state : Local H} (here : system.evaluators[id]? = some evaluator)
    {aliasing : ThunkId → ThunkId → Prop}
    (effect : Effect id aliasing system.heap state.heap evaluator.holds state.evaluator.holds)
    (waitEffect : WaitEffect id (system.view evaluator) state) :
    (system.update id state).Registered := by
  constructor
  · intro waiter owner
    rw [update_awaits here]
    change state.waits.next waiter = some owner ↔ _
    cases waitEffect with
    | unchanged same blocked =>
      rw [same, blocked]
      refine (registered.edge waiter owner).trans ?_
      split_ifs with isSelf
      · subst isSelf
        simp [here, view, Local.phase]
      · rfl
    | register thunk found _ _ isRegistered after =>
      rw [registerWait_next isRegistered, after]
      split_ifs with isSelf
      · simp
      · exact registered.edge waiter owner
    | wake removed after =>
      rw [removed, next_remove, after]
      split_ifs with isSelf
      · simp
      · exact registered.edge waiter owner
  · intro waiter found thunk owner isFound awaits
    rw [update_evaluators here] at isFound
    split_ifs at isFound with isSelf
    · obtain rfl := Option.some.inj isFound
      refine Held.effect ?_ effect
      cases waitEffect with
      | unchanged same blocked =>
        exact registered.held id evaluator thunk owner here (blocked.symm.trans awaits)
      | register awaited holder evaluating _ _ after =>
        obtain ⟨rfl, rfl⟩ : awaited = thunk ∧ holder = owner := by
          simpa using after.symm.trans awaits
        exact ⟨_, evaluating, .inl rfl⟩
      | wake _ after => cases after.symm.trans awaits
    · exact (registered.held waiter found thunk owner isFound awaits).effect effect

/-- In a reachable state the edges of the wait graph are those of the blocked evaluators. -/
theorem Reachable.registered (reachable : Reachable natives program limit system) :
    system.Registered := by
  refine reachable.induction (fun system initial => initial.registered) ?_
  intro system action next reached registered acted
  rcases act_cases acted with ⟨id, evaluator, state, here, acts, rfl⟩ | ⟨cell, rfl, rfl⟩
  · exact registered.update here (acts.effect (reached.rested id evaluator here)) acts.waitEffect
  · refine ⟨registered.edge, fun waiter evaluator thunk owner here awaits => ?_⟩
    obtain ⟨state, found, cases⟩ := registered.held waiter evaluator thunk owner here awaits
    exact ⟨state, (system.heap.grows_allocate cell).get found, cases⟩

/-- A real wait is an edge of the wait graph. -/
theorem Registered.next (registered : system.Registered) {waiter owner : EvaluationId}
    (waits : system.WaitsFor waiter owner) : system.waits.next waiter = some owner := by
  obtain ⟨thunk, ⟨evaluator, former, here, awaits⟩, owns⟩ := waits
  obtain ⟨state, found, cases⟩ := registered.held waiter evaluator thunk former here awaits
  obtain rfl := Option.some.inj (owns.symm.trans found)
  obtain same : owner = former := by
    rcases cases with same | settled
    · simpa using same
    · exact settled.elim
  rw [same]
  exact (registered.edge waiter former).mpr ⟨evaluator, thunk, here, awaits⟩

theorem Registered.leads (registered : system.Registered) {first last : EvaluationId}
    (chain : Relation.ReflTransGen system.WaitsFor first last) :
    Leads system.waits.next first last :=
  Relation.ReflTransGen.mono (fun _ _ waits => registered.next waits) _ _ chain

/-- An evaluator in the loop of `enter_thunk` has no edge. -/
theorem Registered.enters_next (registered : system.Registered) {id : EvaluationId}
    {thunk : ThunkId} (enters : system.Enters id thunk) : system.waits.next id = none := by
  obtain ⟨evaluator, here, entering⟩ := enters
  cases next : system.waits.next id with
  | none => rfl
  | some owner =>
    obtain ⟨found, awaited, isFound, awaits⟩ := (registered.edge id owner).mp next
    obtain rfl := Option.some.inj (here.symm.trans isFound)
    rw [entering] at awaits
    cases awaits

/-- The next step of an evaluator that runs. -/
theorem act_step {id : EvaluationId} {evaluator : Evaluator H} {state : Local H}
    (here : system.evaluators[id]? = some evaluator)
    (step : (system.view evaluator).step natives program limit id = some state) :
    system.act natives program limit (.step id) = some (system.update id state) := by
  simp [act, System.evaluator, here, step]

theorem reports_of_step {id : EvaluationId} {evaluator : Evaluator H} {state : Local H}
    (here : system.evaluators[id]? = some evaluator)
    (step : (system.view evaluator).step natives program limit id = some state) :
    Reports natives program limit system id ↔
      ∃ error, state.phase = .loop (.raise error) ∧ error.kind = .blackHole := by
  simp [Reports, act_step here step, update_evaluators here, Local.phase]

theorem blocks_of_step {id : EvaluationId} {evaluator : Evaluator H} {state : Local H}
    (here : system.evaluators[id]? = some evaluator)
    (step : (system.view evaluator).step natives program limit id = some state) :
    Blocks natives program limit system id ↔ (state.phase.awaits).isSome := by
  simp [Blocks, Awaits, act_step here step, update_evaluators here, Local.phase, Option.isSome_iff_exists]

/-- On a thunk under evaluation, one round of `enter_thunk` reports a black hole if the wait graph
leads from the owner to the evaluator, and blocks otherwise. -/
theorem enters_owned {id owner : EvaluationId} {thunk : ThunkId} (enters : system.Enters id thunk)
    (owns : system.Owns owner thunk) :
    (Reports natives program limit system id ↔ Leads system.waits.next owner id) ∧
      (Blocks natives program limit system id ↔ ¬Leads system.waits.next owner id) := by
  obtain ⟨evaluator, here, entering⟩ := enters
  have stepped : (system.view evaluator).step natives program limit id =
      (system.view evaluator).enterThunk limit id thunk := by
    simp [Local.step, view, Local.phase, entering]
  by_cases own : owner = id
  · have step : (system.view evaluator).enterThunk limit id thunk =
        some ((system.view evaluator).move (.loop (.raise .blackHole)) evaluator.stack) := by
      simp [Local.enterThunk, view, show system.heap[thunk]? = _ from owns, own, Local.stack]
    have leads : Leads system.waits.next owner id := own ▸ Leads.refl owner
    rw [reports_of_step here (stepped.trans step), blocks_of_step here (stepped.trans step)]
    simp [leads, RuntimeError.blackHole, Phase.awaits]
  · cases registered : registerWait system.waits id owner with
    | none =>
      have step : (system.view evaluator).enterThunk limit id thunk =
          some ((system.view evaluator).move (.loop (.raise .waitCycle)) evaluator.stack) := by
        simp [Local.enterThunk, view, show system.heap[thunk]? = _ from owns, own, registered, Local.stack]
      rw [reports_of_step here (stepped.trans step), blocks_of_step here (stepped.trans step)]
      simp [registerWait_eq_none.mp registered, RuntimeError.waitCycle, Phase.awaits]
    | some waits =>
      have step : (system.view evaluator).enterThunk limit id thunk =
          some ({ system.view evaluator with waits }.move (.waiting thunk owner) evaluator.stack) := by
        simp [Local.enterThunk, view, show system.heap[thunk]? = _ from owns, own, registered, Local.stack]
      have apart : ¬Leads system.waits.next owner id := by
        rw [← registerWait_eq_none, registered]
        exact Option.some_ne_none waits
      rw [reports_of_step here (stepped.trans step), blocks_of_step here (stepped.trans step)]
      simp [apart, Phase.awaits]

/-- The edges from the owner to the waiter are real waits if the waits form a chain there. -/
theorem Registered.liveWalk (registered : system.Registered) {owner waiter : EvaluationId}
    (final : system.waits.next waiter = none)
    (chain : Relation.ReflTransGen system.WaitsFor owner waiter) : system.LiveWalk owner waiter := by
  induction chain using Relation.ReflTransGen.head_induction_on with
  | refl =>
    intro first second leads link _
    rcases leads.cases_head with rfl | ⟨_, next, _⟩
    · simp [final] at link
    · simp [final] at next
  | head waits _ ih =>
    intro first second leads link rest
    have next := registered.next waits
    rcases leads.cases_head with rfl | ⟨after, isNext, leads⟩
    · obtain rfl := Option.some.inj (next.symm.trans link)
      exact waits
    · obtain rfl := Option.some.inj (next.symm.trans isNext)
      exact ih first second leads link rest

/-- Live edges to the waiter are a chain of waits. -/
theorem LiveWalk.chain {owner waiter : EvaluationId} (live : system.LiveWalk owner waiter)
    (leads : Leads system.waits.next owner waiter) :
    Relation.ReflTransGen system.WaitsFor owner waiter := by
  have walk : ∀ middle, Leads system.waits.next owner middle →
      Leads system.waits.next middle waiter →
        Relation.ReflTransGen system.WaitsFor middle waiter := by
    intro middle before after
    induction after using Relation.ReflTransGen.head_induction_on with
    | refl => exact .refl
    | head link rest ih =>
      exact .head (live _ _ before link rest) (ih (before.tail link))
  exact walk owner (.refl owner) leads

/-- In every state of every run: a wait that would close a cycle of evaluators blocked on thunks
that are still under evaluation is refused, and a refused wait closes such a cycle exactly when the
edges on its walk are of thunks still under evaluation. -/
theorem detection_exact_iff (reachable : Reachable natives program limit system)
    {id owner : EvaluationId} {thunk : ThunkId} (enters : system.Enters id thunk)
    (owns : system.Owns owner thunk) :
    (system.ClosesCycle id thunk →
      Reports natives program limit system id ∧ ¬Blocks natives program limit system id) ∧
    ((Reports natives program limit system id → system.ClosesCycle id thunk) ↔
      system.LiveWalk owner id) := by
  have registered := reachable.registered
  obtain ⟨reports, blocks⟩ := @enters_owned H natives program limit system id owner thunk enters owns
  have closes : system.ClosesCycle id thunk ↔ Relation.ReflTransGen system.WaitsFor owner id := by
    constructor
    · rintro ⟨found, isOwner, chain⟩
      obtain rfl : owner = found := by simpa [Owns] using owns.symm.trans isOwner
      exact chain
    · exact fun chain => ⟨owner, owns, chain⟩
  rw [reports, blocks, closes]
  refine ⟨fun chain => ⟨registered.leads chain, not_not.mpr (registered.leads chain)⟩, ?_, ?_⟩
  · intro sound first second leads link rest
    have chain := sound (leads.trans (rest.head link))
    exact registered.liveWalk (registered.enters_next enters) chain first second leads link rest
  · exact fun live leads => live.chain leads

section StaleEdge

/-- Native code is not used here. -/
def bare : Host := ⟨Unit, Unit⟩

def bareNatives : Natives bare where
  builtin _ _ := ()
  act _ _ := .panic
  resume operation captured _ := (operation, captured)
  allocated operation captured _ := (operation, captured)

/-- The function `\x -> x`. -/
def identityProgram : CoreProgram where
  root := 0
  nodes := [⟨1, ⟨0, 0, 0⟩, .lambda 0 1⟩, ⟨0, ⟨0, 0, 0⟩, .boundVar 0 .identity⟩]
  types := ⟨[.constructor "()" Types.KindArena.TYPE, .function 0 0]⟩
  mainType := 1
  instanceEvidence := []

/-- A thunk of the function, and a thunk that applies it. -/
def sharedThunks : System bare where
  heap := [.suspended (.expression 0 []), .suspended (.apply 0 0)]
  waits := []
  evaluators := [⟨.idle, [], false, none⟩, ⟨.idle, [], false, none⟩]

/-- The second evaluator claims the function, the first claims the application and waits for the
function, and the second completes the function and enters the application. -/
def staleActions : List (Action bare) :=
  [.force 1 0, .step 1, .step 1, .force 0 1, .step 0, .step 0, .step 0, .step 0, .step 1, .step 1,
    .step 1, .force 1 1, .step 1]

/-- The function has its value, and the first evaluator has not woken yet. -/
def staleSystem : System bare where
  heap := [.evaluated (.function (.guest 1 [])), .evaluating 0]
  waits := [(0, 1)]
  evaluators := [⟨.waiting 0 1, [.continuation (.apply 0), .update 1], false, none⟩,
    ⟨.entering 1, [], false, none⟩]

theorem acts_stale :
    sharedThunks.acts bareNatives identityProgram none staleActions = some staleSystem := rfl

theorem sharedThunks_initial : sharedThunks.Initial := by
  refine ⟨?_, rfl, by simp [sharedThunks]⟩
  intro thunk owner
  match thunk with
  | 0 => simp [sharedThunks]
  | 1 => simp [sharedThunks]
  | _ + 2 => simp [sharedThunks]

theorem stale_reachable : Reachable bareNatives identityProgram none staleSystem :=
  ⟨sharedThunks, staleActions, sharedThunks_initial, run_of_acts acts_stale⟩

theorem stale_enters : staleSystem.Enters 1 1 := ⟨_, rfl, rfl⟩

theorem stale_owns : staleSystem.Owns 0 1 := rfl

theorem stale_detection :
    (staleSystem.ClosesCycle 1 1 → Reports bareNatives identityProgram none staleSystem 1 ∧
      ¬Blocks bareNatives identityProgram none staleSystem 1) ∧
    ((Reports bareNatives identityProgram none staleSystem 1 → staleSystem.ClosesCycle 1 1) ↔
      staleSystem.LiveWalk 0 1) :=
  detection_exact_iff stale_reachable stale_enters stale_owns

/-- A black hole is reported although the first evaluator waits for a completed thunk. -/
theorem black_hole_without_cycle : ¬∀ (H : Host) (natives : Natives H) (program : CoreProgram)
    (limit : FrameLimit) (system : System H), Reachable natives program limit system →
      ∀ id thunk owner, system.Enters id thunk → system.Owns owner thunk →
        Reports natives program limit system id → system.ClosesCycle id thunk := by
  intro sound
  have reports : Reports bareNatives identityProgram none staleSystem 1 :=
    ⟨_, _, .waitCycle, rfl, rfl, rfl, rfl⟩
  obtain ⟨owner, owns, chain⟩ :=
    sound bare bareNatives identityProgram none staleSystem stale_reachable 1 1 0 stale_enters
      stale_owns reports
  obtain rfl : 0 = owner := by simpa [staleSystem, Owns] using owns
  rcases Relation.ReflTransGen.cases_head chain with same | ⟨next, waits, _⟩
  · cases same
  · obtain ⟨thunk, ⟨evaluator, former, here, awaits⟩, owned⟩ := waits
    obtain rfl := Option.some.inj here
    cases awaits
    cases owned

end StaleEdge

end System

end HellRs.Runtime
