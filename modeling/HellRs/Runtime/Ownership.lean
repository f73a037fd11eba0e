import HellRs.Runtime.System

/-! # What a step does to the thunks

A step of an evaluator leaves the existing thunks alone, claims a suspended thunk, or stores a final
state in the thunk it has claimed last. From this: an evaluator is evaluating exactly the thunks
whose update guards it holds, in every state of every run.
-/

namespace HellRs.Runtime

open Core Builtins

variable {H : Host}

namespace ThunkState

/-- The thunk has its result. -/
def Settled : ThunkState H → Prop
  | evaluated _ | indirection _ | failed _ => True
  | _ => False

/-- A state of a new thunk. -/
def Initial : ThunkState H → Prop
  | suspended _ | evaluated _ => True
  | _ => False

end ThunkState

namespace Heap

/-- The heap with some new thunks. -/
def Grows (heap heap' : Heap H) : Prop :=
  ∃ new, heap' = heap ++ new ∧ ∀ state ∈ new, ThunkState.Initial state

theorem Grows.refl (heap : Heap H) : heap.Grows heap := ⟨[], by simp, by simp⟩

theorem Grows.trans {heap heap' heap'' : Heap H} (first : heap.Grows heap')
    (second : heap'.Grows heap'') : heap.Grows heap'' := by
  obtain ⟨new, rfl, initial⟩ := first
  obtain ⟨new', rfl, initial'⟩ := second
  refine ⟨new ++ new', by simp, ?_⟩
  intro state member
  rcases List.mem_append.mp member with member | member
  · exact initial state member
  · exact initial' state member

theorem grows_allocate (heap : Heap H) (cell : Cell H ThunkId) : heap.Grows (heap.allocate cell) := by
  refine ⟨[cell.state heap.length], rfl, ?_⟩
  simp only [List.mem_singleton, forall_eq]
  cases cell <;> trivial

theorem Grows.get {heap heap' : Heap H} (grows : heap.Grows heap') {thunk : ThunkId}
    {state : ThunkState H} (here : heap[thunk]? = some state) : heap'[thunk]? = some state := by
  obtain ⟨new, rfl, _⟩ := grows
  rw [List.getElem?_append_left (List.getElem?_eq_some_iff.mp here).1, here]

/-- A thunk of the larger heap is an old one or has an initial state. -/
theorem Grows.get_iff {heap heap' : Heap H} (grows : heap.Grows heap') {thunk : ThunkId}
    {state : ThunkState H} (here : heap'[thunk]? = some state) :
    heap[thunk]? = some state ∨ heap[thunk]? = none ∧ state.Initial := by
  obtain ⟨new, rfl, initial⟩ := grows
  rcases lt_or_ge thunk heap.length with old | isNew
  · rw [List.getElem?_append_left old] at here
    exact .inl here
  · rw [List.getElem?_append_right isNew] at here
    exact .inr ⟨List.getElem?_eq_none isNew, initial state (List.mem_of_getElem? here)⟩

theorem Grows.evaluating_iff {heap heap' : Heap H} (grows : heap.Grows heap') {thunk : ThunkId}
    {owner : EvaluationId} :
    heap'[thunk]? = some (.evaluating owner) ↔ heap[thunk]? = some (.evaluating owner) := by
  constructor
  · intro here
    rcases grows.get_iff here with old | ⟨_, initial⟩
    · exact old
    · exact initial.elim
  · exact grows.get

end Heap

theorem Fresh.onHeap_grows {α : Type} (computation : Fresh H ThunkId α) (heap : Heap H) :
    heap.Grows (computation.onHeap heap).2 := by
  induction computation generalizing heap with
  | done result => exact .refl heap
  | allocate cell next ih => exact (heap.grows_allocate cell).trans (ih _ _)

/-- The guards that are yet to drop. -/
def Phase.guards : Phase H → List ThunkId
  | .dropping _ guards => guards
  | _ => []

/-- The thunks whose update guards the evaluator holds. -/
def Evaluator.holds (evaluator : Evaluator H) : List ThunkId :=
  evaluator.phase.guards ++ evaluator.stack.owned

/-- What a step of an evaluator does to the thunks. The evaluator makes the first thunk an alias of
the second only if it is aliasing them. -/
inductive Effect (self : EvaluationId) (aliasing : ThunkId → ThunkId → Prop) (heap heap' : Heap H)
    (holds holds' : List ThunkId) : Prop
  | quiet (grows : heap.Grows heap') (same : holds'.Perm holds)
  | claim (thunk : ThunkId) (suspension : Suspension H ThunkId)
      (here : heap[thunk]? = some (.suspended suspension))
      (grows : Heap.Grows (heap.set thunk (.evaluating self)) heap')
      (same : holds'.Perm (thunk :: holds))
  | settle (thunk : ThunkId) (state : ThunkState H) (settled : state.Settled)
      (linked : ∀ target, state = .indirection target → aliasing thunk target)
      (stored : heap' = heap.set thunk state) (same : holds.Perm (thunk :: holds'))

namespace Stack

@[simp] theorem owned_nil : Stack.owned ([] : Stack H) = [] := rfl

@[simp] theorem owned_update (thunk : ThunkId) (stack : Stack H) :
    Stack.owned (.update thunk :: stack) = thunk :: stack.owned := rfl

@[simp] theorem owned_continuation (frame : Continuation ThunkId) (stack : Stack H) :
    Stack.owned (.continuation frame :: stack) = stack.owned := rfl

@[simp] theorem owned_forcing (caller : Running H ThunkId) (stack : Stack H) :
    Stack.owned (.forcing caller :: stack) = stack.owned := rfl

@[simp] theorem owned_append (first second : Stack H) :
    Stack.owned (first ++ second) = first.owned ++ second.owned :=
  List.filterMap_append ..

@[simp] theorem owned_continuations (pushed : List (Continuation ThunkId)) :
    Stack.owned (pushed.map .continuation : Stack H) = [] := by
  induction pushed with
  | nil => rfl
  | cons frame pushed ih => simpa using ih

@[simp] theorem current_update (thunk : ThunkId) (stack : Stack H) :
    Stack.current (.update thunk :: stack) = .update thunk :: stack.current := rfl

@[simp] theorem current_continuation (frame : Continuation ThunkId) (stack : Stack H) :
    Stack.current (.continuation frame :: stack) = .continuation frame :: stack.current := rfl

theorem mem_guards {stack : Stack H} {thunk : ThunkId} :
    thunk ∈ stack.guards ↔ thunk ∈ stack.current.owned := List.mem_reverse

theorem current_append_below (stack : Stack H) : stack.current ++ stack.below = stack :=
  List.takeWhile_append_dropWhile

/-- Dropping the current stack releases what it owns. -/
theorem guards_append_below (stack : Stack H) :
    (stack.guards ++ stack.below.owned).Perm stack.owned := by
  have split : stack.owned = stack.current.owned ++ stack.below.owned := by
    rw [← owned_append, current_append_below]
  rw [split]
  exact (List.reverse_perm _).append_right _

end Stack

namespace Local

variable {natives : Natives H} {program : CoreProgram} {limit : FrameLimit} {self : EvaluationId}
  {state next : Local H}

/-- The next iteration of the evaluator stores an alias of the target in the thunk. -/
def Aliases (state : Local H) (thunk target : ThunkId) : Prop :=
  state.phase = .loop (.returned (.aliasOf target)) ∧ state.evaluator.stopped = none ∧
    ∃ rest, state.stack = .update thunk :: rest

/-- The thunks whose guards the evaluator holds. -/
def holds (state : Local H) : List ThunkId := state.evaluator.holds

@[simp] theorem move_heap (phase : Phase H) (stack : Stack H) :
    (state.move phase stack).heap = state.heap := rfl

@[simp] theorem move_waits (phase : Phase H) (stack : Stack H) :
    (state.move phase stack).waits = state.waits := rfl

@[simp] theorem move_phase (phase : Phase H) (stack : Stack H) :
    (state.move phase stack).phase = phase := rfl

@[simp] theorem move_stack (phase : Phase H) (stack : Stack H) :
    (state.move phase stack).stack = stack := rfl

@[simp] theorem move_holds (phase : Phase H) (stack : Stack H) :
    (state.move phase stack).holds = phase.guards ++ stack.owned := rfl

theorem holds_eq : state.holds = state.phase.guards ++ state.stack.owned := rfl

@[simp] theorem leave_heap (result : Except RuntimeError (Value H ThunkId)) (stack : Stack H) :
    (state.leave natives result stack).heap = state.heap := rfl

@[simp] theorem leave_holds (result : Except RuntimeError (Value H ThunkId)) (stack : Stack H) :
    (state.leave natives result stack).holds = stack.owned := by
  rcases stack with _ | ⟨frame, stack⟩
  · rfl
  · cases frame <;> rfl

@[simp] theorem drop_heap (error : RuntimeError) : (state.drop error).heap = state.heap := rfl

theorem drop_holds (error : RuntimeError) : (state.drop error).holds.Perm state.stack.owned :=
  state.stack.guards_append_below

theorem settle_heap (stack : Stack H) (transition : Fresh H ThunkId (Pushed H ThunkId)) :
    (state.settle limit stack transition).heap = (transition.onHeap state.heap).2 := by
  simp only [settle]
  split
  · rfl
  · split
    · rfl
    · split <;> rfl

theorem settle_holds (stack : Stack H) (transition : Fresh H ThunkId (Pushed H ThunkId)) :
    (state.settle limit stack transition).holds = stack.owned := by
  simp only [settle]
  split
  · rfl
  · split
    · rfl
    · split <;> simp [Phase.guards]

/-- A transition on a stack allocates, and keeps what the stack owns. -/
theorem settle_quiet (stack : Stack H) (transition : Fresh H ThunkId (Pushed H ThunkId))
    {holds : List ThunkId} (same : stack.owned = holds) :
    Effect self state.Aliases state.heap (state.settle limit stack transition).heap holds
      (state.settle limit stack transition).holds :=
  .quiet (by rw [settle_heap]; exact transition.onHeap_grows _) (by rw [settle_holds, same])

theorem iterate_effect (control : Control H ThunkId) (here : state.phase = .loop control)
    (running : state.evaluator.stopped = none) :
    Effect self state.Aliases state.heap (state.iterate natives program limit control).heap state.holds
      (state.iterate natives program limit control).holds := by
  have owned : state.holds = state.stack.owned := by simp [holds_eq, here, Phase.guards]
  rw [owned]
  cases control with
  | raise error => exact .quiet (.refl _) .rfl
  | returned outcome =>
    cases outcome with
    | aliasOf target =>
      simp only [iterate]
      split
      next thunk stack isTop =>
        refine .settle thunk (.indirection target) trivial ?_ rfl (by rw [isTop]; exact .rfl)
        rintro _ ⟨⟩
        exact ⟨here, running, stack, isTop⟩
      next => exact .quiet (.refl _) .rfl
    | value value =>
      simp only [iterate]
      split
      next thunk stack isTop =>
        rw [isTop]
        exact .settle thunk (.evaluated value) trivial (fun _ => nofun) rfl .rfl
      next frame stack isTop =>
        rw [isTop]
        exact settle_quiet stack _ rfl
      next => exact .quiet (.refl _) (by simp)
  | enter thunk => exact .quiet (.refl _) .rfl
  | evaluate node environment => exact settle_quiet _ _ rfl

theorem enterThunk_effect {thunk : ThunkId} (here : state.phase = .entering thunk)
    (step : state.enterThunk limit self thunk = some next) :
    Effect self state.Aliases state.heap next.heap state.holds next.holds := by
  have owned : state.holds = state.stack.owned := by simp [holds_eq, here, Phase.guards]
  rw [owned]
  simp only [enterThunk] at step
  split at step
  next => cases step
  next => cases step; exact .quiet (.refl _) .rfl
  next => cases step; exact .quiet (.refl _) .rfl
  next => cases step; exact .quiet (.refl _) .rfl
  next =>
    split at step
    · cases step; exact .quiet (.refl _) .rfl
    · split at step <;> cases step <;> exact .quiet (.refl _) .rfl
  next suspension found =>
    split at step
    next => cases step; exact .quiet (.refl _) .rfl
    next =>
      cases step
      refine .claim thunk suspension found ?_ (by rw [settle_holds]; rfl)
      rw [settle_heap]
      exact Fresh.onHeap_grows _ _

/-- What a step of one evaluator does to the thunks. -/
theorem step_effect (step : state.step natives program limit self = some next) :
    Effect self state.Aliases state.heap next.heap state.holds next.holds := by
  simp only [Local.step] at step
  split at step
  next => cases step
  next => cases step
  next control here =>
    have owned : state.holds = state.stack.owned := by simp [holds_eq, here, Phase.guards]
    split at step
    next => cases step; exact .quiet (.refl _) (owned ▸ drop_holds _)
    next running => cases step; exact iterate_effect control here running
  next thunk here => exact enterThunk_effect here step
  next here =>
    cases step
    exact .quiet (.refl _) (by simp [holds_eq, here, Phase.guards])
  next here =>
    split at step <;> cases step <;>
      exact .quiet (.refl _) (by simp [holds_eq, here, Phase.guards])
  next running here =>
    cases step
    have owned : state.holds = state.stack.owned := by simp [holds_eq, here, Phase.guards]
    rw [owned]
    simp only [advance]
    split
    · exact .quiet (.refl _) .rfl
    · exact .quiet (.refl _) .rfl
    · exact .quiet (.refl _) (drop_holds _)
    · exact .quiet (.refl _) .rfl
    · exact .quiet (state.heap.grows_allocate _) .rfl
  next error here =>
    cases step
    have owned : state.holds = state.stack.owned := by simp [holds_eq, here, Phase.guards]
    rw [owned]
    simp only [unwind]
    split
    next thunk stack isTop => rw [isTop]; exact .settle thunk (.failed error) trivial (fun _ => nofun) rfl .rfl
    next frame stack isTop => rw [isTop]; exact .quiet (.refl _) .rfl
    next => exact .quiet (.refl _) (by simp)
  next error guards here =>
    cases step
    cases guards with
    | nil =>
      refine .quiet (.refl _) ?_
      rw [dropGuard, leave_holds, holds_eq, here]
      exact .rfl
    | cons thunk guards =>
      refine .settle thunk (.failed _) trivial (fun _ => nofun) rfl ?_
      simp [dropGuard, holds_eq, here, Phase.guards, store]

end Local

/-- An evaluator that does not run has no frames, and one that drops guards has left its frames. -/
def Evaluator.Rested (evaluator : Evaluator H) : Prop :=
  match evaluator.phase with
  | .idle | .finished _ => evaluator.stack = []
  | .dropping _ _ => evaluator.stack.current = []
  | _ => True

section Rested

theorem Stack.below_current (stack : Stack H) : stack.below.current = [] := by
  induction stack with
  | nil => rfl
  | cons frame stack ih => cases frame <;> first | exact ih | rfl

theorem Stack.eq_of_current {stack : Stack H} (empty : stack.current = []) :
    stack = [] ∨ ∃ caller rest, stack = .forcing caller :: rest := by
  rcases stack with _ | ⟨frame, stack⟩
  · exact .inl rfl
  · cases frame with
    | forcing caller => exact .inr ⟨caller, stack, rfl⟩
    | _ => simp [Stack.current, Frame.isForcing] at empty

theorem Stack.current_eq_nil {stack : Stack H}
    (notUpdate : ∀ thunk rest, stack = .update thunk :: rest → False)
    (notContinuation : ∀ frame rest, stack = .continuation frame :: rest → False) :
    stack.current = [] := by
  rcases stack with _ | ⟨frame, stack⟩
  · rfl
  · cases frame with
    | update thunk => exact (notUpdate thunk stack rfl).elim
    | continuation frame => exact (notContinuation frame stack rfl).elim
    | forcing caller => rfl

variable {natives : Natives H} {program : CoreProgram} {limit : FrameLimit} {self : EvaluationId}
  {state next : Local H}

theorem Local.leave_rested (result : Except RuntimeError (Value H ThunkId)) {stack : Stack H}
    (empty : stack.current = []) : (state.leave natives result stack).evaluator.Rested := by
  rcases stack.eq_of_current empty with rfl | ⟨caller, rest, rfl⟩
  · rfl
  · trivial

theorem Local.settle_rested (stack : Stack H) (transition : Fresh H ThunkId (Pushed H ThunkId)) :
    (state.settle limit stack transition).evaluator.Rested := by
  simp only [settle]
  split
  · trivial
  · split
    · trivial
    · split <;> trivial

theorem Local.step_rested (rested : state.evaluator.Rested)
    (step : state.step natives program limit self = some next) : next.evaluator.Rested := by
  simp only [Local.step] at step
  split at step
  next => cases step
  next => cases step
  next control here =>
    split at step
    next => cases step; exact state.stack.below_current
    next =>
      cases step
      cases control with
      | raise error => trivial
      | returned outcome =>
        cases outcome with
        | aliasOf target => simp only [iterate]; split <;> trivial
        | value value =>
          simp only [iterate]
          split
          next => trivial
          next => exact settle_rested _ _
          next stack notUpdate notContinuation =>
            exact leave_rested _ (Stack.current_eq_nil notUpdate notContinuation)
      | enter thunk => trivial
      | evaluate node environment => exact settle_rested _ _
  next thunk here =>
    simp only [enterThunk] at step
    split at step
    next => cases step
    next => cases step; trivial
    next => cases step; trivial
    next => cases step; trivial
    next =>
      split at step
      · cases step; trivial
      · split at step <;> cases step <;> trivial
    next =>
      split at step
      next => cases step; trivial
      next => cases step; exact settle_rested _ _
  next => cases step; trivial
  next => split at step <;> cases step <;> trivial
  next running here =>
    cases step
    simp only [advance]
    split
    · trivial
    · trivial
    · exact state.stack.below_current
    · trivial
    · trivial
  next error here =>
    cases step
    simp only [unwind]
    split
    next => trivial
    next => trivial
    next stack notUpdate notContinuation =>
      exact leave_rested _ (Stack.current_eq_nil notUpdate notContinuation)
  next error guards here =>
    cases step
    have empty : state.stack.current = [] := by
      rw [Evaluator.Rested, show state.evaluator.phase = _ from here] at rested
      exact rested
    cases guards with
    | nil => exact leave_rested _ empty
    | cons thunk guards => exact empty

end Rested

namespace System

variable {natives : Natives H} {program : CoreProgram} {limit : FrameLimit}

/-- A system before any evaluation: no thunk is claimed, and no evaluator runs. -/
structure Initial (system : System H) : Prop where
  heap : ∀ (thunk : ThunkId) (owner : EvaluationId),
    system.heap[thunk]? ≠ some (ThunkState.evaluating owner)
  waits : system.waits = []
  evaluators : ∀ evaluator ∈ system.evaluators, evaluator.phase = .idle ∧ evaluator.stack = []

/-- Every state of every run from an initial system. -/
def Reachable (natives : Natives H) (program : CoreProgram) (limit : FrameLimit)
    (system : System H) : Prop :=
  ∃ first actions, first.Initial ∧ Run natives program limit first actions system

/-- What holds initially and is kept by every action holds in every reachable state. -/
theorem Reachable.induction {motive : System H → Prop}
    (initial : ∀ system : System H, system.Initial → motive system)
    (step : ∀ system action next, Reachable natives program limit system → motive system →
      system.act natives program limit action = some next → motive next)
    {system : System H} (reachable : Reachable natives program limit system) : motive system := by
  obtain ⟨first, actions, isInitial, run⟩ := reachable
  induction run with
  | refl => exact initial _ isInitial
  | snoc run acted ih => exact step _ _ _ ⟨_, _, isInitial, run⟩ ih acted

/-- The thunks whose guards this evaluator holds. -/
def holds (system : System H) (id : EvaluationId) : List ThunkId :=
  ((system.evaluators[id]?).map Evaluator.holds).getD []

/-- An evaluator is evaluating exactly the thunks whose guards it holds, each by one guard. -/
structure Owned (system : System H) : Prop where
  nodup : ∀ id, (system.holds id).Nodup
  evaluating : ∀ (thunk : ThunkId) (id : EvaluationId),
    system.heap[thunk]? = some (.evaluating id) ↔ thunk ∈ system.holds id

theorem holds_of {system : System H} {id : EvaluationId} {evaluator : Evaluator H}
    (here : system.evaluators[id]? = some evaluator) : system.holds id = evaluator.holds := by
  simp [holds, here]

theorem update_evaluators {system : System H} {id other : EvaluationId} {evaluator : Evaluator H}
    {state : Local H} (here : system.evaluators[id]? = some evaluator) :
    (system.update id state).evaluators[other]? =
      if other = id then some state.evaluator else system.evaluators[other]? := by
  have inside : id < system.evaluators.length := (List.getElem?_eq_some_iff.mp here).1
  simp only [update, List.getElem?_set, inside, if_true]
  by_cases same : other = id
  · simp [same]
  · simp [same, Ne.symm same]

theorem holds_update {system : System H} {id other : EvaluationId} {evaluator : Evaluator H}
    {state : Local H} (here : system.evaluators[id]? = some evaluator) :
    (system.update id state).holds other =
      if other = id then state.evaluator.holds else system.holds other := by
  simp only [holds, update_evaluators here]
  split_ifs <;> rfl

theorem Initial.owned {system : System H} (initial : system.Initial) : system.Owned := by
  have none : ∀ id, system.holds id = [] := by
    intro id
    cases here : system.evaluators[id]? with
    | none => simp [holds, here]
    | some evaluator =>
      obtain ⟨idle, empty⟩ := initial.evaluators evaluator (List.mem_of_getElem? here)
      simp [holds, here, Evaluator.holds, idle, empty, Phase.guards]
  exact ⟨by simp [none], fun thunk id => by simp [none, initial.heap thunk id]⟩

/-- Between the steps that move them, thunks and guards stay in agreement. -/
theorem Owned.update {system : System H} (owned : system.Owned) {id : EvaluationId}
    {evaluator : Evaluator H} {state : Local H} (here : system.evaluators[id]? = some evaluator)
    {aliasing : ThunkId → ThunkId → Prop}
    (effect : Effect id aliasing system.heap state.heap evaluator.holds state.evaluator.holds) :
    (system.update id state).Owned := by
  have old := owned.evaluating
  cases effect with
  | quiet grows same =>
    have agrees : ∀ other thunk, thunk ∈ (system.update id state).holds other ↔
        thunk ∈ system.holds other := by
      intro other thunk
      rw [holds_update here]
      split_ifs with isSelf
      · rw [isSelf, holds_of here, same.mem_iff]
      · rfl
    refine ⟨?_, fun thunk other => ?_⟩
    · intro other
      rw [holds_update here]
      split_ifs
      · exact same.nodup_iff.mpr (holds_of here ▸ owned.nodup id)
      · exact owned.nodup other
    · rw [agrees, ← old]
      exact grows.evaluating_iff
  | claim claimed suspension suspended grows same =>
    have inside : claimed < system.heap.length := (List.getElem?_eq_some_iff.mp suspended).1
    have free : ∀ other, claimed ∉ system.holds other := by
      intro other member
      simp [(old claimed other).mpr member] at suspended
    refine ⟨?_, fun thunk other => ?_⟩
    · intro other
      rw [holds_update here]
      split_ifs
      · refine same.nodup_iff.mpr (List.nodup_cons.mpr ?_)
        rw [← holds_of here]
        exact ⟨free id, owned.nodup id⟩
      · exact owned.nodup other
    · have after : state.heap[thunk]? = some (.evaluating other) ↔
          thunk = claimed ∧ other = id ∨ thunk ∈ system.holds other := by
        rw [grows.evaluating_iff, List.getElem?_set]
        by_cases isClaimed : claimed = thunk
        · simp [isClaimed ▸ inside, isClaimed, isClaimed ▸ free other, eq_comm]
        · simp [isClaimed, Ne.symm isClaimed, old]
      rw [holds_update here]
      refine after.trans ?_
      split_ifs with isSelf
      · rw [same.mem_iff, List.mem_cons, isSelf, holds_of here]
        simp
      · simp [isSelf]
  | settle stored settledState settled _ heap' same =>
    have member : stored ∈ system.holds id := by rw [holds_of here]; exact same.mem_iff.mpr (by simp)
    have inside : stored < system.heap.length := (List.getElem?_eq_some_iff.mp ((old _ _).mpr member)).1
    have nodup := same.nodup_iff.mp (holds_of here ▸ owned.nodup id)
    refine ⟨?_, fun thunk other => ?_⟩
    · intro other
      rw [holds_update here]
      split_ifs
      · exact (List.nodup_cons.mp nodup).2
      · exact owned.nodup other
    · have after : state.heap[thunk]? = some (.evaluating other) ↔
          thunk ≠ stored ∧ thunk ∈ system.holds other := by
        rw [heap', List.getElem?_set]
        by_cases isStored : stored = thunk
        · subst isStored
          cases settledState <;> simp_all [ThunkState.Settled]
        · simp [isStored, Ne.symm isStored, old]
      rw [holds_update here]
      refine after.trans ?_
      split_ifs with isSelf
      · rw [isSelf, holds_of here, same.mem_iff, List.mem_cons]
        constructor
        · rintro ⟨ne, rfl | member⟩
          · exact absurd rfl ne
          · exact member
        · exact fun member => ⟨fun eq => (List.nodup_cons.mp nodup).1 (eq ▸ member), .inr member⟩
      · -- Another evaluator does not hold the stored thunk.
        refine and_iff_right_of_imp fun inOther eq => isSelf ?_
        have left := (old stored other).mpr (eq ▸ inOther)
        simpa [(old stored id).mpr member] using left.symm

/-- What an action does to one evaluator: a step, a start by the host, or a stop from outside. -/
inductive Acts (natives : Natives H) (program : CoreProgram) (limit : FrameLimit) (id : EvaluationId)
    (state : Local H) : Action H → Local H → Prop
  | force (thunk : ThunkId)
      (resting : state.phase = .idle ∨ ∃ result, state.phase = .finished result) :
      Acts natives program limit id state (.force id thunk) (state.move (.loop (.enter thunk)) [])
  | step {next : Local H} (step : state.step natives program limit id = some next) :
      Acts natives program limit id state (.step id) next
  | cancel : Acts natives program limit id state (.cancel id)
      { state with evaluator := { state.evaluator with cancelled := true } }
  | exhaust (maximum : ℕ) (profile : String) :
      Acts natives program limit id state (.exhaust id maximum profile)
        { state with evaluator :=
          { state.evaluator with exhausted := some (.stepLimit maximum profile) } }

/-- An action changes one evaluator and what it shares, or allocates. -/
theorem act_cases {system next : System H} {action : Action H}
    (acted : system.act natives program limit action = some next) :
    (∃ id evaluator state, system.evaluators[id]? = some evaluator ∧
      Acts natives program limit id (system.view evaluator) action state ∧
      next = system.update id state) ∨
    ∃ cell, action = .allocate cell ∧ next = { system with heap := system.heap.allocate cell } := by
  cases action with
  | force id thunk =>
    simp only [act, System.evaluator, Option.bind_eq_bind, Option.bind_eq_some_iff] at acted
    obtain ⟨evaluator, here, acted⟩ := acted
    refine .inl ⟨id, evaluator, _, here, .force thunk ?_, ?_⟩
    · split at acted
      next isIdle => exact .inl isIdle
      next isFinished => exact .inr ⟨_, isFinished⟩
      next => cases acted
    · split at acted <;> cases acted <;> rfl
  | step id =>
    simp only [act, System.evaluator, Option.bind_eq_bind, Option.bind_eq_some_iff] at acted
    obtain ⟨evaluator, here, state, step, acted⟩ := acted
    cases acted
    exact .inl ⟨id, evaluator, state, here, .step step, rfl⟩
  | cancel id =>
    simp only [act, System.evaluator, Option.bind_eq_bind, Option.bind_eq_some_iff] at acted
    obtain ⟨evaluator, here, acted⟩ := acted
    cases acted
    exact .inl ⟨id, evaluator, _, here, .cancel, rfl⟩
  | exhaust id maximum profile =>
    simp only [act, System.evaluator, Option.bind_eq_bind, Option.bind_eq_some_iff] at acted
    obtain ⟨evaluator, here, acted⟩ := acted
    cases acted
    exact .inl ⟨id, evaluator, _, here, .exhaust maximum profile, rfl⟩
  | allocate cell =>
    cases acted
    exact .inr ⟨cell, rfl, rfl⟩

theorem Acts.rested {id : EvaluationId} {state next : Local H} {action : Action H}
    (acts : Acts natives program limit id state action next) (rested : state.evaluator.Rested) :
    next.evaluator.Rested := by
  cases acts with
  | force => trivial
  | step step => exact Local.step_rested rested step
  | cancel => exact rested
  | exhaust => exact rested

theorem Acts.effect {id : EvaluationId} {state next : Local H} {action : Action H}
    (acts : Acts natives program limit id state action next) (rested : state.evaluator.Rested) :
    Effect id state.Aliases state.heap next.heap state.holds next.holds := by
  cases acts with
  | force thunk resting =>
    have none : state.holds = [] := by
      rw [Evaluator.Rested] at rested
      rcases resting with isIdle | ⟨result, isFinished⟩
      · rw [show state.evaluator.phase = _ from isIdle] at rested
        simp [Local.holds_eq, isIdle, Phase.guards, Local.stack, rested]
      · rw [show state.evaluator.phase = _ from isFinished] at rested
        simp [Local.holds_eq, isFinished, Phase.guards, Local.stack, rested]
    rw [none]
    exact .quiet (.refl _) .rfl
  | step step => exact Local.step_effect step
  | cancel => exact .quiet (.refl _) .rfl
  | exhaust => exact .quiet (.refl _) .rfl

def Rested (system : System H) : Prop :=
  ∀ (id : EvaluationId) (evaluator : Evaluator H), system.evaluators[id]? = some evaluator →
    evaluator.Rested

/-- In a reachable state an evaluator that does not run has no frames. -/
theorem Reachable.rested {system : System H} (reachable : Reachable natives program limit system) :
    system.Rested := by
  refine reachable.induction ?_ ?_
  · intro system initial id evaluator here
    obtain ⟨idle, empty⟩ := initial.evaluators evaluator (List.mem_of_getElem? here)
    rw [Evaluator.Rested, idle]
    exact empty
  · intro system action next _ rested acted
    rcases act_cases acted with ⟨self, evaluator, state, here, acts, rfl⟩ | ⟨cell, rfl, rfl⟩
    · intro id found isFound
      rw [update_evaluators here] at isFound
      split_ifs at isFound
      · obtain rfl := Option.some.inj isFound
        exact acts.rested (rested self evaluator here)
      · exact rested id found isFound
    · exact rested

/-- In a reachable state the thunks under evaluation are those whose guards are held. -/
theorem Reachable.owned {system : System H} (reachable : Reachable natives program limit system) :
    system.Owned := by
  refine reachable.induction (fun system initial => initial.owned) ?_
  · intro system action next reached owned acted
    rcases act_cases acted with ⟨id, evaluator, state, here, acts, rfl⟩ | ⟨cell, rfl, rfl⟩
    · exact owned.update here (acts.effect (reached.rested id evaluator here))
    · refine ⟨owned.nodup, fun thunk id => ?_⟩
      rw [(system.heap.grows_allocate cell).evaluating_iff]
      exact owned.evaluating thunk id

end System

end HellRs.Runtime
