import HellRs.Runtime.Interruption

/-! # The life cycle of a thunk

A thunk is claimed once, by the evaluator whose step enters it, and comes to its final state by a
step of that evaluator. An evaluator whose force has returned holds no guard, so the thunks under
evaluation are those of evaluators at work, and only those can block another evaluator or be a black
hole.
-/

namespace HellRs.Runtime

open Core Builtins

variable {H : Host}

/-- What one action does to a thunk: nothing, a claim or a final state, both by a step. -/
inductive Life (action : Action H) : ThunkState H → ThunkState H → Prop
  | stay (state : ThunkState H) : Life action state state
  | claim (suspension : Suspension H ThunkId) (id : EvaluationId) (isStep : action = .step id) :
      Life action (.suspended suspension) (.evaluating id)
  | finish (id : EvaluationId) (result : ThunkState H) (settled : result.Settled)
      (isStep : action = .step id) : Life action (.evaluating id) result

/-- No force of the evaluator is under way. -/
def Evaluator.AtRest (evaluator : Evaluator H) : Prop :=
  evaluator.phase = .idle ∨ ∃ result, evaluator.phase = .finished result

theorem Evaluator.AtRest.holds {evaluator : Evaluator H} (atRest : evaluator.AtRest)
    (rested : evaluator.Rested) : evaluator.holds = [] := by
  rw [Rested] at rested
  rcases atRest with isIdle | ⟨result, isFinished⟩
  · rw [isIdle] at rested
    simp [Evaluator.holds, isIdle, Phase.guards, rested]
  · rw [isFinished] at rested
    simp [Evaluator.holds, isFinished, Phase.guards, rested]

/-- A suspension starts with a transition, never with an error. -/
theorem enterSuspension_ok (suspension : Suspension H ThunkId) (heap : Heap H) :
    ∃ pushed next, ((enterSuspension suspension).onHeap heap).1 = .ok (pushed, next) ∧
      ∀ error, next ≠ .control (.raise error) := by
  cases suspension with
  | listTake remaining list =>
    simp only [enterSuspension]
    split <;> exact ⟨_, _, rfl, nofun⟩
  | listLiteral nodes index environment =>
    simp only [enterSuspension, enterListLiteral]
    split <;> exact ⟨_, _, rfl, nofun⟩
  | _ => exact ⟨_, _, rfl, nofun⟩

namespace Local

variable {limit : FrameLimit} {self : EvaluationId} {state next : Local H}

/-- A round of `enter_thunk` that blocks or raises a fresh black hole is on a thunk under
evaluation. -/
theorem enterThunk_evaluating {thunk : ThunkId} (fresh : ∀ error, state.heap[thunk]? ≠ some (.failed error))
    (step : state.enterThunk limit self thunk = some next)
    (stuck : next.phase.awaits.isSome ∨
      ∃ error, next.phase = .loop (.raise error) ∧ error.kind = .blackHole) :
    ∃ owner, state.heap[thunk]? = some (.evaluating owner) := by
  simp only [enterThunk] at step
  split at step
  next => cases step
  next => cases step; rcases stuck with blocked | ⟨_, ⟨⟩, _⟩; cases blocked
  next found => exact absurd found (fresh _)
  next => cases step; rcases stuck with blocked | ⟨_, ⟨⟩, _⟩; cases blocked
  next owner found => exact ⟨owner, found⟩
  next suspension _ =>
    split at step
    next => cases step; rcases stuck with blocked | ⟨_, ⟨⟩, ⟨⟩⟩; cases blocked
    next =>
      cases step
      obtain ⟨pushed, next, isOk, calm⟩ := enterSuspension_ok suspension (state.heap.set thunk (.evaluating self))
      simp only [settle, store, isOk] at stuck
      split at stuck
      · rcases stuck with blocked | ⟨_, ⟨⟩, ⟨⟩⟩
        cases blocked
      · split at stuck
        · rcases stuck with blocked | ⟨error, raises, _⟩
          · cases blocked
          · exact absurd (congrArg Next.control (Phase.loop.inj raises)) (calm error)
        · rcases stuck with blocked | ⟨_, ⟨⟩, _⟩
          cases blocked

end Local

namespace System

variable {natives : Natives H} {program : CoreProgram} {limit : FrameLimit} {system next : System H}

/-- A thunk has one evaluator at most. -/
theorem Owned.unique (owned : system.Owned) {thunk : ThunkId} {first second : EvaluationId}
    (left : thunk ∈ system.holds first) (right : thunk ∈ system.holds second) : first = second := by
  have same := (owned.evaluating thunk first).mpr left
  rw [(owned.evaluating thunk second).mpr right] at same
  simpa using same.symm

/-- What an action does to a thunk. -/
theorem Reachable.life {action : Action H} (reachable : Reachable natives program limit system)
    (acted : system.act natives program limit action = some next) {thunk : ThunkId}
    {state : ThunkState H} (here : system.heap[thunk]? = some state) :
    ∃ state', next.heap[thunk]? = some state' ∧ Life action state state' := by
  rcases act_cases acted with ⟨id, evaluator, moved, found, acts, rfl⟩ | ⟨cell, rfl, rfl⟩
  · cases acts with
    | force | cancel | exhaust => exact ⟨state, here, .stay state⟩
    | step step =>
      cases Local.step_effect step with
      | quiet grows => exact ⟨state, grows.get here, .stay state⟩
      | claim claimed suspension suspended grows =>
        by_cases same : claimed = thunk
        · subst same
          obtain rfl := Option.some.inj (here.symm.trans suspended)
          refine ⟨.evaluating id, grows.get ?_, .claim suspension id rfl⟩
          exact List.getElem?_set_self (List.getElem?_eq_some_iff.mp here).1
        · exact ⟨state, grows.get (by rw [List.getElem?_set_ne same]; exact here), .stay state⟩
      | settle stored result settled _ heap same =>
        have evaluating : system.heap[stored]? = some (.evaluating id) := by
          refine (reachable.owned.evaluating stored id).mpr ?_
          rw [holds_of found]
          exact same.mem_iff.mpr (List.mem_cons_self ..)
        by_cases isStored : stored = thunk
        · subst isStored
          obtain rfl := Option.some.inj (here.symm.trans evaluating)
          refine ⟨result, (congrArg (·[stored]?) heap).trans ?_, .finish id result settled rfl⟩
          exact List.getElem?_set_self (List.getElem?_eq_some_iff.mp here).1
        · refine ⟨state, (congrArg (·[thunk]?) heap).trans ?_, .stay state⟩
          rw [List.getElem?_set_ne isStored]
          exact here
  · exact ⟨state, (system.heap.grows_allocate cell).get here, .stay state⟩

/-- A final state stays to the end of every run. -/
theorem Reachable.settled_run {last : System H} {actions : List (Action H)}
    (reachable : Reachable natives program limit system)
    (run : Run natives program limit system actions last) {thunk : ThunkId} {state : ThunkState H}
    (here : system.heap[thunk]? = some state) (settled : state.Settled) :
    last.heap[thunk]? = some state := by
  induction run with
  | refl => exact here
  | snoc run acted ih => exact (reachable.run run).settled_act acted ih settled

/-- The evaluator of a thunk under evaluation is at work. -/
theorem Reachable.at_work (reachable : Reachable natives program limit system)
    {owner : EvaluationId} {thunk : ThunkId} (owns : system.Owns owner thunk) :
    ∃ evaluator, system.evaluators[owner]? = some evaluator ∧ ¬evaluator.AtRest := by
  have member := (reachable.owned.evaluating thunk owner).mp owns
  cases here : system.evaluators[owner]? with
  | none => simp [holds, here] at member
  | some evaluator =>
    refine ⟨evaluator, rfl, fun atRest => ?_⟩
    rw [holds_of here, atRest.holds (reachable.rested owner evaluator here)] at member
    cases member

/-- Only a thunk under evaluation blocks, or is a fresh black hole. -/
theorem stuck_evaluating {id : EvaluationId} {thunk : ThunkId} (enters : system.Enters id thunk)
    (fresh : ∀ error, system.heap[thunk]? ≠ some (ThunkState.failed error))
    (stuck : Blocks natives program limit system id ∨ Reports natives program limit system id) :
    ∃ owner, system.Owns owner thunk := by
  obtain ⟨evaluator, here, entering⟩ := enters
  have stepped : (system.view evaluator).step natives program limit id =
      (system.view evaluator).enterThunk limit id thunk := by
    simp [Local.step, view, Local.phase, entering]
  cases step : (system.view evaluator).enterThunk limit id thunk with
  | none =>
    have halted : system.act natives program limit (.step id) = none := by
      simp [act, System.evaluator, here, stepped, step]
    rcases stuck with ⟨_, _, acted, _⟩ | ⟨_, _, _, acted, _⟩ <;> simp [halted] at acted
  | some state =>
    rw [blocks_of_step here (stepped.trans step), reports_of_step here (stepped.trans step)] at stuck
    exact Local.enterThunk_evaluating fresh step stuck

/-- The life cycle, in every state of every run. -/
theorem thunk_life_cycle (reachable : Reachable natives program limit system) :
    (∀ thunk first second, thunk ∈ system.holds first → thunk ∈ system.holds second →
      first = second) ∧
    (∀ thunk id, system.Owns id thunk ↔ thunk ∈ system.holds id) ∧
    (∀ action next, system.act natives program limit action = some next →
      ∀ (thunk : ThunkId) (state : ThunkState H), system.heap[thunk]? = some state →
        ∃ state' : ThunkState H, next.heap[thunk]? = some state' ∧ Life action state state') ∧
    (∀ actions last, Run natives program limit system actions last →
      ∀ (thunk : ThunkId) (state : ThunkState H), system.heap[thunk]? = some state → state.Settled →
        last.heap[thunk]? = some state) ∧
    ((∀ evaluator ∈ system.evaluators, evaluator.AtRest) → ∀ thunk owner, ¬system.Owns owner thunk) ∧
    (∀ id thunk, system.Enters id thunk →
      (∀ error, system.heap[thunk]? ≠ some (ThunkState.failed error)) →
        Blocks natives program limit system id ∨ Reports natives program limit system id →
          ∃ owner evaluator, system.Owns owner thunk ∧ system.evaluators[owner]? = some evaluator ∧
            ¬evaluator.AtRest) := by
  refine ⟨fun thunk _ _ => reachable.owned.unique, reachable.owned.evaluating,
    fun _ _ acted _ _ => reachable.life acted, fun _ _ run _ _ => reachable.settled_run run, ?_, ?_⟩
  · intro atRest thunk owner owns
    obtain ⟨evaluator, here, working⟩ := reachable.at_work owns
    exact working (atRest evaluator (List.mem_of_getElem? here))
  · intro id thunk enters fresh stuck
    obtain ⟨owner, owns⟩ := stuck_evaluating enters fresh stuck
    obtain ⟨evaluator, here, working⟩ := reachable.at_work owns
    exact ⟨owner, evaluator, owns, here, working⟩

/-- The second evaluator reports a black hole on a thunk that the first is still evaluating. -/
theorem stale_at_work : ∃ owner evaluator, staleSystem.Owns owner 1 ∧
    staleSystem.evaluators[owner]? = some evaluator ∧ ¬evaluator.AtRest :=
  (thunk_life_cycle stale_reachable).2.2.2.2.2 1 1 stale_enters (fun _ => nofun)
    (.inr ⟨_, _, .waitCycle, rfl, rfl, rfl, rfl⟩)

end System

end HellRs.Runtime
