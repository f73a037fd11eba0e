import Mathlib
import HellRs.Runtime.BlackHole

/-! # Evaluators stopped from outside

The stack of an evaluator that computes a thunk ends in the update frame of the thunk and the frames
that were there before. This part of the stack stays until the frames above it have come to a
result, and the thunk then holds that result. The exception is an evaluator that is stopped at the
top of the loop of `run_machine`: it leaves past its stack, and the dropped guards memoize an
internal error in the thunks it owns.
-/

namespace HellRs.Runtime

open Core Builtins

variable {H : Host}

/-- The error that a dropped guard memoizes. -/
def unwound : RuntimeError := .internal "evaluation unwound while updating a thunk"

/-- The computation of the thunk, which runs on top of its update frame and the frames below it,
has come to this result. -/
inductive Ends (natives : Natives H) (thunk : ThunkId) (base : Stack H) (evaluator : Evaluator H) :
    ThunkState H → Prop
  | value (value : Value H ThunkId) (phase : evaluator.phase = .loop (.returned (.value value)))
      (stack : evaluator.stack = .update thunk :: base) :
      Ends natives thunk base evaluator (.evaluated value)
  | aliasOf (target : ThunkId) (phase : evaluator.phase = .loop (.returned (.aliasOf target)))
      (stack : evaluator.stack = .update thunk :: base) :
      Ends natives thunk base evaluator (.indirection target)
  | error (error : RuntimeError) (phase : evaluator.phase = .unwinding error)
      (stack : evaluator.stack = .update thunk :: base) :
      Ends natives thunk base evaluator (.failed error)
  /-- Native code above the update frame panics. -/
  | panic (running : Running H ThunkId) (above : Stack H) (phase : evaluator.phase = .running running)
      (acts : running.act natives = .panic)
      (stack : evaluator.stack = above ++ .update thunk :: base) :
      Ends natives thunk base evaluator (.failed unwound)

/-- What a step of an evaluator does to its stack. -/
inductive StackMove (natives : Natives H) (state next : Local H) : Prop
  | push (pushed : Stack H) (stack : next.stack = pushed ++ state.stack)
      (guards : next.phase.guards = [] ∧ state.phase.guards = [])
  | pop (frame : Frame H ThunkId) (rest pushed : Stack H) (before : state.stack = frame :: rest)
      (other : frame.updated = none) (stack : next.stack = pushed ++ rest)
      (guards : next.phase.guards = [] ∧ state.phase.guards = [])
  | complete (thunk : ThunkId) (rest : Stack H) (result : ThunkState H)
      (ends : Ends natives thunk rest state.evaluator result)
      (before : state.stack = .update thunk :: rest) (stack : next.stack = rest)
      (heap : next.heap = state.heap.set thunk result)
      (guards : next.phase.guards = [] ∧ state.phase.guards = [])
  | stop (control : Control H ThunkId) (phase : state.phase = .loop control)
      (stopped : state.evaluator.stopped.isSome) (stack : next.stack = state.stack.below)
      (guards : next.phase.guards = state.stack.guards)
  | panic (running : Running H ThunkId) (phase : state.phase = .running running)
      (acts : running.act natives = .panic) (stack : next.stack = state.stack.below)
      (guards : next.phase.guards = state.stack.guards)
  | dropped (thunk : ThunkId) (guards : state.phase.guards = thunk :: next.phase.guards)
      (stack : next.stack = state.stack) (heap : next.heap = state.heap.set thunk (.failed unwound))

namespace Local

variable {natives : Natives H} {program : CoreProgram} {limit : FrameLimit} {self : EvaluationId}
  {state next : Local H}

theorem StackMove.same (stack : next.stack = state.stack)
    (guards : next.phase.guards = [] ∧ state.phase.guards = []) : StackMove natives state next :=
  .push [] stack guards

theorem settle_stack (limit : FrameLimit) (state : Local H) (stack : Stack H) (transition : Fresh H ThunkId (Pushed H ThunkId)) :
    (∃ pushed, (state.settle limit stack transition).stack = pushed ++ stack) ∧
      (state.settle limit stack transition).phase.guards = [] := by
  simp only [settle]
  split
  · exact ⟨⟨[], rfl⟩, rfl⟩
  · split
    · exact ⟨⟨[], rfl⟩, rfl⟩
    · split <;> exact ⟨⟨_, rfl⟩, rfl⟩

theorem leave_stackMove (result : Except RuntimeError (Value H ThunkId))
    (empty : state.stack.current = []) (guards : state.phase.guards = []) :
    StackMove natives state (state.leave natives result state.stack) := by
  rcases state.stack.eq_of_current empty with isNil | ⟨caller, rest, isForcing⟩
  · rw [isNil]
    exact StackMove.same isNil.symm ⟨rfl, guards⟩
  · rw [isForcing]
    exact .pop (.forcing caller) rest [] isForcing rfl rfl ⟨rfl, guards⟩

theorem iterate_stackMove (control : Control H ThunkId) (here : state.phase = .loop control) :
    StackMove natives state (state.iterate natives program limit control) := by
  have guards : state.phase.guards = [] := by rw [here]; rfl
  cases control with
  | raise error => exact StackMove.same rfl ⟨rfl, guards⟩
  | returned outcome =>
    cases outcome with
    | aliasOf target =>
      simp only [iterate]
      split
      next thunk rest isTop =>
        exact .complete thunk rest _ (.aliasOf target here isTop) isTop rfl rfl ⟨rfl, guards⟩
      next => exact StackMove.same rfl ⟨rfl, guards⟩
    | value value =>
      simp only [iterate]
      split
      next thunk rest isTop =>
        exact .complete thunk rest _ (.value value here isTop) isTop rfl rfl ⟨rfl, guards⟩
      next frame rest isTop =>
        obtain ⟨⟨pushed, stack⟩, none⟩ := settle_stack limit state rest
          (resumeFrame natives frame value)
        exact .pop (.continuation frame) rest pushed isTop rfl stack ⟨none, guards⟩
      next notUpdate notContinuation =>
        exact leave_stackMove _ (Stack.current_eq_nil notUpdate notContinuation) guards
  | enter thunk => exact StackMove.same rfl ⟨rfl, guards⟩
  | evaluate node environment =>
    obtain ⟨⟨pushed, stack⟩, none⟩ := settle_stack limit state state.stack
      (evaluateControl natives program node environment)
    exact .push pushed stack ⟨none, guards⟩

theorem enterThunk_stackMove {thunk : ThunkId} (here : state.phase = .entering thunk)
    (step : state.enterThunk limit self thunk = some next) : StackMove natives state next := by
  have guards : state.phase.guards = [] := by rw [here]; rfl
  simp only [enterThunk] at step
  split at step
  next => cases step
  next => cases step; exact StackMove.same rfl ⟨rfl, guards⟩
  next => cases step; exact StackMove.same rfl ⟨rfl, guards⟩
  next => cases step; exact StackMove.same rfl ⟨rfl, guards⟩
  next =>
    split at step
    · cases step; exact StackMove.same rfl ⟨rfl, guards⟩
    · split at step <;> cases step <;> exact StackMove.same rfl ⟨rfl, guards⟩
  next suspension _ =>
    split at step
    next => cases step; exact StackMove.same rfl ⟨rfl, guards⟩
    next =>
      cases step
      obtain ⟨⟨pushed, stack⟩, none⟩ := settle_stack limit
        (state.store thunk (.evaluating self)) (.update thunk :: state.stack)
        (enterSuspension suspension)
      exact .push (pushed ++ [.update thunk]) (by simpa using stack) ⟨none, guards⟩

theorem step_stackMove (rested : state.evaluator.Rested)
    (step : state.step natives program limit self = some next) : StackMove natives state next := by
  simp only [Local.step] at step
  split at step
  next => cases step
  next => cases step
  next control here =>
    split at step
    next error stopped =>
      cases step
      exact .stop control here (by rw [stopped]; rfl) rfl rfl
    next => cases step; exact iterate_stackMove control here
  next thunk here => exact enterThunk_stackMove here step
  next here => cases step; exact StackMove.same rfl ⟨rfl, by rw [here]; rfl⟩
  next here => split at step <;> cases step <;> exact StackMove.same rfl ⟨rfl, by rw [here]; rfl⟩
  next running here =>
    have guards : state.phase.guards = [] := by rw [here]; rfl
    cases step
    simp only [advance]
    split
    next => exact StackMove.same rfl ⟨rfl, guards⟩
    next => exact StackMove.same rfl ⟨rfl, guards⟩
    next acts => exact .panic running here acts rfl rfl
    next => exact .push [.forcing running] rfl ⟨rfl, guards⟩
    next => exact StackMove.same rfl ⟨rfl, guards⟩
  next error here =>
    have guards : state.phase.guards = [] := by rw [here]; rfl
    cases step
    simp only [unwind]
    split
    next thunk rest isTop =>
      exact .complete thunk rest _ (.error error here isTop) isTop rfl rfl ⟨rfl, guards⟩
    next frame rest isTop => exact .pop (.continuation frame) rest [] isTop rfl rfl ⟨rfl, guards⟩
    next notUpdate notContinuation =>
      exact leave_stackMove _ (Stack.current_eq_nil notUpdate notContinuation) guards
  next error guards here =>
    cases step
    have empty : state.stack.current = [] := by
      rw [Evaluator.Rested, show state.evaluator.phase = _ from here] at rested
      exact rested
    cases guards with
    | nil => exact leave_stackMove _ empty (by rw [here]; rfl)
    | cons thunk guards => exact .dropped thunk (by rw [here]; rfl) rfl rfl

end Local

/-- When the current stack is left, an update frame stays below it or its guard is dropped. -/
theorem Stack.below_or_guards {stack above base : Stack H} {thunk : ThunkId}
    (split : stack = above ++ .update thunk :: base) :
    (∃ rest, stack.below = rest ++ .update thunk :: base) ∨ thunk ∈ stack.guards := by
  induction above generalizing stack with
  | nil =>
    subst split
    exact .inr (Stack.mem_guards.mpr (by simp))
  | cons frame above ih =>
    subst split
    cases frame with
    | forcing caller => exact .inl ⟨.forcing caller :: above, rfl⟩
    | update other =>
      rcases ih rfl with ⟨rest, below⟩ | member
      · exact .inl ⟨rest, below⟩
      · exact .inr (Stack.mem_guards.mpr (List.mem_cons_of_mem _ (Stack.mem_guards.mp member)))
    | continuation other =>
      rcases ih rfl with ⟨rest, below⟩ | member
      · exact .inl ⟨rest, below⟩
      · exact .inr (Stack.mem_guards.mpr (Stack.mem_guards.mp member))

namespace System

variable {natives : Natives H} {program : CoreProgram} {limit : FrameLimit}

theorem Reachable.act {system next : System H} {action : Action H}
    (reachable : Reachable natives program limit system)
    (acted : system.act natives program limit action = some next) :
    Reachable natives program limit next := by
  obtain ⟨first, actions, initial, run⟩ := reachable
  exact ⟨first, _, initial, run.snoc acted⟩

theorem Reachable.run {system last : System H} {actions : List (Action H)}
    (reachable : Reachable natives program limit system)
    (run : Run natives program limit system actions last) : Reachable natives program limit last := by
  induction run with
  | refl => exact reachable
  | snoc _ acted ih => exact ih.act acted

/-- A result stays. -/
theorem Reachable.settled_act {system next : System H} {action : Action H}
    (reachable : Reachable natives program limit system)
    (acted : system.act natives program limit action = some next) {thunk : ThunkId}
    {state : ThunkState H} (here : system.heap[thunk]? = some state) (settled : state.Settled) :
    next.heap[thunk]? = some state := by
  rcases act_cases acted with ⟨id, evaluator, moved, found, acts, rfl⟩ | ⟨cell, rfl, rfl⟩
  · cases acts.effect (reachable.rested id evaluator found) with
    | quiet grows => exact grows.get here
    | claim claimed suspension suspended grows =>
      have other : claimed ≠ thunk := by
        rintro rfl
        obtain rfl := Option.some.inj (here.symm.trans suspended)
        exact settled
      exact grows.get (by rw [List.getElem?_set_ne other]; exact here)
    | settle stored result _ _ heap same =>
      have other : stored ≠ thunk := by
        rintro rfl
        have member : stored ∈ system.holds id := by
          rw [holds_of found]; exact same.mem_iff.mpr (List.mem_cons_self ..)
        obtain rfl := Option.some.inj (here.symm.trans ((reachable.owned.evaluating _ _).mpr member))
        exact settled
      exact (congrArg (·[thunk]?) heap).trans (by rw [List.getElem?_set_ne other]; exact here)
  · exact (system.heap.grows_allocate cell).get here

/-- No evaluator is stopped while its current `run_machine` owns a thunk. -/
def Orderly (system : System H) (action : Action H) : Prop :=
  ∀ id evaluator control, action = .step id → system.evaluators[id]? = some evaluator →
    evaluator.phase = .loop control → evaluator.stopped.isSome → evaluator.stack.current.owned = []

/-- During these actions, the computation of the thunk on top of the base has come to this
result. -/
def Ended (natives : Natives H) (program : CoreProgram) (limit : FrameLimit) (first : System H)
    (actions : List (Action H)) (id : EvaluationId) (thunk : ThunkId) (base : Stack H)
    (result : ThunkState H) : Prop :=
  ∃ before after middle evaluator, before ++ after = actions ∧
    Run natives program limit first before middle ∧ middle.evaluators[id]? = some evaluator ∧
    Ends natives thunk base evaluator result

/-- What has become of a thunk whose computation was under way. -/
inductive Fate (natives : Natives H) (program : CoreProgram) (limit : FrameLimit)
    (first : System H) (actions : List (Action H)) (last : System H) (id : EvaluationId) (thunk : ThunkId) (base : Stack H) : Prop
  | computing (evaluator : Evaluator H) (above : Stack H)
      (here : last.evaluators[id]? = some evaluator)
      (stack : evaluator.stack = above ++ .update thunk :: base)
  | panicked (evaluator : Evaluator H) (here : last.evaluators[id]? = some evaluator)
      (guard : thunk ∈ evaluator.phase.guards)
      (ended : Ended natives program limit first actions id thunk base (.failed unwound))
  | done (result : ThunkState H) (stored : last.heap[thunk]? = some result)
      (settled : result.Settled) (ended : Ended natives program limit first actions id thunk base result)

theorem Ended.snoc {first : System H} {actions : List (Action H)} {id : EvaluationId}
    {thunk : ThunkId} {base : Stack H} {result : ThunkState H}
    (ended : Ended natives program limit first actions id thunk base result) (action : Action H) :
    Ended natives program limit first (actions ++ [action]) id thunk base result := by
  obtain ⟨before, after, middle, evaluator, rfl, reached, here, ends⟩ := ended
  exact ⟨before, after ++ [action], middle, evaluator, by simp, reached, here, ends⟩

theorem Ends.settled {thunk : ThunkId} {base : Stack H} {evaluator : Evaluator H}
    {result : ThunkState H} (ends : Ends natives thunk base evaluator result) : result.Settled := by
  cases ends <;> trivial

theorem owned_of_stack {stack above base : Stack H} {thunk : ThunkId}
    (split : stack = above ++ .update thunk :: base) : thunk ∈ stack.owned := by
  simp [split]

/-- One action of an evaluator that is computing the thunk. -/
theorem Fate.computing_act {first last : System H} {id : EvaluationId} {thunk : ThunkId}
    {base above : Stack H} {actions : List (Action H)} {action : Action H} {evaluator : Evaluator H}
    {state : Local H} (reachable : Reachable natives program limit last)
    (run : Run natives program limit first actions last)
    (orderly : last.Orderly action) (here : last.evaluators[id]? = some evaluator)
    (stack : evaluator.stack = above ++ .update thunk :: base)
    (acts : Acts natives program limit id (last.view evaluator) action state) :
    Fate natives program limit first (actions ++ [action]) (last.update id state) id thunk base := by
  have self : (last.update id state).evaluators[id]? = some state.evaluator := by
    rw [update_evaluators here, if_pos rfl]
  have ended : ∀ result, Ends natives thunk base evaluator result →
      Ended natives program limit first (actions ++ [action]) id thunk base result :=
    fun result ends => ⟨actions, [action], last, evaluator, rfl, run, here, ends⟩
  have inside : thunk < last.heap.length := by
    have member : thunk ∈ last.holds id := by
      rw [holds_of here]
      exact List.mem_append_right _ (owned_of_stack stack)
    exact (List.getElem?_eq_some_iff.mp ((reachable.owned.evaluating _ _).mpr member)).1
  cases acts with
  | step step =>
    cases Local.step_stackMove (reachable.rested id evaluator here) step with
    | push pushed after =>
      exact .computing _ (pushed ++ above) self
        (after.trans (by rw [List.append_assoc, ← stack]; rfl))
    | pop frame rest pushed before other after =>
      cases above with
      | nil =>
        obtain ⟨rfl, _⟩ := List.cons.inj (before.symm.trans stack)
        cases other
      | cons _ above =>
        obtain ⟨rfl, rfl⟩ := List.cons.inj (before.symm.trans stack)
        exact .computing _ (pushed ++ above) self (by rw [List.append_assoc]; exact after)
    | complete other rest result ends before after heap =>
      cases above with
      | nil =>
        obtain ⟨eq, rfl⟩ := List.cons.inj (before.symm.trans stack)
        obtain rfl := Frame.update.inj eq
        refine .done result ?_ (Ends.settled ends) (ended result ends)
        exact (congrArg (·[other]?) heap).trans (by simp [view, inside])
      | cons _ above =>
        obtain ⟨_, rfl⟩ := List.cons.inj (before.symm.trans stack)
        exact .computing _ above self after
    | stop control phase stopped after =>
      rcases Stack.below_or_guards stack with ⟨rest, below⟩ | member
      · exact .computing _ rest self (after.trans below)
      · have none := orderly id evaluator control rfl here phase stopped
        rw [Stack.mem_guards, none] at member
        cases member
    | panic running phase acts after guards =>
      rcases Stack.below_or_guards stack with ⟨rest, below⟩ | member
      · exact .computing _ rest self (after.trans below)
      · exact .panicked _ self (by rw [show state.evaluator.phase.guards = _ from guards]; exact member)
          (ended _ (.panic running above phase acts stack))
    | dropped other guards after => exact .computing _ above self (after.trans stack)
  | force entered resting =>
    have rested := reachable.rested id evaluator here
    rw [Evaluator.Rested] at rested
    rcases resting with isIdle | ⟨result, isFinished⟩
    · rw [show evaluator.phase = _ from isIdle, stack] at rested
      simp at rested
    · rw [show evaluator.phase = _ from isFinished, stack] at rested
      simp at rested
  | cancel => exact .computing _ above self stack
  | exhaust => exact .computing _ above self stack

/-- A guard that is yet to drop stays or drops. -/
theorem Fate.panicked_act {first last : System H} {id : EvaluationId} {thunk : ThunkId}
    {base : Stack H} {actions : List (Action H)} {action : Action H} {evaluator : Evaluator H}
    {state : Local H} (reachable : Reachable natives program limit last)
    (here : last.evaluators[id]? = some evaluator) (guard : thunk ∈ evaluator.phase.guards)
    (ended : Ended natives program limit first actions id thunk base (.failed unwound))
    (acts : Acts natives program limit id (last.view evaluator) action state) :
    Fate natives program limit first (actions ++ [action]) (last.update id state) id thunk base := by
  have self : (last.update id state).evaluators[id]? = some state.evaluator := by
    rw [update_evaluators here, if_pos rfl]
  have ended := ended.snoc action
  have inside : thunk < last.heap.length := by
    have member : thunk ∈ last.holds id := by
      rw [holds_of here]
      exact List.mem_append_left _ guard
    exact (List.getElem?_eq_some_iff.mp ((reachable.owned.evaluating _ _).mpr member)).1
  cases acts with
  | step step =>
    have guard' : thunk ∈ (last.view evaluator).phase.guards := guard
    cases Local.step_stackMove (reachable.rested id evaluator here) step with
    | push _ _ guards => rw [guards.2] at guard'; cases guard'
    | pop _ _ _ _ _ _ guards => rw [guards.2] at guard'; cases guard'
    | complete _ _ _ _ _ _ _ guards => rw [guards.2] at guard'; cases guard'
    | stop control phase => rw [phase] at guard'; cases guard'
    | panic running phase => rw [phase] at guard'; cases guard'
    | dropped other guards _ heap =>
      rw [guards] at guard'
      rcases List.mem_cons.mp guard' with rfl | member
      · refine .done (.failed unwound) ?_ trivial ended
        exact (congrArg (·[thunk]?) heap).trans (by simp [view, inside])
      · exact .panicked _ self member ended
  | force entered resting =>
    rcases resting with isIdle | ⟨result, isFinished⟩
    · rw [show evaluator.phase = _ from isIdle] at guard
      cases guard
    · rw [show evaluator.phase = _ from isFinished] at guard
      cases guard
  | cancel => exact .panicked _ self guard ended
  | exhaust => exact .panicked _ self guard ended

/-- One action of any evaluator or of the host. -/
theorem Fate.act {first last next : System H} {id : EvaluationId} {thunk : ThunkId}
    {base : Stack H} {actions : List (Action H)} {action : Action H}
    (fate : Fate natives program limit first actions last id thunk base)
    (reachable : Reachable natives program limit last)
    (run : Run natives program limit first actions last) (orderly : last.Orderly action)
    (acted : last.act natives program limit action = some next) :
    Fate natives program limit first (actions ++ [action]) next id thunk base := by
  have unmoved : ∀ evaluator, last.evaluators[id]? = some evaluator →
      next.evaluators[id]? = some evaluator ∨ ∃ state,
        Acts natives program limit id (last.view evaluator) action state ∧
          next = last.update id state := by
    intro evaluator here
    rcases act_cases acted with ⟨self, moving, state, found, acts, rfl⟩ | ⟨cell, rfl, rfl⟩
    · by_cases same : id = self
      · subst same
        obtain rfl := Option.some.inj (here.symm.trans found)
        exact .inr ⟨state, acts, rfl⟩
      · rw [update_evaluators found, if_neg same]
        exact .inl here
    · exact .inl here
  cases fate with
  | computing evaluator above here stack =>
    rcases unmoved evaluator here with same | ⟨state, acts, rfl⟩
    · exact .computing evaluator above same stack
    · exact .computing_act reachable run orderly here stack acts
  | panicked evaluator here guard ended =>
    rcases unmoved evaluator here with same | ⟨state, acts, rfl⟩
    · exact .panicked evaluator same guard (ended.snoc action)
    · exact .panicked_act reachable here guard ended acts
  | done result stored settled ended =>
    exact .done result (reachable.settled_act acted stored settled) settled (ended.snoc action)

/-- A run in which no evaluator is stopped while its current `run_machine` owns a thunk. -/
theorem Fate.run {first last : System H} {id : EvaluationId} {thunk : ThunkId}
    {base : Stack H} {actions : List (Action H)} (reachable : Reachable natives program limit first)
    (run : RunWhere natives program limit Orderly first actions last)
    (fate : Fate natives program limit first [] first id thunk base) :
    Fate natives program limit first actions last id thunk base := by
  induction run with
  | refl => exact fate
  | snoc run orderly acted ih => exact ih.act (reachable.run run.run) run.run orderly acted

/-- The evaluator that enters the thunk goes on with this state of it. -/
inductive Obtains : ThunkState H → Phase H → Prop
  | value (value : Value H ThunkId) : Obtains (.evaluated value) (.loop (.returned (.value value)))
  | error (error : RuntimeError) : Obtains (.failed error) (.loop (.raise error))
  | link (target : ThunkId) : Obtains (.indirection target) (.entering target)

theorem enterThunk_settled {self : EvaluationId} {state next : Local H} {thunk : ThunkId}
    {result : ThunkState H} (stored : state.heap[thunk]? = some result) (settled : result.Settled)
    (step : state.enterThunk limit self thunk = some next) : Obtains result next.phase := by
  cases result with
  | suspended _ => exact settled.elim
  | evaluating _ => exact settled.elim
  | evaluated value =>
    simp only [Local.enterThunk, stored, Option.some.injEq] at step
    exact step ▸ .value value
  | indirection target =>
    simp only [Local.enterThunk, stored, Option.some.injEq] at step
    exact step ▸ .link target
  | failed error =>
    simp only [Local.enterThunk, stored, Option.some.injEq] at step
    exact step ▸ .error error

theorem enters_settled {system next : System H} {id : EvaluationId} {thunk : ThunkId}
    {result : ThunkState H} {evaluator : Evaluator H} (enters : system.Enters id thunk)
    (stored : system.heap[thunk]? = some result) (settled : result.Settled)
    (acted : system.act natives program limit (.step id) = some next)
    (here : next.evaluators[id]? = some evaluator) : Obtains result evaluator.phase := by
  obtain ⟨former, found, entering⟩ := enters
  simp only [act, System.evaluator, found, Option.bind_eq_bind, Option.bind_some,
    Option.bind_eq_some_iff, Option.some.injEq] at acted
  obtain ⟨state, step, rfl⟩ := acted
  rw [update_evaluators found, if_pos rfl] at here
  obtain rfl := Option.some.inj here
  simp only [Local.step, view, Local.phase, entering] at step
  exact enterThunk_settled stored settled step

/-- In a run in which no evaluator is stopped while it owns thunks: an evaluator that enters a thunk
whose computation was under way finds it under way still, by the same evaluator, or obtains the
result to which that computation has come. -/
theorem forced_own_result {first last next : System H} {actions : List (Action H)}
    (reachable : Reachable natives program limit first)
    (run : RunWhere natives program limit Orderly first actions last)
    {id : EvaluationId} {evaluator : Evaluator H} {thunk : ThunkId} {above base : Stack H}
    (here : first.evaluators[id]? = some evaluator)
    (computing : evaluator.stack = above ++ .update thunk :: base)
    {other : EvaluationId} {found : Evaluator H} (enters : last.Enters other thunk)
    (acted : last.act natives program limit (.step other) = some next)
    (isFound : next.evaluators[other]? = some found) :
    (last.Owns id thunk ∧ thunk ∈ last.holds id) ∨
      ∃ result, Ended natives program limit first actions id thunk base result ∧
        Obtains result found.phase := by
  have reached := reachable.run run.run
  have held : thunk ∈ last.holds id → last.Owns id thunk ∧ thunk ∈ last.holds id :=
    fun member => ⟨(reached.owned.evaluating thunk id).mpr member, member⟩
  cases Fate.run reachable run (.computing evaluator above here computing) with
  | computing evaluator above here stack =>
    refine .inl (held ?_)
    rw [holds_of here]
    exact List.mem_append_right _ (owned_of_stack stack)
  | panicked evaluator here guard ended =>
    refine .inl (held ?_)
    rw [holds_of here]
    exact List.mem_append_left _ guard
  | done result stored settled ended =>
    exact .inr ⟨result, ended, enters_settled enters stored settled acted isFound⟩

section Cancellation

/-- The first evaluator has claimed the function of `sharedThunks` and is cancelled. -/
def cancelledOwner : System bare where
  heap := [.evaluating 0, .suspended (.apply 0 0)]
  waits := []
  evaluators := [⟨.loop (.evaluate 0 []), [.update 0], true, none⟩, ⟨.idle, [], false, none⟩]

theorem acts_cancelledOwner : sharedThunks.acts bareNatives identityProgram none
    [.force 0 0, .step 0, .step 0, .cancel 0] = some cancelledOwner := rfl

/-- The first evaluator leaves past its stack, and the second enters the function. -/
def leaveActions : List (Action bare) := [.step 0, .step 0, .step 0, .force 1 0, .step 1]

def leftSystem : System bare where
  heap := [.failed unwound, .suspended (.apply 0 0)]
  waits := []
  evaluators := [⟨.finished (.error .cancelled), [], true, none⟩, ⟨.entering 0, [], false, none⟩]

theorem acts_left :
    cancelledOwner.acts bareNatives identityProgram none leaveActions = some leftSystem := rfl

/-- The first evaluator has claimed the function of `sharedThunks`. -/
def claimedFunction : System bare where
  heap := [.evaluating 0, .suspended (.apply 0 0)]
  waits := []
  evaluators := [⟨.loop (.evaluate 0 []), [.update 0], false, none⟩, ⟨.idle, [], false, none⟩]

theorem acts_claimedFunction : sharedThunks.acts bareNatives identityProgram none
    [.force 0 0, .step 0, .step 0] = some claimedFunction := rfl

/-- The first evaluator has completed the function, and the second enters it. -/
def completedFunction : System bare where
  heap := [.evaluated (.function (.guest 1 [])), .suspended (.apply 0 0)]
  waits := []
  evaluators := [⟨.loop (.returned (.value (.function (.guest 1 [])))), [], false, none⟩,
    ⟨.entering 0, [], false, none⟩]

theorem runWhere_completed : RunWhere bareNatives identityProgram none Orderly claimedFunction
    [.step 0, .step 0, .force 1 0, .step 1] completedFunction := by
  have orderly : ∀ (system : System bare) (action : Action bare),
      (∀ evaluator ∈ system.evaluators, evaluator.stopped = none) → system.Orderly action := by
    intro system action running id evaluator control _ here _ stopped
    simp [running evaluator (List.mem_of_getElem? here)] at stopped
  refine .snoc (.snoc (.snoc (.snoc (.refl _) (orderly _ _ ?_) rfl) (orderly _ _ ?_) rfl)
    (orderly _ _ ?_) rfl) (orderly _ _ ?_) rfl <;> rintro _ (_ | ⟨_, _ | ⟨_, ⟨⟩⟩⟩) <;> rfl

/-- The second evaluator obtains the function that the first has computed. -/
theorem completed_own_result : ∃ result,
    Ended bareNatives identityProgram none claimedFunction [.step 0, .step 0, .force 1 0, .step 1]
      0 0 [] result ∧ Obtains result (.loop (.returned (.value (.function (.guest 1 []))))) := by
  have reachable : Reachable bareNatives identityProgram none claimedFunction :=
    ⟨_, _, sharedThunks_initial, run_of_acts acts_claimedFunction⟩
  rcases @forced_own_result bare bareNatives identityProgram none claimedFunction completedFunction _
    _ reachable runWhere_completed 0 _ 0 [] [] rfl rfl 1 _ ⟨_, rfl, rfl⟩ rfl rfl with ⟨owns, _⟩ | own
  · cases owns
  · exact own

/-- The second evaluator obtains an internal failure of the cancelled owner. -/
theorem cancellation_leaks : ¬∀ (H : Host) (natives : Natives H) (program : CoreProgram)
    (limit : FrameLimit) (first last next : System H) (actions : List (Action H)),
    Reachable natives program limit first → Run natives program limit first actions last →
      ∀ id evaluator thunk above base, first.evaluators[id]? = some evaluator →
        evaluator.stack = above ++ .update thunk :: base →
          ∀ other found, last.Enters other thunk →
            last.act natives program limit (.step other) = some next →
              next.evaluators[other]? = some found →
                (last.Owns id thunk ∧ thunk ∈ last.holds id) ∨
                  ∃ result, Ended natives program limit first actions id thunk base result ∧
                    Obtains result found.phase := by
  intro always
  have reachable : Reachable bareNatives identityProgram none cancelledOwner :=
    ⟨_, _, sharedThunks_initial, run_of_acts acts_cancelledOwner⟩
  rcases always bare bareNatives identityProgram none cancelledOwner leftSystem _ leaveActions
    reachable (run_of_acts acts_left) 0 _ 0 [] [] rfl rfl 1 _ ⟨_, rfl, rfl⟩ rfl rfl with
    ⟨owns, _⟩ | ⟨result, ended, obtains⟩
  · cases owns
  · cases obtains
    obtain ⟨before, after, middle, evaluator, split, run, here, ends⟩ := ended
    have acted := run.acts
    have member : before ∈ leaveActions.inits := (List.mem_inits _ _).mpr ⟨after, split⟩
    simp only [leaveActions, List.inits, List.map_cons, List.map_nil, List.mem_cons,
      List.not_mem_nil, or_false] at member
    -- The first evaluator is never at a result of the function.
    rcases member with rfl | rfl | rfl | rfl | rfl | rfl <;>
      obtain rfl := Option.some.inj acted <;> cases here <;> cases ends <;> contradiction

end Cancellation

end System

end HellRs.Runtime
