import HellRs.Lib.Chase
import HellRs.Runtime.Transitions

/-! # Evaluators that share thunks

Any number of evaluators over one heap. An action lets one evaluator take one atomic step, at the
granularity of the locks: an iteration of `run_machine`, one thunk in the loop of `enter_thunk`, one
thunk updated by an unwinding or dropped stack, or one move of running code. The host can start an
evaluator on a thunk, allocate thunks, and stop an evaluator from outside.
-/

namespace HellRs.Runtime

open Core Builtins

abbrev ThunkId := ℕ
abbrev EvaluationId := ℕ

variable {H : Host}

inductive ThunkState (H : Host) where
  | suspended (suspension : Suspension H ThunkId)
  | evaluating (owner : EvaluationId)
  | evaluated (value : Value H ThunkId)
  | indirection (target : ThunkId)
  | failed (error : RuntimeError)

abbrev Heap (H : Host) := List (ThunkState H)

/-- The state of a new thunk at this position. -/
def Cell.state (self : ThunkId) : Cell H ThunkId → ThunkState H
  | .suspended suspension => .suspended suspension
  | .evaluated value => .evaluated value
  | .fixed function => .suspended (.fix function self)

/-- Allocate on the heap. -/
def Heap.allocate (heap : Heap H) (cell : Cell H ThunkId) : Heap H := heap ++ [cell.state heap.length]

/-- Carry out the allocations of a transition. -/
def Fresh.onHeap {α : Type} : Fresh H ThunkId α → Heap H → α × Heap H
  | .done result, heap => (result, heap)
  | .allocate cell next, heap => (next heap.length).onHeap (heap.allocate cell)

/-- Where an evaluator is. -/
inductive Phase (H : Host) where
  | idle
  /-- At the top of the loop of `run_machine`. -/
  | loop (control : Control H ThunkId)
  /-- In the loop of `enter_thunk`. -/
  | entering (thunk : ThunkId)
  /-- Registered in the wait graph and waiting for the thunk. -/
  | waiting (thunk : ThunkId) (owner : EvaluationId)
  /-- Back from waiting. -/
  | woken (thunk : ThunkId)
  | running (running : Running H ThunkId)
  /-- In `unwind_machine`. -/
  | unwinding (error : RuntimeError)
  /-- An error leaves `run_machine` past its stack; the guards of these thunks are yet to drop. -/
  | dropping (error : RuntimeError) (guards : List ThunkId)
  | finished (result : Except RuntimeError (Value H ThunkId))

abbrev Stack (H : Host) := List (Frame H ThunkId)

structure Evaluator (H : Host) where
  phase : Phase H
  stack : Stack H
  /-- The scope is cancelled or its deadline has passed. -/
  cancelled : Bool
  /-- The step limit is exhausted: the error of every further charge. -/
  exhausted : Option RuntimeError

/-- `charge_steps` and `ensure_not_cancelled` at the top of the loop of `run_machine`. -/
def Evaluator.stopped (evaluator : Evaluator H) : Option RuntimeError :=
  evaluator.exhausted <|> if evaluator.cancelled then some .cancelled else none

/-- The wait graph: each waiting evaluation with the evaluation it waits for. -/
abbrev WaitGraph := List (EvaluationId × EvaluationId)

/-- `graph.get(&waiter)`. -/
def WaitGraph.next (graph : WaitGraph) (waiter : EvaluationId) : Option EvaluationId :=
  (graph.find? fun edge => edge.1 = waiter).map Prod.snd

/-- `register_wait`: no result when the walk from the owner meets the waiter. -/
def registerWait (graph : WaitGraph) (waiter owner : EvaluationId) : Option WaitGraph :=
  if Chase.meets graph.next waiter (graph.length + 1) owner [] then none
  else some ((waiter, owner) :: graph.filter fun edge => edge.1 ≠ waiter)

/-- `WaitRegistration::drop`. -/
def WaitGraph.remove (graph : WaitGraph) (waiter : EvaluationId) : WaitGraph :=
  graph.filter fun edge => edge.1 ≠ waiter

structure System (H : Host) where
  heap : Heap H
  waits : WaitGraph
  evaluators : List (Evaluator H)

namespace Frame

/-- The frames of the current `run_machine` end here. -/
def isForcing : Frame H ThunkId → Bool
  | .forcing _ => true
  | _ => false

def updated : Frame H ThunkId → Option ThunkId
  | .update thunk => some thunk
  | _ => none

end Frame

namespace Stack

/-- The stack of the current `run_machine`, the top first. -/
def current (stack : Stack H) : Stack H := stack.takeWhile fun frame => !frame.isForcing

/-- The frames below the current `run_machine`. -/
def below (stack : Stack H) : Stack H := stack.dropWhile fun frame => !frame.isForcing

/-- The thunks whose update frames are on the stack. -/
def owned (stack : Stack H) : List ThunkId := stack.filterMap Frame.updated

/-- The guards of the current stack in the order in which they drop. -/
def guards (stack : Stack H) : List ThunkId := stack.current.owned.reverse

end Stack

/-- The phase in which the caller of a nested call, or the host, takes the result. -/
def deliver (natives : Natives H) (result : Except RuntimeError (Value H ThunkId)) :
    Stack H → Phase H × Stack H
  | .forcing caller :: stack => (.running (caller.resume natives result), stack)
  | stack => (.finished result, stack)

/-- The configured limit on the frames of one `run_machine`. -/
abbrev FrameLimit := Option ℕ

def frameLimitError (maximum : ℕ) : RuntimeError :=
  .resourceLimit ("evaluation exceeded the configured limit of " ++ toString maximum ++
    " machine frames")

/-- The limit, if this many more frames exceed it. -/
def FrameLimit.exceeded (limit : FrameLimit) (stack : Stack H) (more : ℕ) : Option ℕ :=
  limit.filter fun maximum => maximum < stack.current.length + more

/-- What one evaluator sees and changes. -/
structure Local (H : Host) where
  heap : Heap H
  waits : WaitGraph
  evaluator : Evaluator H

namespace Local

/-- Go on in this phase with this stack. -/
def move (state : Local H) (phase : Phase H) (stack : Stack H) : Local H :=
  { state with evaluator := { state.evaluator with phase, stack } }

def phase (state : Local H) : Phase H := state.evaluator.phase

def stack (state : Local H) : Stack H := state.evaluator.stack

/-- Overwrite a thunk. -/
def store (state : Local H) (thunk : ThunkId) (new : ThunkState H) : Local H :=
  { state with heap := state.heap.set thunk new }

/-- Hand a result to the caller of this `run_machine`. -/
def leave (natives : Natives H) (state : Local H) (result : Except RuntimeError (Value H ThunkId))
    (stack : Stack H) : Local H :=
  let (phase, stack) := deliver natives result stack
  state.move phase stack

/-- An error leaves `run_machine` past the stack. -/
def drop (state : Local H) (error : RuntimeError) : Local H :=
  state.move (.dropping error state.stack.guards) state.stack.below

/-- Carry out a transition on this stack. -/
def settle (limit : FrameLimit) (state : Local H) (stack : Stack H)
    (transition : Fresh H ThunkId (Pushed H ThunkId)) : Local H :=
  let (result, heap) := transition.onHeap state.heap
  let state := { state with heap }
  match result with
  | .error error => state.move (.loop (.raise error)) stack
  | .ok (pushed, next) =>
      match limit.exceeded stack pushed.length with
      | some maximum => state.move (.loop (.raise (frameLimitError maximum))) stack
      | none =>
          let stack := pushed.map .continuation ++ stack
          match next with
          | .control control => state.move (.loop control) stack
          | .call running => state.move (.running running) stack

/-- An iteration of `run_machine` that is not stopped. -/
def iterate (natives : Natives H) (program : CoreProgram) (limit : FrameLimit) (state : Local H) :
    Control H ThunkId → Local H
  | .raise error => state.move (.unwinding error) state.stack
  | .returned (.aliasOf target) =>
      match state.stack with
      | .update thunk :: stack =>
          (state.store thunk (.indirection target)).move (.loop (.enter target)) stack
      | stack => state.move (.loop (.enter target)) stack
  | .returned (.value value) =>
      match state.stack with
      | .update thunk :: stack =>
          (state.store thunk (.evaluated value)).move (.loop (.returned (.value value))) stack
      | .continuation frame :: stack => state.settle limit stack (resumeFrame natives frame value)
      | stack => state.leave natives (.ok value) stack
  | .enter thunk => state.move (.entering thunk) state.stack
  | .evaluate node environment =>
      state.settle limit state.stack (evaluateControl natives program node environment)

/-- One round of the loop of `enter_thunk`. There is none on a position outside the heap. -/
def enterThunk (limit : FrameLimit) (self : EvaluationId) (state : Local H) (thunk : ThunkId) :
    Option (Local H) :=
  match state.heap[thunk]? with
  | none => none
  | some (.evaluated value) => some (state.move (.loop (.returned (.value value))) state.stack)
  | some (.failed error) => some (state.move (.loop (.raise error)) state.stack)
  | some (.indirection target) => some (state.move (.entering target) state.stack)
  | some (.evaluating owner) =>
      if owner = self then some (state.move (.loop (.raise .blackHole)) state.stack)
      else
        match registerWait state.waits self owner with
        | none => some (state.move (.loop (.raise .waitCycle)) state.stack)
        | some waits => some ({ state with waits }.move (.waiting thunk owner) state.stack)
  | some (.suspended suspension) =>
      match limit.exceeded state.stack 1 with
      | some maximum => some (state.move (.loop (.raise (frameLimitError maximum))) state.stack)
      | none => some ((state.store thunk (.evaluating self)).settle limit
          (.update thunk :: state.stack) (enterSuspension suspension))

/-- One move of running code. -/
def advance (natives : Natives H) (state : Local H) (running : Running H ThunkId) : Local H :=
  match running.act natives with
  | .finish outcome => state.move (.loop (.returned outcome)) state.stack
  | .fail error => state.move (.loop (.raise error)) state.stack
  | .panic => state.drop (.internal "panic crossed the native/core evaluation boundary")
  | .force thunk => state.move (.loop (.enter thunk)) (.forcing running :: state.stack)
  | .allocate cell =>
      { state with heap := state.heap.allocate cell }.move
        (.running (running.allocated natives state.heap.length)) state.stack

/-- One frame of `unwind_machine`. -/
def unwind (natives : Natives H) (state : Local H) (error : RuntimeError) : Local H :=
  match state.stack with
  | .update thunk :: stack => (state.store thunk (.failed error)).move (.unwinding error) stack
  | .continuation _ :: stack => state.move (.unwinding error) stack
  | stack => state.leave natives (.error error) stack

/-- `ThunkUpdateGuard::drop`. -/
def dropGuard (natives : Natives H) (state : Local H) (error : RuntimeError) :
    List ThunkId → Local H
  | [] => state.leave natives (.error error) state.stack
  | thunk :: guards =>
      (state.store thunk (.failed (.internal "evaluation unwound while updating a thunk"))).move
        (.dropping error guards) state.stack

/-- One atomic step of an evaluator. -/
def step (natives : Natives H) (program : CoreProgram) (limit : FrameLimit) (self : EvaluationId)
    (state : Local H) : Option (Local H) :=
  match state.phase with
  | .idle => none
  | .finished _ => none
  | .loop control =>
      match state.evaluator.stopped with
      | some error => some (state.drop error)
      | none => some (state.iterate natives program limit control)
  | .entering thunk => state.enterThunk limit self thunk
  | .waiting thunk _ =>
      some ({ state with waits := state.waits.remove self }.move (.woken thunk) state.stack)
  | .woken thunk =>
      if state.evaluator.cancelled then some (state.move (.loop (.raise .cancelled)) state.stack)
      else some (state.move (.entering thunk) state.stack)
  | .running running => some (state.advance natives running)
  | .unwinding error => some (state.unwind natives error)
  | .dropping error guards => some (state.dropGuard natives error guards)

end Local

/-- What can happen in a system. -/
inductive Action (H : Host) where
  /-- The host forces a thunk with an evaluator that is not running. -/
  | force (evaluator : EvaluationId) (thunk : ThunkId)
  | step (evaluator : EvaluationId)
  | cancel (evaluator : EvaluationId)
  | exhaust (evaluator : EvaluationId) (maximum : ℕ) (profile : String)
  /-- The host allocates a thunk. -/
  | allocate (cell : Cell H ThunkId)

namespace System

def evaluator (system : System H) (id : EvaluationId) : Option (Evaluator H) := system.evaluators[id]?

/-- What the evaluator sees. -/
def view (system : System H) (evaluator : Evaluator H) : Local H :=
  ⟨system.heap, system.waits, evaluator⟩

/-- The system after a step of one evaluator. -/
def update (system : System H) (id : EvaluationId) (state : Local H) : System H :=
  ⟨state.heap, state.waits, system.evaluators.set id state.evaluator⟩

def act (natives : Natives H) (program : CoreProgram) (limit : FrameLimit) (system : System H) :
    Action H → Option (System H)
  | .force id thunk => do
      let evaluator ← system.evaluator id
      match evaluator.phase with
      | .idle | .finished _ =>
          some (system.update id ((system.view evaluator).move (.loop (.enter thunk)) []))
      | _ => none
  | .step id => do
      let evaluator ← system.evaluator id
      let state ← (system.view evaluator).step natives program limit id
      some (system.update id state)
  | .cancel id => do
      let evaluator ← system.evaluator id
      some (system.update id (system.view { evaluator with cancelled := true }))
  | .exhaust id maximum profile => do
      let evaluator ← system.evaluator id
      some (system.update id (system.view
        { evaluator with exhausted := some (.stepLimit maximum profile) }))
  | .allocate cell => some { system with heap := system.heap.allocate cell }

/-- A run from one system to another. -/
inductive Run (natives : Natives H) (program : CoreProgram) (limit : FrameLimit) :
    System H → List (Action H) → System H → Prop
  | refl (system : System H) : Run natives program limit system [] system
  | snoc {first middle last : System H} {actions : List (Action H)} {action : Action H}
      (run : Run natives program limit first actions middle)
      (step : middle.act natives program limit action = some last) :
      Run natives program limit first (actions ++ [action]) last

variable {natives : Natives H} {program : CoreProgram} {limit : FrameLimit}

theorem Run.cons {first middle last : System H} {action : Action H} {actions : List (Action H)}
    (step : first.act natives program limit action = some middle)
    (run : Run natives program limit middle actions last) :
    Run natives program limit first (action :: actions) last := by
  induction run with
  | refl => exact .snoc (.refl first) step
  | snoc _ acted ih => exact .snoc ih acted

/-- A run whose actions all meet a condition on the state before them. -/
inductive RunWhere (natives : Natives H) (program : CoreProgram) (limit : FrameLimit)
    (condition : System H → Action H → Prop) : System H → List (Action H) → System H → Prop
  | refl (system : System H) : RunWhere natives program limit condition system [] system
  | snoc {first middle last : System H} {actions : List (Action H)} {action : Action H}
      (run : RunWhere natives program limit condition first actions middle)
      (meets : condition middle action)
      (step : middle.act natives program limit action = some last) :
      RunWhere natives program limit condition first (actions ++ [action]) last

theorem RunWhere.run {condition : System H → Action H → Prop} {first last : System H}
    {actions : List (Action H)} (run : RunWhere natives program limit condition first actions last) :
    Run natives program limit first actions last := by
  induction run with
  | refl => exact .refl _
  | snoc _ _ step ih => exact .snoc ih step

/-- Some actions in a row. -/
def acts (natives : Natives H) (program : CoreProgram) (limit : FrameLimit) (system : System H) :
    List (Action H) → Option (System H)
  | [] => some system
  | action :: actions => do
      let next ← system.act natives program limit action
      next.acts natives program limit actions

theorem run_of_acts {system last : System H} {actions : List (Action H)}
    (acted : system.acts natives program limit actions = some last) :
    Run natives program limit system actions last := by
  induction actions generalizing system with
  | nil => cases acted; exact .refl _
  | cons action actions ih =>
    simp only [acts, Option.bind_eq_bind, Option.bind_eq_some_iff] at acted
    obtain ⟨next, step, acted⟩ := acted
    exact .cons step (ih acted)

theorem acts_append {system : System H} {first second : List (Action H)} :
    system.acts natives program limit (first ++ second) =
      (system.acts natives program limit first).bind
        fun middle => middle.acts natives program limit second := by
  induction first generalizing system with
  | nil => rfl
  | cons action first ih =>
    simp only [List.cons_append, acts, Option.bind_eq_bind, Option.bind_assoc, ih]

/-- A run is determined by its actions. -/
theorem Run.acts {system last : System H} {actions : List (Action H)}
    (run : Run natives program limit system actions last) :
    system.acts natives program limit actions = some last := by
  induction run with
  | refl => rfl
  | snoc _ acted ih => simp [acts_append, ih, System.acts, acted]

end System

end HellRs.Runtime
