import HellRs.Scope.Close
import HellRs.Scope.Token

/-! # Execution scopes shared by threads

Any number of threads that admit resources, finalizers, child scopes and tasks, and that cancel, close
and drop scopes. A thread has a stack of work; a step performs the entry on top, which is one read of
the closed flag, one section under a mutex, or one call to a resource. Waiting for tasks lasts until
all of them have finished: no task stalls. What was admitted, asked, closed, run or joined is on a log.
-/

namespace HellRs.Scope.Shared

/-- What a scope admits besides its child scopes. -/
inductive Kind where
  | resource
  | finalizer
  | task
deriving DecidableEq, Repr

/-- `ExecutionScopeInner`; of its cancellation token the reason set on the token itself. -/
structure ScopeInner where
  reason : Option CancelReason
  closed : Bool
  parent : Option ScopeId
  children : List ScopeId
  resources : List ResourceId
  finalizers : List FinalizerId
  tasks : List TaskId
  /-- The last handle is gone: the scope cannot be upgraded. -/
  dropped : Bool
deriving DecidableEq, Repr

/-- Where `close_with_primary` is after its call of `cancel`. -/
inductive CloseStage where
  | children
  | clear
  | tasks
  | finalize
  | resources
  | finalizers
  | detach
deriving DecidableEq, Repr

inductive Work where
  /-- `ExecutionScope::cancel`, before `cancel_once`. -/
  | cancel (scope : ScopeId) (reason : CancelReason)
  /-- `ResourceRegistry::request_cancel`, before it lists the resources. -/
  | request (scope : ScopeId) (reason : CancelReason)
  | requestOne (resource : ResourceId) (reason : CancelReason)
  | cancelChildren (scope : ScopeId)
  /-- `close_with_primary`, before it swaps the flag. -/
  | close (scope : ScopeId)
  | closing (scope : ScopeId) (stage : CloseStage)
  /-- An admission that has found the flag unset. -/
  | register (scope : ScopeId)
  | defer (scope : ScopeId)
  | child (scope : ScopeId)
  | spawn (scope : ScopeId)
  | spawnChild (scope : ScopeId)
  | insertTask (scope : ScopeId) (task : TaskId)
  /-- A task runs in its own scope. -/
  | body (task : TaskId) (scope : ScopeId)
  | markFinished (task : TaskId)
deriving DecidableEq, Repr

inductive Event where
  | admitted (kind : Kind) (scope : ScopeId) (id : ℕ)
  | opened (scope child : ScopeId)
  | refused (scope : ScopeId)
  | asked (resource : ResourceId) (reason : CancelReason)
  /-- A resource is closed, a finalizer is run or a task is joined. -/
  | handled (kind : Kind) (id : ℕ)
  | stalled (task : TaskId)
  /-- The call of `close_with_primary` that has set the flag is over. -/
  | shut (scope : ScopeId)
  /-- A call of `close_with_primary` returns. -/
  | returned (scope : ScopeId)
deriving DecidableEq, Repr

structure ScopeSystem where
  scopes : List ScopeInner
  threads : List (List Work)
  finished : List TaskId
  /-- The next id of a resource, a finalizer or a task. -/
  fresh : ℕ
  log : List Event
deriving DecidableEq, Repr

namespace ScopeInner

/-- A scope as `with_cancellation` and `child` make it. -/
def new (parent : Option ScopeId) : ScopeInner := ⟨none, false, parent, [], [], [], [], false⟩

def missing : ScopeInner := ⟨none, false, none, [], [], [], [], true⟩

def items (scope : ScopeInner) : Kind → List ℕ
  | .resource => scope.resources
  | .finalizer => scope.finalizers
  | .task => scope.tasks

def setItems (scope : ScopeInner) (items : List ℕ) : Kind → ScopeInner
  | .resource => { scope with resources := items }
  | .finalizer => { scope with finalizers := items }
  | .task => { scope with tasks := items }

end ScopeInner

namespace Work

/-- The scope of which the work has a handle. -/
def scope : Work → Option ScopeId
  | cancel scope _ => some scope
  | request scope _ => some scope
  | cancelChildren scope => some scope
  | close scope => some scope
  | closing scope _ => some scope
  | register scope => some scope
  | defer scope => some scope
  | child scope => some scope
  | spawn scope => some scope
  | spawnChild scope => some scope
  | insertTask scope _ => some scope
  | body _ scope => some scope
  | _ => none

end Work

/-- The thread, or its task, is in no call. -/
def resting : List Work → Bool
  | [] => true
  | [.body _ _] => true
  | _ => false

namespace ScopeSystem

def scope (system : ScopeSystem) (id : ScopeId) : ScopeInner := (system.scopes[id]?).getD .missing

def modify (system : ScopeSystem) (id : ScopeId) (change : ScopeInner → ScopeInner) : ScopeSystem :=
  { system with scopes := system.scopes.modify id change }

def become (system : ScopeSystem) (thread : ThreadId) (stack : List Work) : ScopeSystem :=
  { system with threads := system.threads.set thread stack }

def record (system : ScopeSystem) (events : List Event) : ScopeSystem :=
  { system with log := system.log ++ events }

/-- The children that can be upgraded. -/
def liveChildren (system : ScopeSystem) (id : ScopeId) : List ScopeId :=
  (system.scope id).children.filter fun child => !(system.scope child).dropped

/-- A fresh entry in one of the lists of the scope. -/
def accept (system : ScopeSystem) (kind : Kind) (id : ScopeId) (item : ℕ) : ScopeSystem :=
  (system.modify id fun scope => scope.setItems (scope.items kind ++ [item]) kind).record
    [.admitted kind id item]

/-- `ExecutionScope::child` after its check: the new scope is private until the parent lists it. -/
def openChild (system : ScopeSystem) (id : ScopeId) : ScopeSystem :=
  let listed := system.modify id fun scope =>
    { scope with children := scope.children ++ [system.scopes.length] }
  { listed with
    scopes := listed.scopes ++ [.new (some id)]
    log := listed.log ++ [.opened id system.scopes.length] }

/-- Empty one of the lists of a scope; `handle` says what happens to its entries, in this order. -/
def drain (system : ScopeSystem) (kind : Kind) (id : ScopeId) (order : List ℕ → List ℕ)
    (handle : ℕ → Event) : ScopeSystem :=
  (system.modify id fun scope => scope.setItems [] kind).record
    ((order ((system.scope id).items kind)).map handle)

/-- What the end of a task is: a task that has not finished when `finalize` runs is not joined. -/
def joined (system : ScopeSystem) (task : TaskId) : Event :=
  if task ∈ system.finished then .handled .task task else .stalled task

/-- The parent forgets a scope that is closed. -/
def detach (system : ScopeSystem) (id : ScopeId) : ScopeSystem :=
  match (system.scope id).parent with
  | none => system
  | some parent =>
      if (system.scope parent).dropped then system
      else system.modify parent fun scope =>
        { scope with children := scope.children.filter fun child => child ≠ id }

/-- One stage of `close_with_primary`: the work it calls, and its effect. -/
def closeStep (system : ScopeSystem) (id : ScopeId) : CloseStage → Option (List Work × ScopeSystem)
  | .children => some ((system.liveChildren id).reverse.map .close ++ [.closing id .clear], system)
  | .clear => some ([.closing id .tasks], system.modify id fun scope => { scope with children := [] })
  | .tasks =>
      if ∀ task ∈ (system.scope id).tasks, task ∈ system.finished then
        some ([.closing id .finalize], system)
      else none
  | .finalize => some ([.closing id .resources], system.drain .task id (fun tasks => tasks) system.joined)
  | .resources =>
      some ([.closing id .finalizers], system.drain .resource id List.reverse (.handled .resource))
  | .finalizers =>
      some ([.closing id .detach], system.drain .finalizer id List.reverse (.handled .finalizer))
  | .detach => some ([], (system.detach id).record [.shut id, .returned id])

/-- What the entry on top of a stack calls, and its effect; `granted` tells whether the budget admits
a task. -/
def perform (system : ScopeSystem) (granted : Bool) : Work → Option (List Work × ScopeSystem)
  | .cancel id reason =>
      some (if (system.scope id).reason.isSome then ([], system)
        else ([.request id reason, .cancelChildren id],
          system.modify id fun scope => { scope with reason := some reason }))
  | .request id reason =>
      some ((system.scope id).resources.reverse.map fun resource => .requestOne resource reason, system)
  | .requestOne resource reason => some ([], system.record [.asked resource reason])
  | .cancelChildren id =>
      some ((system.liveChildren id).map fun child => .cancel child .parentCancelled, system)
  | .close id =>
      some (if (system.scope id).closed then ([], system.record [.returned id])
        else ([.cancel id .scopeClosed, .closing id .children],
          system.modify id fun scope => { scope with closed := true }))
  | .closing id stage => system.closeStep id stage
  | .register id =>
      some ([], { system.accept .resource id system.fresh with fresh := system.fresh + 1 })
  | .defer id =>
      some ([], { system.accept .finalizer id system.fresh with fresh := system.fresh + 1 })
  | .child id => some ([], system.openChild id)
  | .spawn id =>
      some (if granted && !(system.scope id).closed then ([.spawnChild id], system)
        else ([], system.record [.refused id]))
  | .spawnChild id =>
      some ([.insertTask id system.fresh], { system.openChild id with
        threads := system.threads ++ [[.body system.fresh system.scopes.length]]
        fresh := system.fresh + 1 })
  | .insertTask id task => some ([], system.accept .task id task)
  | .body _ _ => none
  | .markFinished task => some ([], { system with finished := task :: system.finished })

end ScopeSystem

inductive ScopeAction where
  /-- `ExecutionScope::root`. -/
  | root
  | register (thread : ThreadId) (scope : ScopeId)
  | defer (thread : ThreadId) (scope : ScopeId)
  | child (thread : ThreadId) (scope : ScopeId)
  | spawn (thread : ThreadId) (scope : ScopeId)
  /-- By the program, by a deadline at a safepoint. -/
  | cancel (thread : ThreadId) (scope : ScopeId) (reason : CancelReason)
  /-- `cancel` of the cancellation token of the scope. -/
  | cancelToken (scope : ScopeId) (reason : CancelReason)
  | close (thread : ThreadId) (scope : ScopeId)
  /-- The function of a task returns. -/
  | finish (thread : ThreadId)
  | drop (scope : ScopeId)
  | step (thread : ThreadId) (granted : Bool)
deriving DecidableEq, Repr

namespace ScopeSystem

/-- Start a call on a scope of which there is a handle, in a thread that is in no call. -/
def call (system : ScopeSystem) (thread : ThreadId) (id : ScopeId) (work : Work) : Option ScopeSystem := do
  let stack ← system.threads[thread]?
  if resting stack && !(system.scope id).dropped then some (system.become thread (work :: stack)) else none

/-- The check of the closed flag that every admission starts with. -/
def admission (system : ScopeSystem) (thread : ThreadId) (id : ScopeId) (work : Work) :
    Option ScopeSystem := do
  let called ← system.call thread id work
  some (if (system.scope id).closed then system.record [.refused id] else called)

def mentioned (system : ScopeSystem) (id : ScopeId) : Bool :=
  system.threads.any fun stack => stack.any fun work => decide (work.scope = some id)

def act (system : ScopeSystem) : ScopeAction → Option ScopeSystem
  | .root => some { system with scopes := system.scopes ++ [.new none] }
  | .register thread id => system.admission thread id (.register id)
  | .defer thread id => system.admission thread id (.defer id)
  | .child thread id => system.admission thread id (.child id)
  | .spawn thread id => system.admission thread id (.spawn id)
  | .cancel thread id reason => system.call thread id (.cancel id reason)
  | .cancelToken id reason =>
      if (system.scope id).dropped then none
      else some (system.modify id fun scope => { scope with reason := scope.reason.or (some reason) })
  | .close thread id => system.call thread id (.close id)
  | .finish thread => do
      match ← system.threads[thread]? with
      | [.body task id] => some (system.become thread [.close id, .markFinished task])
      | _ => none
  | .drop id =>
      if (system.scope id).dropped || system.mentioned id then none
      else some (system.modify id fun scope => { scope with dropped := true })
  | .step thread granted => do
      match ← system.threads[thread]? with
      | [] => none
      | work :: rest => do
          let (pushed, next) ← system.perform granted work
          some (next.become thread (pushed ++ rest))

structure Initial (system : ScopeSystem) : Prop where
  scopes : system.scopes = []
  threads : ∀ stack ∈ system.threads, stack = []
  finished : system.finished = []
  log : system.log = []

end ScopeSystem

end HellRs.Scope.Shared
