import Mathlib
import HellRs.Concurrency.Timeout
import HellRs.Runtime.Counters

/-! # A pool of workers

`pooled` in the default build. The parent spawns a producer, which forces the input list and puts the items into a bounded
queue, and the workers, which take items from it, run the callback and report each result through an unbounded channel.
A worker whose callback has failed reports the error and then cancels the pool. The parent collects until all workers are
done, and then asks the producer and each worker how they ended. A check for cancellation is one step with what follows it:
a cancellation in between is like one right after, since the two do not touch the same data.
-/

namespace HellRs.Concurrency

open Runtime Scope Labelled

/-- A cell of the input list, when it is forced. -/
inductive Cell (ι : Type) where
  | nil
  | cons (item : ι)
  /-- Forcing it fails, or it is no list. -/
  | failed (error : Failure)

/-- The result of a callback, of its own or because it has found the pool cancelled. -/
structure Report (β : Type) where
  index : ℕ
  own : Bool
  result : Except Failure β

/-- Where `produce_jobs` and its task are. -/
inductive Producer (ι : Type) where
  | absent
  | forcing (index : ℕ)
  | sending (index : ℕ) (item : ι)
  | ended (result : Except Failure ℕ)
  | published (result : Except Failure ℕ)

/-- Where a worker and its task are. -/
inductive Worker (ι β : Type) where
  | absent
  | atSafepoint
  | checking
  | receiving
  | holding (index : ℕ) (item : ι)
  | running (index : ℕ) (item : ι)
  | reporting (report : Report β)
  /-- An error has been reported, and the pool is not yet cancelled. -/
  | failed
  | ended (result : Except Failure Unit)
  | published (result : Except Failure Unit)

/-- Where the parent is. -/
inductive PoolParent (β : Type) where
  | starting
  | spawning (worker : ℕ)
  /-- The values so far, the first error, and whether the cancellation of the parent has been checked. -/
  | collecting (values : List (ℕ × β)) (first : Option Failure) (checked : Bool)
  | awaitingProducer (values : List (ℕ × β))
  | awaitingWorkers (worker count : ℕ) (values : List (ℕ × β))
  | closing (decision : Except Failure (ℕ × List (ℕ × β)))
  | returned (result : Except Failure (Option (List β)))

/-- What a pool is started with, and the parallelism that the system offers. -/
structure PoolConfig (ι : Type) where
  stalledCleanupIsError : Bool
  discardResults : Bool
  input : ℕ → Cell ι
  policy : BudgetPolicy
  parallelism : ℕ

structure Pool (ι β : Type) where
  /-- The tasks outside the pool that hold a permit. -/
  others : ℕ
  enclosing : Bool
  /-- A deadline of the scope has passed. -/
  expired : Bool
  token : Option CancelReason
  producer : Producer ι
  worker : ℕ → Worker ι β
  /-- The parent has dropped its ends of the channels. -/
  released : Bool
  jobs : List (ℕ × ι)
  queue : List (Report β)
  parent : PoolParent β
  /-- The number of items that were put into the queue. -/
  pushed : ℕ
  /-- The items whose callback was started, and those that were dropped for a cancellation. -/
  started : List ℕ
  skipped : List ℕ
  /-- All reports, in order. -/
  history : List (Report β)

inductive PoolAct (β : Type) where
  | cancelEnclosing
  | expire
  | others (tasks : ℕ)
  | start
  | spawn
  | refuse (error : Failure)
  | release
  | produce
  | push
  | produceCancelled
  | sendDisconnected
  | publishProducer (scope : ScopeTree)
  | safepoint (worker : ℕ)
  | check (worker : ℕ)
  | take (worker : ℕ)
  | retry (worker : ℕ)
  | hangUp (worker : ℕ)
  | begin (worker : ℕ)
  | skip (worker : ℕ)
  | finish (worker : ℕ) (result : Except Failure β)
  | heed (worker : ℕ) (suppressed : List Failure)
  | die (worker : ℕ)
  | report (worker : ℕ)
  | cancelSiblings (worker : ℕ)
  | publish (worker : ℕ) (scope : ScopeTree)
  | poll
  | receive
  | giveUp
  | disconnect
  | await
  | stall
  | close (scope : ScopeTree)

namespace Producer

variable {ι : Type}

/-- The task of the producer holds a permit. -/
def live : Producer ι → Bool
  | absent => false
  | published _ => false
  | _ => true

/-- The producer has dropped its end of the queue. -/
def gone : Producer ι → Bool
  | ended _ => true
  | published _ => true
  | _ => false

end Producer

namespace Worker

variable {ι β : Type}

/-- The task of the worker holds a permit. -/
def live : Worker ι β → Bool
  | absent => false
  | published _ => false
  | _ => true

/-- The worker has dropped its ends of the channels. -/
def gone : Worker ι β → Bool
  | absent => true
  | ended _ => true
  | published _ => true
  | _ => false

end Worker

namespace PoolConfig

variable {ι : Type}

/-- `concurrent_action_limit`. -/
def workerCount (config : PoolConfig ι) : ℕ :=
  match config.policy.limits.concurrentTasks with
  | .At value => max value 1
  | .Unlimited => max config.parallelism 1

theorem workerCount_pos (config : PoolConfig ι) : 0 < config.workerCount := by
  unfold workerCount
  split <;> omega

/-- `worker_count.saturating_mul(2).max(1)`. -/
def queueCapacity (config : PoolConfig ι) : ℕ := max (min (config.workerCount * 2) u64Max) 1

end PoolConfig

namespace Pool

variable {ι β : Type}

def initial (others : ℕ) (enclosing expired : Bool) : Pool ι β :=
  ⟨others, enclosing, expired, none, .absent, fun _ => .absent, false, [], [], .starting, 0, [], [], []⟩

def setWorker (pool : Pool ι β) (index : ℕ) (worker : Worker ι β) : Pool ι β :=
  { pool with worker := Function.update pool.worker index worker }

/-- `cancel` of the pool scope: the first reason stays. -/
def cancel (pool : Pool ι β) (reason : CancelReason) : Pool ι β := { pool with token := pool.token <|> some reason }

/-- `is_cancelled` of the token of the pool scope. -/
def cancelled (pool : Pool ι β) : Prop := pool.token.isSome ∨ pool.enclosing = true

/-- The permits that are taken. -/
def permits (config : PoolConfig ι) (pool : Pool ι β) : ℕ :=
  pool.others + pool.producer.live.toNat + ∑ index ∈ Finset.range config.workerCount, (pool.worker index).live.toNat

/-- `acquire_task`: the number of permits with a new one, or the message of the refusal. -/
def acquireTask (config : PoolConfig ι) (pool : Pool ι β) : Except String ℕ :=
  nextValue config.policy .Tasks 1 (pool.permits config)

/-- All workers have dropped their ends of the channels. -/
def workersGone (config : PoolConfig ι) (pool : Pool ι β) : Prop :=
  ∀ index < config.workerCount, (pool.worker index).gone = true

/-- The parent closes the pool scope. -/
def stop (pool : Pool ι β) (decision : Except Failure (ℕ × List (ℕ × β))) : Pool ι β :=
  { pool.cancel .scopeClosed with parent := .closing decision }

def hasReturned (pool : Pool ι β) : Prop := ∃ result, pool.parent = .returned result

/-- The values in order of their indices, after the pool is closed. -/
def conclude (config : PoolConfig ι) : ℕ × List (ℕ × β) → Except Failure (Option (List β))
  | (count, values) =>
      if values.length ≠ count then .error (.internal "pooled action completed without one result per input")
      else if config.discardResults then .ok none
      else .ok (some ((values.mergeSort fun left right => left.1 ≤ right.1).map Prod.snd))

/-- One step outside the pool, or of the parent, the producer or a worker. -/
inductive Step (config : PoolConfig ι) : Pool ι β → PoolAct β → Pool ι β → Prop where
  | cancelEnclosing (pool : Pool ι β) : Step config pool .cancelEnclosing { pool with enclosing := true }
  | expire (pool : Pool ι β) : Step config pool .expire { pool with expired := true }
  | others (pool : Pool ι β) (tasks : ℕ) : Step config pool (.others tasks) { pool with others := tasks }
  | startCancelled {pool : Pool ι β} (starts : pool.parent = .starting) (cancelled : pool.enclosing = true) :
      Step config pool .start { pool with parent := .returned (.error (cancelledWith [])) }
  | start {pool : Pool ι β} {permits : ℕ} (starts : pool.parent = .starting) (live : pool.enclosing = false)
      (admitted : pool.acquireTask config = .ok permits) :
      Step config pool .start { pool with producer := .forcing 0, parent := .spawning 0 }
  | spawn {pool : Pool ι β} {index permits : ℕ} (spawns : pool.parent = .spawning index) (more : index < config.workerCount)
      (admitted : pool.acquireTask config = .ok permits) :
      Step config pool .spawn { pool.setWorker index .atSafepoint with parent := .spawning (index + 1) }
  | refuse {pool : Pool ι β} {message : String}
      (spawns : pool.parent = .starting ∨ ∃ index < config.workerCount, pool.parent = .spawning index)
      (refused : pool.acquireTask config = .error message) :
      Step config pool (.refuse (.mk (.resourceLimit message) [])) (pool.stop (.error (.mk (.resourceLimit message) [])))
  /-- A scope is closed, or there is no thread. -/
  | refuseOther {pool : Pool ι β} (error : Failure)
      (spawns : pool.parent = .starting ∨ ∃ index < config.workerCount, pool.parent = .spawning index) :
      Step config pool (.refuse error) (pool.stop (.error error))
  | release {pool : Pool ι β} (spawns : pool.parent = .spawning config.workerCount) :
      Step config pool .release { pool with released := true, parent := .collecting [] none false }
  | produceNil {pool : Pool ι β} {index : ℕ} (forces : pool.producer = .forcing index)
      (cell : config.input index = .nil) :
      Step config pool .produce { pool with producer := .ended (.ok index) }
  | produceCons {pool : Pool ι β} {index : ℕ} {item : ι} (forces : pool.producer = .forcing index)
      (cell : config.input index = .cons item) :
      Step config pool .produce { pool with producer := .sending index item }
  | produceFailed {pool : Pool ι β} {index : ℕ} {error : Failure} (forces : pool.producer = .forcing index)
      (cell : config.input index = .failed error) :
      Step config pool .produce { pool with producer := .ended (.error error) }
  | push {pool : Pool ι β} {index : ℕ} {item : ι} (sends : pool.producer = .sending index item)
      (room : pool.jobs.length < config.queueCapacity) :
      Step config pool .push
        { pool with
          producer := .forcing (index + 1)
          jobs := pool.jobs ++ [(index, item)]
          pushed := pool.pushed + 1 }
  /-- At the head of the loop, in the evaluator, or in `send_job`. -/
  | produceCancelled {pool : Pool ι β} (suppressed : List Failure)
      (produces : (∃ index, pool.producer = .forcing index) ∨ ∃ index item, pool.producer = .sending index item)
      (cancelled : pool.cancelled) :
      Step config pool .produceCancelled { pool with producer := .ended (.error (cancelledWith suppressed)) }
  | sendDisconnected {pool : Pool ι β} {index : ℕ} {item : ι} (sends : pool.producer = .sending index item)
      (dropped : pool.released = true ∨ pool.hasReturned) (gone : pool.workersGone config) :
      Step config pool .sendDisconnected { pool with producer := .ended (.error (cancelledWith [])) }
  | publishProducer {pool : Pool ι β} {result : Except Failure ℕ} (scope : ScopeTree)
      (ended : pool.producer = .ended result) :
      Step config pool (.publishProducer scope)
        { pool with producer := .published (finishWith config.stalledCleanupIsError scope result) }
  | safepointLive {pool : Pool ι β} {index : ℕ} (here : pool.worker index = .atSafepoint) (live : ¬ pool.cancelled)
      (early : pool.expired = false) : Step config pool (.safepoint index) (pool.setWorker index .checking)
  | safepointStops {pool : Pool ι β} {index : ℕ} (here : pool.worker index = .atSafepoint)
      (stops : pool.cancelled ∨ pool.expired = true) :
      Step config pool (.safepoint index) (pool.setWorker index (.ended (.error (cancelledWith []))))
  | safepointClosed {pool : Pool ι β} {index : ℕ} {decision : Except Failure (ℕ × List (ℕ × β))}
      (here : pool.worker index = .atSafepoint) (closes : pool.parent = .closing decision ∨ pool.hasReturned) :
      Step config pool (.safepoint index)
        (pool.setWorker index (.ended (.error (.mk ⟨"H0909", .io, "execution scope is closed"⟩ []))))
  | checkLive {pool : Pool ι β} {index : ℕ} (here : pool.worker index = .checking) (live : ¬ pool.cancelled) :
      Step config pool (.check index) (pool.setWorker index .receiving)
  | checkCancelled {pool : Pool ι β} {index : ℕ} (here : pool.worker index = .checking) (cancelled : pool.cancelled) :
      Step config pool (.check index) (pool.setWorker index (.ended (.ok ())))
  | take {pool : Pool ι β} {index job : ℕ} {item : ι} {jobs : List (ℕ × ι)} (here : pool.worker index = .receiving)
      (ready : pool.jobs = (job, item) :: jobs) :
      Step config pool (.take index) { pool.setWorker index (.holding job item) with jobs }
  | retry {pool : Pool ι β} {index : ℕ} (here : pool.worker index = .receiving) (empty : pool.jobs = [])
      (open_ : pool.producer.gone = false) : Step config pool (.retry index) (pool.setWorker index .atSafepoint)
  | hangUp {pool : Pool ι β} {index : ℕ} (here : pool.worker index = .receiving) (empty : pool.jobs = [])
      (gone : pool.producer.gone = true) : Step config pool (.hangUp index) (pool.setWorker index (.ended (.ok ())))
  | begin {pool : Pool ι β} {index job : ℕ} {item : ι} (here : pool.worker index = .holding job item)
      (live : ¬ pool.cancelled) :
      Step config pool (.begin index) { pool.setWorker index (.running job item) with started := pool.started ++ [job] }
  | skip {pool : Pool ι β} {index job : ℕ} {item : ι} (here : pool.worker index = .holding job item)
      (cancelled : pool.cancelled) :
      Step config pool (.skip index)
        { pool.setWorker index (.ended (.ok ())) with skipped := pool.skipped ++ [job] }
  | finish {pool : Pool ι β} {index job : ℕ} {item : ι} (result : Except Failure β)
      (here : pool.worker index = .running job item) :
      Step config pool (.finish index result) (pool.setWorker index (.reporting ⟨job, true, result⟩))
  | heed {pool : Pool ι β} {index job : ℕ} {item : ι} (suppressed : List Failure)
      (here : pool.worker index = .running job item) (cancelled : pool.cancelled) :
      Step config pool (.heed index suppressed)
        (pool.setWorker index (.reporting ⟨job, false, .error (cancelledWith suppressed)⟩))
  /-- Forcing the application panics, which only the task contains. -/
  | die {pool : Pool ι β} {index job : ℕ} {item : ι} (here : pool.worker index = .running job item) :
      Step config pool (.die index)
        (pool.setWorker index (.ended (.error (.panicContained "scoped task panicked"))))
  | report {pool : Pool ι β} {index : ℕ} {report : Report β} (here : pool.worker index = .reporting report)
      (kept : ¬ pool.hasReturned) :
      Step config pool (.report index)
        { pool.setWorker index (if report.result.isOk then .atSafepoint else .failed) with
          queue := pool.queue ++ [report]
          history := pool.history ++ [report] }
  | reportLost {pool : Pool ι β} {index : ℕ} {report : Report β} (here : pool.worker index = .reporting report)
      (lost : pool.hasReturned) : Step config pool (.report index) (pool.setWorker index (.ended (.ok ())))
  | cancelSiblings {pool : Pool ι β} {index : ℕ} (here : pool.worker index = .failed) :
      Step config pool (.cancelSiblings index) ((pool.cancel .siblingFailed).setWorker index (.ended (.ok ())))
  | publish {pool : Pool ι β} {index : ℕ} {result : Except Failure Unit} (scope : ScopeTree)
      (ended : pool.worker index = .ended result) :
      Step config pool (.publish index scope)
        (pool.setWorker index (.published (finishWith config.stalledCleanupIsError scope result)))
  | pollCancelled {pool : Pool ι β} {values : List (ℕ × β)} {first : Option Failure}
      (collects : pool.parent = .collecting values first false) (cancelled : pool.enclosing = true) :
      Step config pool .poll ((pool.cancel .parentCancelled).stop (.error (cancelledWith [])))
  | pollLive {pool : Pool ι β} {values : List (ℕ × β)} {first : Option Failure}
      (collects : pool.parent = .collecting values first false) (live : pool.enclosing = false) :
      Step config pool .poll { pool with parent := .collecting values first true }
  | receiveValue {pool : Pool ι β} {values : List (ℕ × β)} {first : Option Failure} {report : Report β} {value : β}
      {queue : List (Report β)} (collects : pool.parent = .collecting values first true)
      (arrived : pool.queue = report :: queue) (success : report.result = .ok value) :
      Step config pool .receive
        { pool with queue, parent := .collecting (values ++ [(report.index, value)]) first false }
  | receiveError {pool : Pool ι β} {values : List (ℕ × β)} {first : Option Failure} {report : Report β} {error : Failure}
      {queue : List (Report β)} (collects : pool.parent = .collecting values first true)
      (arrived : pool.queue = report :: queue) (failure : report.result = .error error) :
      Step config pool .receive
        { pool.cancel .siblingFailed with queue, parent := .collecting values (first <|> some error) false }
  | giveUp {pool : Pool ι β} {values : List (ℕ × β)} {first : Option Failure}
      (collects : pool.parent = .collecting values first true) (empty : pool.queue = []) :
      Step config pool .giveUp { pool with parent := .collecting values first false }
  | disconnectFailed {pool : Pool ι β} {values : List (ℕ × β)} {error : Failure}
      (collects : pool.parent = .collecting values (some error) true) (empty : pool.queue = [])
      (gone : pool.workersGone config) : Step config pool .disconnect (pool.stop (.error error))
  | disconnect {pool : Pool ι β} {values : List (ℕ × β)} (collects : pool.parent = .collecting values none true)
      (empty : pool.queue = []) (gone : pool.workersGone config) :
      Step config pool .disconnect { pool with parent := .awaitingProducer values }
  | awaitProducer {pool : Pool ι β} {values : List (ℕ × β)} {count : ℕ} (awaits : pool.parent = .awaitingProducer values)
      (published : pool.producer = .published (.ok count)) :
      Step config pool .await { pool with parent := .awaitingWorkers 0 count values }
  | awaitProducerFailed {pool : Pool ι β} {values : List (ℕ × β)} {error : Failure}
      (awaits : pool.parent = .awaitingProducer values) (published : pool.producer = .published (.error error)) :
      Step config pool .await (pool.stop (.error error))
  | stallProducer {pool : Pool ι β} {values : List (ℕ × β)} (awaits : pool.parent = .awaitingProducer values)
      (late : pool.producer.live = true) :
      Step config pool .stall
        (pool.stop (.error (.internal "CancellationStalled: pooled input producer did not publish its completed result")))
  | awaitWorker {pool : Pool ι β} {index count : ℕ} {values : List (ℕ × β)}
      (awaits : pool.parent = .awaitingWorkers index count values) (more : index < config.workerCount)
      (published : pool.worker index = .published (.ok ())) :
      Step config pool .await { pool with parent := .awaitingWorkers (index + 1) count values }
  | awaitWorkerFailed {pool : Pool ι β} {index count : ℕ} {values : List (ℕ × β)} {error : Failure}
      (awaits : pool.parent = .awaitingWorkers index count values) (more : index < config.workerCount)
      (published : pool.worker index = .published (.error error)) :
      Step config pool .await (pool.stop (.error error))
  | stallWorker {pool : Pool ι β} {index count : ℕ} {values : List (ℕ × β)}
      (awaits : pool.parent = .awaitingWorkers index count values) (more : index < config.workerCount)
      (late : (pool.worker index).live = true) :
      Step config pool .stall
        (pool.stop (.error (.internal "CancellationStalled: pooled worker did not publish its completed result")))
  | awaited {pool : Pool ι β} {count : ℕ} {values : List (ℕ × β)}
      (awaits : pool.parent = .awaitingWorkers config.workerCount count values) :
      Step config pool .await (pool.stop (.ok (count, values)))
  | close {pool : Pool ι β} {decision : Except Failure (ℕ × List (ℕ × β))} (scope : ScopeTree)
      (closes : pool.parent = .closing decision) :
      Step config pool (.close scope)
        { pool with parent := .returned (finishWith config.stalledCleanupIsError scope decision >>= conclude config) }

end Pool

end HellRs.Concurrency
