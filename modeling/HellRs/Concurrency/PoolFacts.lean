import Mathlib
import HellRs.Concurrency.Pool

/-! # What a pool does with its items and errors

The invariants of every run of a pool whose steps are as expected: each item is in one place, an error that is not of a
callback or of the producer has a reason outside the pool, and what the parent decides is right.
-/

namespace HellRs.Concurrency

open Runtime Scope Labelled

/-- One summand is replaced. -/
theorem sum_update_add {ω : Type} (entry : ℕ → ω) (weight : ω → ℕ) {index bound : ℕ} (less : index < bound) (after : ω) :
    (∑ other ∈ Finset.range bound, weight (Function.update entry index after other)) + weight (entry index) =
      (∑ other ∈ Finset.range bound, weight (entry other)) + weight after := by
  have member : index ∈ Finset.range bound := Finset.mem_range.mpr less
  rw [← Finset.sum_erase_add _ _ member, ← Finset.sum_erase_add _ _ member, Function.update_self]
  have others : ∑ other ∈ (Finset.range bound).erase index, weight (Function.update entry index after other) =
      ∑ other ∈ (Finset.range bound).erase index, weight (entry other) :=
    Finset.sum_congr rfl fun other isOther => by rw [Function.update_of_ne (Finset.ne_of_mem_erase isOther)]
  rw [others]
  omega

namespace Worker

variable {ι β : Type}

/-- The worker has this item in hand. -/
def holds (item : ℕ) : Worker ι β → ℕ
  | holding index _ => if index = item then 1 else 0
  | _ => 0

/-- The worker has started the callback of this item and not reported. -/
def works (item : ℕ) : Worker ι β → ℕ
  | running index _ => if index = item then 1 else 0
  | reporting report => if report.index = item then 1 else 0
  | _ => 0

end Worker

/-- The parent has not stopped. -/
def PoolParent.undecided {β : Type} : PoolParent β → Bool
  | closing _ => false
  | returned _ => false
  | _ => true

/-- The parent is past the spawning of the workers and has not stopped. -/
def PoolParent.collects {β : Type} : PoolParent β → Bool
  | collecting _ _ _ => true
  | awaitingProducer _ => true
  | awaitingWorkers _ _ _ => true
  | _ => false

namespace Pool

variable {ι β : Type} {config : PoolConfig ι} {pool next_ : Pool ι β} {act : PoolAct β}

/-- The tasks are admitted, no callback panics while it is forced, the tasks that have finished say so in time, and the
scopes close without failures. -/
def Fits (config : PoolConfig ι) : PoolAct β → Pool ι β → Prop
  | .refuse _, _ => False
  | .die _, _ => False
  | .stall, _ => False
  | .publishProducer scope, _ => ClosesCleanly config.stalledCleanupIsError scope
  | .publish _ scope, _ => ClosesCleanly config.stalledCleanupIsError scope
  | .close scope, _ => ClosesCleanly config.stalledCleanupIsError scope
  | _, _ => True

section Staff

/-- Which workers there are. -/
structure Staffed (config : PoolConfig ι) (pool : Pool ι β) : Prop where
  outside : ∀ index, config.workerCount ≤ index → pool.worker index = .absent
  present : pool.released = true → ∀ index < config.workerCount, pool.worker index ≠ .absent
  starting : pool.parent = .starting → ∀ index, pool.worker index = .absent
  spawning : ∀ bound, pool.parent = .spawning bound →
    bound ≤ config.workerCount ∧ ∀ index, pool.worker index = .absent ↔ bound ≤ index
  released : pool.parent.collects → pool.released = true

theorem initial_staffed (config : PoolConfig ι) (others : ℕ) (enclosing expired : Bool) :
    Staffed config (initial others enclosing expired : Pool ι β) :=
  ⟨fun _ _ => rfl, nofun, fun _ _ => rfl, nofun, nofun⟩

theorem Staffed.less (staffed : pool.Staffed config) {index : ℕ} (present : pool.worker index ≠ .absent) :
    index < config.workerCount :=
  not_le.mp fun outside => present (staffed.outside index outside)

/-- A worker goes on. -/
theorem Staffed.setWorker (staffed : pool.Staffed config) {index : ℕ} {worker : Worker ι β}
    (before : pool.worker index ≠ .absent) (after : worker ≠ .absent) : Staffed config (pool.setWorker index worker) := by
  have same : ∀ other, (pool.setWorker index worker).worker other = .absent ↔ pool.worker other = .absent := by
    intro other
    by_cases here : other = index
    · simp only [Pool.setWorker, here, Function.update_self, after, before]
    · simp only [Pool.setWorker, Function.update_of_ne here]
  refine ⟨fun other outside => (same other).mpr (staffed.outside other outside),
    fun released other less isAbsent => staffed.present released other less ((same other).mp isAbsent),
    fun starts => absurd (staffed.starting starts index) before, fun bound spawns => ?_, staffed.released⟩
  obtain ⟨le, absent⟩ := staffed.spawning bound spawns
  exact ⟨le, fun other => (same other).trans (absent other)⟩

/-- The parent or the producer goes on. -/
theorem Staffed.frame (staffed : pool.Staffed config) {next_ : Pool ι β} (worker : next_.worker = pool.worker)
    (released : next_.released = pool.released) (starting : next_.parent = .starting → pool.parent = .starting)
    (spawning : ∀ bound, next_.parent = .spawning bound → pool.parent = .spawning bound)
    (collects : next_.parent.collects → pool.released = true) : Staffed config next_ :=
  ⟨by rw [worker]; exact staffed.outside, by rw [worker, released]; exact staffed.present,
    fun starts => by rw [worker]; exact staffed.starting (starting starts),
    fun bound spawns => by rw [worker]; exact staffed.spawning bound (spawning bound spawns),
    fun isCollecting => released.trans (collects isCollecting)⟩

theorem Step.staffed (step : Step config pool act next_) (staffed : pool.Staffed config) : next_.Staffed config := by
  cases step with
  | cancelEnclosing | expire | others | produceNil | produceCons | produceFailed | push | produceCancelled
  | sendDisconnected | publishProducer =>
    exact staffed.frame rfl rfl id (fun _ => id) staffed.released
  | startCancelled | refuse | refuseOther | pollCancelled | disconnectFailed | awaitProducerFailed | stallProducer
  | awaitWorkerFailed | stallWorker | awaited | close => exact staffed.frame rfl rfl nofun nofun nofun
  | start starts =>
    refine ⟨staffed.outside, staffed.present, nofun, fun bound spawns => ?_, nofun⟩
    cases spawns
    exact ⟨Nat.zero_le _, fun index => ⟨fun _ => Nat.zero_le _, fun _ => staffed.starting starts index⟩⟩
  | @spawn index permits spawns more admitted =>
    obtain ⟨le, absent⟩ := staffed.spawning index spawns
    refine ⟨fun other outside => ?_, fun released other less => ?_, nofun, fun bound spawned => ?_, nofun⟩
    · have apart : other ≠ index := by omega
      simpa only [setWorker, Function.update_of_ne apart] using staffed.outside other outside
    · exact absurd ((absent index).mpr le_rfl) (staffed.present released index more)
    · cases spawned
      refine ⟨more, fun other => ?_⟩
      by_cases here : other = index
      · simp [setWorker, here]
      · simp only [setWorker, Function.update_of_ne here, absent]
        omega
  | release spawns =>
    obtain ⟨-, absent⟩ := staffed.spawning _ spawns
    refine ⟨staffed.outside, fun _ index less isAbsent => ?_, nofun, nofun, fun _ => rfl⟩
    exact absurd ((absent index).mp isAbsent) (not_le.mpr less)
  | pollLive collects | receiveValue collects | receiveError collects | giveUp collects | disconnect collects =>
    exact staffed.frame rfl rfl nofun nofun fun _ => staffed.released (by rw [collects]; rfl)
  | awaitProducer awaits | awaitWorker awaits =>
    exact staffed.frame rfl rfl nofun nofun fun _ => staffed.released (by rw [awaits]; rfl)
  | safepointLive here | safepointStops here | safepointClosed here | checkLive here | checkCancelled here | retry here
  | hangUp here | finish _ here | heed _ here | die here | reportLost here | publish _ here =>
    exact staffed.setWorker (by rw [here]; nofun) nofun
  | @take index job item jobs here =>
    have moved : Staffed config (pool.setWorker index (.holding job item)) :=
      staffed.setWorker (by rw [here]; nofun) nofun
    exact moved.frame rfl rfl id (fun _ => id) moved.released
  | @begin index job item here =>
    have moved : Staffed config (pool.setWorker index (.running job item)) :=
      staffed.setWorker (by rw [here]; nofun) nofun
    exact moved.frame rfl rfl id (fun _ => id) moved.released
  | @skip index job item here =>
    have moved : Staffed config (pool.setWorker index (.ended (.ok ()))) :=
      staffed.setWorker (by rw [here]; nofun) nofun
    exact moved.frame rfl rfl id (fun _ => id) moved.released
  | @report index report here =>
    have moved : Staffed config (pool.setWorker index (if report.result.isOk then .atSafepoint else .failed)) :=
      staffed.setWorker (by rw [here]; nofun) (by split_ifs <;> nofun)
    exact moved.frame rfl rfl id (fun _ => id) moved.released
  | @cancelSiblings index here =>
    have moved : Staffed config (pool.setWorker index (.ended (.ok ()))) :=
      staffed.setWorker (by rw [here]; nofun) nofun
    exact moved.frame rfl rfl id (fun _ => id) moved.released

end Staff

section Counting

/-- Every item that was put into the queue is in one place, and a callback that was started is running or reported. -/
structure Counted (config : PoolConfig ι) (pool : Pool ι β) : Prop where
  places : ∀ item, (pool.jobs.map Prod.fst).count item +
    (∑ index ∈ Finset.range config.workerCount, (pool.worker index).holds item) + pool.started.count item +
    pool.skipped.count item = if item < pool.pushed then 1 else 0
  begun : ¬ pool.hasReturned → ∀ item, pool.started.count item =
    (∑ index ∈ Finset.range config.workerCount, (pool.worker index).works item) +
      (pool.history.map Report.index).count item
  index : ∀ index, (pool.producer = .forcing index ∨ ∃ item, pool.producer = .sending index item) → index = pool.pushed
  starting : pool.parent = .starting → pool.producer = .absent ∧ pool.pushed = 0

theorem initial_counted (config : PoolConfig ι) (others : ℕ) (enclosing expired : Bool) :
    Counted config (initial others enclosing expired : Pool ι β) := by
  refine ⟨fun item => ?_, fun _ item => ?_, fun index produces => ?_, fun _ => ⟨rfl, rfl⟩⟩
  · simp [initial, Worker.holds]
  · simp [initial, Worker.works]
  · rcases produces with forces | ⟨item, sends⟩
    · cases forces
    · cases sends

/-- Neither items nor callbacks are touched. -/
theorem Counted.frame (counted : pool.Counted config) {next_ : Pool ι β} (worker : next_.worker = pool.worker)
    (jobs : next_.jobs = pool.jobs) (started : next_.started = pool.started) (skipped : next_.skipped = pool.skipped)
    (history : next_.history = pool.history) (pushed : next_.pushed = pool.pushed)
    (returned : ¬ next_.hasReturned → ¬ pool.hasReturned)
    (index : ∀ index, (next_.producer = .forcing index ∨ ∃ item, next_.producer = .sending index item) →
      pool.producer = .forcing index ∨ ∃ item, pool.producer = .sending index item)
    (starting : next_.parent = .starting → pool.parent = .starting ∧ next_.producer = pool.producer) :
    Counted config next_ :=
  ⟨by rw [worker, jobs, started, skipped, pushed]; exact counted.places,
    fun notReturned => by rw [worker, started, history]; exact counted.begun (returned notReturned),
    fun position produces => pushed.symm ▸ counted.index position (index position produces),
    fun starts => by rw [(starting starts).2, pushed]; exact counted.starting (starting starts).1⟩

/-- A worker goes on, with the items in the queue, those of started callbacks, those dropped and those reported. -/
theorem Counted.move (counted : pool.Counted config) (staffed : pool.Staffed config) {next_ : Pool ι β} {index : ℕ}
    {worker : Worker ι β} (present : pool.worker index ≠ .absent)
    (moved : next_.worker = Function.update pool.worker index worker) (pushed : next_.pushed = pool.pushed)
    (producer : next_.producer = pool.producer) (parent : next_.parent = pool.parent)
    (places : ∀ item, (next_.jobs.map Prod.fst).count item + worker.holds item + next_.started.count item +
      next_.skipped.count item = (pool.jobs.map Prod.fst).count item + (pool.worker index).holds item +
        pool.started.count item + pool.skipped.count item)
    (begun : ¬ pool.hasReturned → ∀ item, next_.started.count item + (pool.worker index).works item +
      (pool.history.map Report.index).count item = pool.started.count item + worker.works item +
        (next_.history.map Report.index).count item) : Counted config next_ := by
  have less := staffed.less present
  refine ⟨fun item => ?_, fun notReturned item => ?_, by rw [producer, pushed]; exact counted.index,
    by rw [producer, pushed, parent]; exact counted.starting⟩
  · have sum := sum_update_add pool.worker (Worker.holds item) less worker
    have before := counted.places item
    have change := places item
    rw [moved, pushed, ← before]
    omega
  · have notReturned' : ¬ pool.hasReturned := by
      rintro ⟨result, returned⟩
      exact notReturned ⟨result, parent.trans returned⟩
    have sum := sum_update_add pool.worker (Worker.works item) less worker
    have before := counted.begun notReturned' item
    have change := begun notReturned' item
    rw [moved]
    omega

/-- A worker goes on and leaves the items where they are. -/
theorem Counted.setWorker (counted : pool.Counted config) (staffed : pool.Staffed config) {index : ℕ}
    {worker : Worker ι β} (present : pool.worker index ≠ .absent)
    (holds : ∀ item, worker.holds item = (pool.worker index).holds item)
    (works : ¬ pool.hasReturned → ∀ item, worker.works item = (pool.worker index).works item) :
    Counted config (pool.setWorker index worker) :=
  counted.move staffed present rfl rfl rfl rfl (fun item => by rw [holds]; rfl)
    fun notReturned item => by rw [works notReturned]; rfl

theorem Step.counted (step : Step config pool act next_) (fits : Fits config act pool) (staffed : pool.Staffed config)
    (counted : pool.Counted config) : next_.Counted config := by
  have parent : ∀ {next_ : Pool ι β}, next_.worker = pool.worker → next_.jobs = pool.jobs → next_.started = pool.started →
      next_.skipped = pool.skipped → next_.history = pool.history → next_.pushed = pool.pushed →
      next_.producer = pool.producer → ¬ pool.hasReturned → next_.parent ≠ .starting → Counted config next_ :=
    fun worker jobs started skipped history pushed producer notReturned later =>
      counted.frame worker jobs started skipped history pushed (fun _ => notReturned) (fun _ => by rw [producer]; exact id)
        fun starts => absurd starts later
  have produce : ∀ {producer : Producer ι}, pool.producer ≠ .absent →
      (∀ index, (producer = .forcing index ∨ ∃ item, producer = .sending index item) →
        pool.producer = .forcing index ∨ ∃ item, pool.producer = .sending index item) →
      Counted config { pool with producer := producer } :=
    fun active index => counted.frame rfl rfl rfl rfl rfl rfl id index
      fun starts => absurd (counted.starting starts).1 active
  cases step with
  | cancelEnclosing | expire | others =>
    exact counted.frame rfl rfl rfl rfl rfl rfl id (fun _ => id) fun starts => ⟨starts, rfl⟩
  | startCancelled starts | release starts | pollCancelled starts | pollLive starts | receiveValue starts
  | receiveError starts | giveUp starts | disconnectFailed starts | disconnect starts | awaitProducer starts
  | awaitProducerFailed starts | awaitWorker starts | awaitWorkerFailed starts | awaited starts =>
    exact parent rfl rfl rfl rfl rfl rfl rfl (fun ⟨_, returned⟩ => by rw [starts] at returned; cases returned) nofun
  | close _ closes =>
    exact parent rfl rfl rfl rfl rfl rfl rfl (fun ⟨_, returned⟩ => by rw [closes] at returned; cases returned) nofun
  | refuse | refuseOther | die | stallProducer | stallWorker => cases fits
  | start starts =>
    refine ⟨counted.places, fun _ => counted.begun fun ⟨_, returned⟩ => ?_, fun index produces => ?_, nofun⟩
    · rw [starts] at returned
      cases returned
    · rw [(counted.starting starts).2]
      rcases produces with forces | ⟨item, sends⟩
      · cases forces
        rfl
      · cases sends
  | @spawn index permits spawns more =>
    have isAbsent : pool.worker index = .absent := ((staffed.spawning index spawns).2 index).mpr le_rfl
    refine ⟨fun item => ?_, fun _ item => ?_, counted.index, nofun⟩
    · have sum := sum_update_add pool.worker (Worker.holds item) more .atSafepoint
      rw [isAbsent] at sum
      exact (congrArg (_ + · + _ + _) sum).trans (counted.places item)
    · have sum := sum_update_add pool.worker (Worker.works item) more .atSafepoint
      rw [isAbsent] at sum
      refine (counted.begun (fun ⟨_, returned⟩ => ?_) item).trans (congrArg (· + _) sum.symm)
      rw [spawns] at returned
      cases returned
  | produceNil forces | produceFailed forces => exact produce (by rw [forces]; nofun) (by simp)
  | sendDisconnected sends => exact produce (by rw [sends]; nofun) (by simp)
  | publishProducer _ ended => exact produce (by rw [ended]; nofun) (by simp)
  | produceCancelled _ produces =>
    refine produce (fun isAbsent => ?_) (by simp)
    rcases produces with ⟨_, forces⟩ | ⟨_, _, sends⟩
    · rw [isAbsent] at forces
      cases forces
    · rw [isAbsent] at sends
      cases sends
  | produceCons forces =>
    refine produce (by rw [forces]; nofun) fun index produces => ?_
    rcases produces with isForcing | ⟨item, isSending⟩
    · cases isForcing
    · cases isSending
      exact .inl forces
  | @push index item sends room =>
    have isNext : index = pool.pushed := counted.index index (.inr ⟨item, sends⟩)
    refine ⟨fun place => ?_, counted.begun, fun position produces => ?_, fun starts => ?_⟩
    · have before := counted.places place
      simp only [List.map_append, List.map_singleton, List.count_append, List.count_singleton, beq_iff_eq, isNext]
      split_ifs at before ⊢ <;> omega
    · rcases produces with forces | ⟨_, sends'⟩
      · cases forces
        rw [isNext]
      · cases sends'
    · have isAbsent := (counted.starting starts).1
      rw [sends] at isAbsent
      cases isAbsent
  | safepointLive here | safepointStops here | safepointClosed here | checkLive here | checkCancelled here | retry here
  | hangUp here | publish _ here =>
    exact counted.setWorker staffed (by rw [here]; nofun) (fun _ => by rw [here]; rfl) fun _ _ => by rw [here]; rfl
  | finish _ here | heed _ here =>
    exact counted.setWorker staffed (by rw [here]; nofun) (fun _ => by rw [here]; rfl) fun _ _ => by rw [here]; rfl
  | reportLost here lost =>
    exact counted.setWorker staffed (by rw [here]; nofun) (fun _ => by rw [here]; rfl)
      fun notReturned => absurd lost notReturned
  | @cancelSiblings index here =>
    have moved : Counted config (pool.setWorker index (.ended (.ok ()))) :=
      counted.setWorker staffed (by rw [here]; nofun) (fun _ => by rw [here]; rfl) fun _ _ => by rw [here]; rfl
    exact moved.frame rfl rfl rfl rfl rfl rfl id (fun _ => id) fun starts => ⟨starts, rfl⟩
  | @take index job item jobs here ready =>
    refine counted.move staffed (by rw [here]; nofun) rfl rfl rfl rfl (fun place => ?_) fun _ place => ?_
    · simp only [ready, here, List.map_cons, List.count_cons, Worker.holds, setWorker, beq_iff_eq]
      omega
    · simp only [here, Worker.works, setWorker]
  | @begin index job item here live =>
    refine counted.move staffed (by rw [here]; nofun) rfl rfl rfl rfl (fun place => ?_) fun _ place => ?_
    · simp only [here, List.count_append, List.count_singleton, Worker.holds, setWorker, beq_iff_eq]
      omega
    · simp only [here, List.count_append, List.count_singleton, Worker.works, setWorker, beq_iff_eq]
      omega
  | @skip index job item here cancelled =>
    refine counted.move staffed (by rw [here]; nofun) rfl rfl rfl rfl (fun place => ?_) fun _ place => ?_
    · simp only [here, List.count_append, List.count_singleton, Worker.holds, setWorker, beq_iff_eq]
      omega
    · simp only [here, Worker.works, setWorker]
  | @report index report here kept =>
    refine counted.move staffed (by rw [here]; nofun) rfl rfl rfl rfl (fun place => ?_) fun _ place => ?_
    · rw [here]
      dsimp only [setWorker]
      split_ifs <;> simp only [Worker.holds]
    · have idle : ((if report.result.isOk then .atSafepoint else .failed : Worker ι β)).works place = 0 := by
        split_ifs <;> rfl
      rw [idle, here]
      simp only [setWorker, List.map_append, List.count_append, List.map_singleton, List.count_singleton, Worker.works,
        beq_iff_eq]
      omega

end Counting

section Collecting

/-- The values of successful reports, with their indices. -/
def successes (reports : List (Report β)) : List (ℕ × β) :=
  reports.filterMap fun report => report.result.toOption.map fun value => (report.index, value)

def firstError (reports : List (Report β)) : Option Failure :=
  reports.findSome? fun report =>
    match report.result with
    | .ok _ => none
    | .error error => some error

/-- What the parent has of the reports. -/
structure Collected (config : PoolConfig ι) (pool : Pool ι β) : Prop where
  early : pool.parent = .starting ∨ (∃ index, pool.parent = .spawning index) → pool.history = pool.queue
  collecting : ∀ values first checked, pool.parent = .collecting values first checked →
    ∃ received, pool.history = received ++ pool.queue ∧ values = successes received ∧ first = firstError received
  awaiting : ∀ values, pool.parent = .awaitingProducer values ∨
    (∃ index count, pool.parent = .awaitingWorkers index count values) →
      values = successes pool.history ∧ firstError pool.history = none ∧ pool.workersGone config
  producer : ∀ index count values, pool.parent = .awaitingWorkers index count values →
    pool.producer = .published (.ok count)

theorem initial_collected (config : PoolConfig ι) (others : ℕ) (enclosing expired : Bool) :
    Collected config (initial others enclosing expired : Pool ι β) :=
  ⟨fun _ => rfl, nofun, fun _ awaits => (by rcases awaits with awaits | ⟨_, _, awaits⟩ <;> cases awaits), nofun⟩

theorem Collected.ofStopped (undecided : next_.parent.undecided = false) : Collected config next_ := by
  refine ⟨fun early => ?_, fun values first checked collects => ?_, fun values awaits => ?_, fun index count values awaits => ?_⟩
  · rcases early with starts | ⟨index, spawns⟩
    · rw [starts] at undecided
      cases undecided
    · rw [spawns] at undecided
      cases undecided
  · rw [collects] at undecided
    cases undecided
  · rcases awaits with awaits | ⟨index, count, awaits⟩
    · rw [awaits] at undecided
      cases undecided
    · rw [awaits] at undecided
      cases undecided
  · rw [awaits] at undecided
    cases undecided

theorem Collected.ofEarly (early : next_.parent = .starting ∨ ∃ index, next_.parent = .spawning index)
    (history : next_.history = next_.queue) : Collected config next_ := by
  refine ⟨fun _ => history, fun values first checked collects => ?_, fun values awaits => ?_,
    fun index count values awaits => ?_⟩
  · rcases early with starts | ⟨_, spawns⟩
    · rw [starts] at collects
      cases collects
    · rw [spawns] at collects
      cases collects
  · rcases early with starts | ⟨_, spawns⟩
    · simp [starts] at awaits
    · simp [spawns] at awaits
  · rcases early with starts | ⟨_, spawns⟩
    · rw [starts] at awaits
      cases awaits
    · rw [spawns] at awaits
      cases awaits

theorem Collected.ofCollecting {received : List (Report β)} {checked : Bool}
    (collects : next_.parent = .collecting (successes received) (firstError received) checked)
    (history : next_.history = received ++ next_.queue) : Collected config next_ := by
  refine ⟨fun early => ?_, fun values first checked' collects' => ?_, fun values awaits => ?_,
    fun index count values awaits => ?_⟩
  · rw [collects] at early
    simp at early
  · rw [collects] at collects'
    cases collects'
    exact ⟨received, history, rfl, rfl⟩
  · rw [collects] at awaits
    simp at awaits
  · rw [collects] at awaits
    cases awaits

/-- The parent has all reports, and they are successes. -/
theorem Collected.ofAwaiting {values : List (ℕ × β)}
    (awaits : next_.parent = .awaitingProducer values ∨ ∃ index count, next_.parent = .awaitingWorkers index count values)
    (all : values = successes next_.history ∧ firstError next_.history = none ∧ next_.workersGone config)
    (producer : ∀ index count values, next_.parent = .awaitingWorkers index count values →
      next_.producer = .published (.ok count)) : Collected config next_ := by
  refine ⟨fun early => ?_, fun values' first checked collects => ?_, fun values' awaits' => ?_, producer⟩
  · rcases awaits with awaits | ⟨_, _, awaits⟩ <;> simp [awaits] at early
  · rcases awaits with awaits | ⟨_, _, awaits⟩ <;> simp [awaits] at collects
  · obtain rfl : values' = values := by
      rcases awaits with awaits | ⟨_, _, awaits⟩ <;> simp [awaits] at awaits' <;> exact awaits'.symm
    exact all

@[simp] theorem successes_append (left right : List (Report β)) :
    successes (left ++ right) = successes left ++ successes right :=
  List.filterMap_append

@[simp] theorem firstError_append (left right : List (Report β)) :
    firstError (left ++ right) = (firstError left).or (firstError right) :=
  List.findSome?_append

/-- The parent stays where it is, and no reports come. -/
theorem Collected.frame (collected : pool.Collected config) {next_ : Pool ι β} (parent : next_.parent = pool.parent)
    (history : next_.history = pool.history) (queue : next_.queue = pool.queue)
    (gone : pool.workersGone config → next_.workersGone config)
    (producer : ∀ count, pool.producer = .published (.ok count) → next_.producer = .published (.ok count)) :
    Collected config next_ := by
  refine ⟨?_, ?_, fun values awaits => ?_, fun index count values awaits => ?_⟩
  · rw [parent, history, queue]
    exact collected.early
  · rw [parent, history, queue]
    exact collected.collecting
  · rw [parent] at awaits
    rw [history]
    obtain ⟨values, none, isGone⟩ := collected.awaiting values awaits
    exact ⟨values, none, gone isGone⟩
  · exact producer count (collected.producer index count values (parent ▸ awaits))

/-- A worker that is not done yet contradicts that all are. -/
theorem workersGone_setWorker {index : ℕ} {worker : Worker ι β}
    (gone : (pool.worker index).gone = true → worker.gone = true) (isGone : pool.workersGone config) :
    (pool.setWorker index worker).workersGone config := by
  intro other less
  by_cases here : other = index
  · simp only [setWorker, here, Function.update_self]
    exact gone (here ▸ isGone other less)
  · simp only [setWorker, Function.update_of_ne here]
    exact isGone other less

theorem Collected.setWorker (collected : pool.Collected config) {index : ℕ} {worker : Worker ι β}
    (gone : (pool.worker index).gone = true → worker.gone = true) : Collected config (pool.setWorker index worker) :=
  collected.frame rfl rfl rfl (workersGone_setWorker gone) fun _ => id

theorem Step.collected (step : Step config pool act next_) (staffed : pool.Staffed config)
    (collected : pool.Collected config) : next_.Collected config := by
  cases step with
  | startCancelled | refuse | refuseOther | pollCancelled | disconnectFailed | awaitProducerFailed | stallProducer
  | awaitWorkerFailed | stallWorker | awaited | close => exact .ofStopped rfl
  | cancelEnclosing | expire | others => exact collected.frame rfl rfl rfl id fun _ => id
  | produceNil producer | produceCons producer | produceFailed producer | push producer | sendDisconnected producer
  | publishProducer _ producer =>
    exact collected.frame rfl rfl rfl id fun count published => by rw [producer] at published; cases published
  | produceCancelled _ produces =>
    refine collected.frame rfl rfl rfl id fun count published => ?_
    rcases produces with ⟨_, forces⟩ | ⟨_, _, sends⟩
    · rw [published] at forces
      cases forces
    · rw [published] at sends
      cases sends
  | start starts => exact .ofEarly (.inr ⟨0, rfl⟩) (collected.early (.inl starts))
  | @spawn index permits spawns => exact .ofEarly (.inr ⟨index + 1, rfl⟩) (collected.early (.inr ⟨index, spawns⟩))
  | release spawns => exact @Collected.ofCollecting _ _ _ _ [] false rfl (collected.early (.inr ⟨_, spawns⟩))
  | safepointLive here | safepointStops here | safepointClosed here | checkLive here | checkCancelled here | retry here
  | hangUp here | finish _ here | heed _ here | die here | reportLost here | publish _ here =>
    exact collected.setWorker (by rw [here]; simp [Worker.gone])
  | @take index job item jobs here =>
    have moved : Collected config (pool.setWorker index (.holding job item)) :=
      collected.setWorker (by rw [here]; simp [Worker.gone])
    exact moved.frame rfl rfl rfl id fun _ => id
  | @begin index job item here =>
    have moved : Collected config (pool.setWorker index (.running job item)) :=
      collected.setWorker (by rw [here]; simp [Worker.gone])
    exact moved.frame rfl rfl rfl id fun _ => id
  | @skip index job item here =>
    have moved : Collected config (pool.setWorker index (.ended (.ok ()))) :=
      collected.setWorker (by rw [here]; simp [Worker.gone])
    exact moved.frame rfl rfl rfl id fun _ => id
  | @cancelSiblings index here =>
    have moved : Collected config (pool.setWorker index (.ended (.ok ()))) :=
      collected.setWorker (by rw [here]; simp [Worker.gone])
    exact moved.frame rfl rfl rfl id fun _ => id
  | @report index report here =>
    have present : index < config.workerCount := staffed.less (by rw [here]; nofun)
    refine ⟨fun early => congrArg (· ++ [report]) (collected.early early), fun values first checked collects => ?_,
      fun values awaits => ?_, collected.producer⟩
    · obtain ⟨received, history, values, first⟩ := collected.collecting values first checked collects
      exact ⟨received, (congrArg (· ++ [report]) history).trans (List.append_assoc ..), values, first⟩
    · have gone := (collected.awaiting values awaits).2.2 index present
      rw [here] at gone
      cases gone
  | pollLive collects | giveUp collects =>
    obtain ⟨received, history, rfl, rfl⟩ := collected.collecting _ _ _ collects
    exact .ofCollecting rfl history
  | @receiveValue values first report value queue collects arrived success =>
    obtain ⟨received, history, rfl, rfl⟩ := collected.collecting _ _ _ collects
    refine @Collected.ofCollecting _ _ _ _ (received ++ [report]) false ?_ ?_
    · simp [successes, firstError, success, Except.toOption]
    · exact history.trans (by rw [arrived, List.append_assoc]; rfl)
  | @receiveError values first report error queue collects arrived failure =>
    obtain ⟨received, history, rfl, rfl⟩ := collected.collecting _ _ _ collects
    refine @Collected.ofCollecting _ _ _ _ (received ++ [report]) false ?_ ?_
    · simp [successes, firstError, failure, Except.toOption, List.findSome?_append, Option.orElse_eq_orElse]
    · exact history.trans (by rw [arrived, List.append_assoc]; rfl)
  | @disconnect values collects empty gone =>
    obtain ⟨received, history, rfl, none⟩ := collected.collecting _ _ _ collects
    rw [empty, List.append_nil] at history
    exact .ofAwaiting (.inl rfl) ⟨by rw [history], by rw [history]; exact none.symm, gone⟩ nofun
  | @awaitProducer values count awaits published =>
    refine .ofAwaiting (.inr ⟨0, count, rfl⟩) (collected.awaiting values (.inl awaits)) fun _ _ _ awaits' => ?_
    cases awaits'
    exact published
  | @awaitWorker index count values awaits more published =>
    refine .ofAwaiting (.inr ⟨index + 1, count, rfl⟩) (collected.awaiting values (.inr ⟨index, count, awaits⟩))
      fun _ _ _ awaits' => ?_
    cases awaits'
    exact collected.producer index count values awaits

end Collecting

section Reasons

/-- A callback has failed by itself and said so, or the parent is cancelled. -/
def Blamed (pool : Pool ι β) : Prop :=
  (∃ report ∈ pool.history, report.own = true ∧ report.result.isOk = false) ∨ pool.enclosing = true

/-- There is a reason to stop early. -/
def Excused (pool : Pool ι β) : Prop := pool.Blamed ∨ pool.expired = true

def IsCancelled (error : Failure) : Prop := error.error = .cancelled

/-- As long as the parent has not stopped, whatever stops early has a reason, and the first reported error is no
consequence of another one. -/
structure Reasoned (config : PoolConfig ι) (pool : Pool ι β) : Prop where
  token : pool.token.isSome → pool.Blamed
  heeded : ∀ index report, pool.worker index = .reporting report → report.own = false →
    pool.Blamed ∧ ∃ error, report.result = .error error ∧ IsCancelled error
  failed : ∀ index, pool.worker index = .failed → pool.Blamed
  ended : ∀ index, (pool.worker index).gone = true → pool.worker index ≠ .absent →
    (pool.producer.gone = true ∧ pool.jobs = []) ∨ pool.Excused
  endedError : ∀ index error, pool.worker index = .ended (.error error) ∨ pool.worker index = .published (.error error) →
    pool.Excused ∧ IsCancelled error
  first : ∀ before report after, pool.history = before ++ report :: after → (∀ entry ∈ before, entry.result.isOk = true) →
    report.result.isOk = false → report.own = true ∨ pool.enclosing = true ∧ ∃ error, report.result = .error error ∧
      IsCancelled error
  skipped : pool.skipped ≠ [] → pool.Blamed

/-- The input up to where the producer is, and why it has ended. -/
structure Produced (config : PoolConfig ι) (pool : Pool ι β) : Prop where
  input : ∀ index < pool.pushed, ∃ item, config.input index = .cons item
  sending : ∀ index item, pool.producer = .sending index item → config.input index = .cons item
  nil : ∀ count, pool.producer = .ended (.ok count) ∨ pool.producer = .published (.ok count) →
    count = pool.pushed ∧ config.input count = .nil
  failed : ∀ error, pool.producer = .ended (.error error) ∨ pool.producer = .published (.error error) →
    config.input pool.pushed = .failed error ∨ pool.Excused ∧ IsCancelled error

theorem Blamed.mono (blamed : pool.Blamed) {more : List (Report β)} (history : next_.history = pool.history ++ more)
    (enclosing : pool.enclosing = true → next_.enclosing = true) : next_.Blamed := by
  rcases blamed with ⟨report, member, failed⟩ | isEnclosing
  · exact .inl ⟨report, history ▸ List.mem_append_left _ member, failed⟩
  · exact .inr (enclosing isEnclosing)

theorem Excused.mono (excused : pool.Excused) {more : List (Report β)} (history : next_.history = pool.history ++ more)
    (enclosing : pool.enclosing = true → next_.enclosing = true) (expired : pool.expired = true → next_.expired = true) :
    next_.Excused :=
  excused.imp (fun blamed => blamed.mono history enclosing) expired

theorem Reasoned.blamed (reasoned : pool.Reasoned config) (cancelled : pool.cancelled) : pool.Blamed :=
  cancelled.elim reasoned.token .inr

theorem initial_reasoned (config : PoolConfig ι) (others : ℕ) (enclosing expired : Bool) :
    Reasoned config (initial others enclosing expired : Pool ι β) := by
  refine ⟨nofun, nofun, nofun, fun _ _ present => absurd rfl present, ?_, fun before report after history => ?_, ?_⟩
  · rintro index error (ended | published)
    · cases ended
    · cases published
  · simp [initial] at history
  · exact fun some => absurd rfl some

theorem initial_produced (config : PoolConfig ι) (others : ℕ) (enclosing expired : Bool) :
    Produced config (initial others enclosing expired : Pool ι β) := by
  refine ⟨fun _ less => absurd less (Nat.not_lt_zero _), nofun, ?_, ?_⟩
  · rintro count (ended | published)
    · cases ended
    · cases published
  · rintro error (ended | published)
    · cases ended
    · cases published

/-- The reasons stay when only more reasons come, and fewer items may wait. -/
theorem Reasoned.frame (reasoned : pool.Reasoned config) {next_ : Pool ι β} (worker : next_.worker = pool.worker)
    (history : next_.history = pool.history) (enclosing : pool.enclosing = true → next_.enclosing = true)
    (expired : pool.expired = true → next_.expired = true) (token : next_.token.isSome → next_.Blamed)
    (producer : pool.producer.gone = true → pool.jobs = [] → next_.producer.gone = true ∧ next_.jobs = [])
    (skipped : next_.skipped ≠ [] → next_.Blamed) : Reasoned config next_ := by
  have history' : next_.history = pool.history ++ [] := history.trans (List.append_nil _).symm
  refine ⟨token, fun index report reports heeds => ?_, fun index fails => ?_, fun index gone present => ?_,
    fun index error ends => ?_, fun before report after split fine fails => ?_, skipped⟩
  · obtain ⟨blamed, isCancelled⟩ := reasoned.heeded index report (worker ▸ reports) heeds
    exact ⟨blamed.mono history' enclosing, isCancelled⟩
  · exact (reasoned.failed index (worker ▸ fails)).mono history' enclosing
  · rcases reasoned.ended index (worker ▸ gone) (worker ▸ present) with ⟨producerGone, empty⟩ | excused
    · exact .inl (producer producerGone empty)
    · exact .inr (excused.mono history' enclosing expired)
  · obtain ⟨excused, isCancelled⟩ := reasoned.endedError index error (worker ▸ ends)
    exact ⟨excused.mono history' enclosing expired, isCancelled⟩
  · exact (reasoned.first before report after (history ▸ split) fine fails).imp_right fun both => ⟨enclosing both.1, both.2⟩

/-- A worker goes on, with a reason if it stops. -/
theorem Reasoned.setWorker (reasoned : pool.Reasoned config) {index : ℕ} {worker : Worker ι β}
    (heeded : ∀ report, worker = .reporting report → report.own = false →
      pool.Blamed ∧ ∃ error, report.result = .error error ∧ IsCancelled error)
    (failed : worker = .failed → pool.Blamed)
    (ended : worker.gone = true → (pool.producer.gone = true ∧ pool.jobs = []) ∨ pool.Excused)
    (endedError : ∀ error, worker = .ended (.error error) ∨ worker = .published (.error error) →
      pool.Excused ∧ IsCancelled error) : Reasoned config (pool.setWorker index worker) := by
  have cases_ : ∀ other, (pool.setWorker index worker).worker other = worker ∨
      (pool.setWorker index worker).worker other = pool.worker other := by
    intro other
    by_cases here : other = index
    · exact .inl (by simp [Pool.setWorker, here])
    · exact .inr (by simp only [Pool.setWorker, Function.update_of_ne here])
  refine ⟨reasoned.token, fun other report reports heeds => ?_, fun other fails => ?_, fun other gone present => ?_,
    fun other error ends => ?_, reasoned.first, reasoned.skipped⟩
  · rcases cases_ other with isNew | isOld
    · exact heeded report (isNew ▸ reports) heeds
    · exact reasoned.heeded other report (isOld ▸ reports) heeds
  · rcases cases_ other with isNew | isOld
    · exact failed (isNew ▸ fails)
    · exact reasoned.failed other (isOld ▸ fails)
  · rcases cases_ other with isNew | isOld
    · exact ended (isNew ▸ gone)
    · exact reasoned.ended other (isOld ▸ gone) (isOld ▸ present)
  · rcases cases_ other with isNew | isOld
    · exact endedError error (isNew ▸ ends)
    · exact reasoned.endedError other error (isOld ▸ ends)

/-- A reported error has a reason, since the first one has. -/
theorem Reasoned.blamed_of_error (reasoned : pool.Reasoned config) {report : Report β} (member : report ∈ pool.history)
    (failed : report.result.isOk = false) : pool.Blamed := by
  obtain ⟨found, isFound⟩ : ∃ found, pool.history.find? (fun entry => !entry.result.isOk) = some found := by
    rw [← Option.isSome_iff_exists, List.find?_isSome]
    exact ⟨report, member, by simp [failed]⟩
  obtain ⟨fails, before, after, split, fine⟩ := List.find?_eq_some_iff_append.mp isFound
  rw [Bool.not_eq_true'] at fails
  have fine' : ∀ entry ∈ before, entry.result.isOk = true := fun entry isBefore => by simpa using fine entry isBefore
  rcases reasoned.first before found after split fine' fails with own | ⟨enclosing, -⟩
  · exact .inl ⟨found, split ▸ List.mem_append_right _ (List.mem_cons_self ..), own, fails⟩
  · exact .inr enclosing

/-- A callback reports. -/
theorem Reasoned.report (reasoned : pool.Reasoned config) {index : ℕ} {report : Report β}
    (here : pool.worker index = .reporting report) : Reasoned config
      { pool.setWorker index (if report.result.isOk then .atSafepoint else .failed) with
        queue := pool.queue ++ [report]
        history := pool.history ++ [report] } := by
  have blamed : ∀ {other : Pool ι β}, other.history = pool.history ++ [report] → other.enclosing = pool.enclosing →
      report.result.isOk = false → other.Blamed := by
    intro other history enclosing fails
    cases own : report.own with
    | true => exact .inl ⟨report, history ▸ List.mem_append_right _ (List.mem_singleton_self _), own, fails⟩
    | false => exact (reasoned.heeded index report here own).1.mono history fun isEnclosing => enclosing.trans isEnclosing
  have moved : Reasoned config { pool.setWorker index .atSafepoint with
      queue := pool.queue ++ [report], history := pool.history ++ [report] } := by
    have moved : Reasoned config (pool.setWorker index .atSafepoint) := reasoned.setWorker nofun nofun nofun (by simp)
    refine ⟨fun isSome => (moved.token isSome).mono rfl id, fun other entry reports heeds => ?_, fun other fails => ?_,
      fun other gone present => ?_, fun other error ends => ?_, fun before entry after split fine fails => ?_,
      fun isSkipped => (moved.skipped isSkipped).mono rfl id⟩
    · exact ⟨(moved.heeded other entry reports heeds).1.mono rfl id, (moved.heeded other entry reports heeds).2⟩
    · exact (moved.failed other fails).mono rfl id
    · exact (moved.ended other gone present).imp_right fun excused => excused.mono rfl id id
    · exact ⟨(moved.endedError other error ends).1.mono rfl id id, (moved.endedError other error ends).2⟩
    · rcases List.append_eq_append_iff.mp split with ⟨rest, isBefore, last⟩ | ⟨rest, whole, last⟩
      · -- All earlier reports come before this one.
        cases rest with
        | cons other rest => simp at last
        | nil =>
          rw [List.append_nil] at isBefore
          obtain ⟨rfl, -⟩ := List.cons.inj last
          cases own : report.own with
          | true => exact .inl rfl
          | false =>
            obtain ⟨blamed, isCancelled⟩ := reasoned.heeded index report here own
            refine .inr ⟨blamed.resolve_left fun ⟨other, member, _, failed⟩ => ?_, isCancelled⟩
            have isOk := fine other (isBefore ▸ member)
            rw [failed] at isOk
            cases isOk
      · cases rest with
        | nil =>
          rw [List.append_nil] at whole
          rw [List.nil_append] at last
          obtain ⟨rfl, -⟩ := List.cons.inj last
          cases own : entry.own with
          | true => exact .inl rfl
          | false =>
            obtain ⟨blamed, isCancelled⟩ := reasoned.heeded index entry here own
            refine .inr ⟨blamed.resolve_left fun ⟨other, member, _, failed⟩ => ?_, isCancelled⟩
            have isOk := fine other (whole ▸ member)
            rw [failed] at isOk
            cases isOk
        | cons other rest =>
          obtain ⟨rfl, -⟩ := List.cons.inj last
          exact reasoned.first before entry rest whole fine fails
  split_ifs with fine
  · exact moved
  · rw [Bool.not_eq_true] at fine
    have failed : Reasoned config (Pool.setWorker _ index .failed) :=
      moved.setWorker nofun (fun _ => blamed rfl rfl fine) nofun (by simp)
    simp only [Pool.setWorker, Function.update_idem] at failed ⊢
    exact failed

theorem Step.reasoned (step : Step config pool act next_) (fits : Fits config act pool)
    (undecided : next_.parent.undecided = true) (counted : pool.Counted config) (collected : pool.Collected config)
    (reasoned : pool.Reasoned config) : next_.Reasoned config := by
  have stops : pool.cancelled ∨ pool.expired = true → pool.Excused := fun stops => stops.imp_left reasoned.blamed
  have same : ∀ {next_ : Pool ι β}, next_.worker = pool.worker → next_.history = pool.history →
      next_.enclosing = pool.enclosing → next_.expired = pool.expired → next_.token = pool.token →
      (pool.producer.gone = true → pool.jobs = [] → next_.producer.gone = true ∧ next_.jobs = []) →
      next_.skipped = pool.skipped → Reasoned config next_ := by
    intro next_ worker history enclosing expired token producer skipped
    have mono : pool.Blamed → next_.Blamed := fun blamed =>
      blamed.mono (history.trans (List.append_nil _).symm) enclosing.trans
    exact reasoned.frame worker history enclosing.trans expired.trans (fun isSome => mono (reasoned.token (token ▸ isSome)))
      producer fun isSkipped => mono (reasoned.skipped (skipped ▸ isSkipped))
  cases step with
  | startCancelled | pollCancelled | disconnectFailed | awaitProducerFailed | awaitWorkerFailed | awaited | close =>
    cases undecided
  | refuse | refuseOther | stallProducer | stallWorker | die => cases fits
  | cancelEnclosing =>
    exact reasoned.frame rfl rfl (fun _ => rfl) id (fun _ => .inr rfl) (fun gone empty => ⟨gone, empty⟩) fun _ => .inr rfl
  | expire =>
    have mono : pool.Blamed → Blamed { pool with expired := true } := fun blamed =>
      blamed.mono (List.append_nil _).symm id
    exact reasoned.frame rfl rfl id (fun _ => rfl) (fun isSome => mono (reasoned.token isSome))
      (fun gone empty => ⟨gone, empty⟩) fun isSkipped => mono (reasoned.skipped isSkipped)
  | others | release | pollLive | giveUp | disconnect | awaitProducer | awaitWorker | receiveValue =>
    exact same rfl rfl rfl rfl rfl (fun gone empty => ⟨gone, empty⟩) rfl
  | start starts =>
    exact same rfl rfl rfl rfl rfl (fun gone _ => by rw [(counted.starting starts).1] at gone; cases gone) rfl
  | @spawn index permits spawns more admitted =>
    have moved : Reasoned config (pool.setWorker index .atSafepoint) := reasoned.setWorker nofun nofun nofun (by simp)
    exact moved.frame rfl rfl id id (fun isSome => (moved.token isSome).mono (List.append_nil _).symm id)
      (fun gone empty => ⟨gone, empty⟩) fun isSkipped => (moved.skipped isSkipped).mono (List.append_nil _).symm id
  | produceNil producer | produceCons producer | produceFailed producer | sendDisconnected producer
  | push producer =>
    exact same rfl rfl rfl rfl rfl (fun gone _ => by rw [producer] at gone; cases gone) rfl
  | publishProducer _ producer => exact same rfl rfl rfl rfl rfl (fun _ empty => ⟨rfl, empty⟩) rfl
  | produceCancelled _ produces => exact same rfl rfl rfl rfl rfl (fun _ empty => ⟨rfl, empty⟩) rfl
  | safepointLive here | checkLive here | retry here => exact reasoned.setWorker nofun nofun nofun (by simp)
  | finish _ here =>
    exact reasoned.setWorker (fun report isReport own => by cases isReport; cases own) nofun nofun (by simp)
  | safepointStops here isStopped =>
    refine reasoned.setWorker nofun nofun (fun _ => .inr (stops isStopped)) fun error ends => ?_
    rcases ends with ended | published
    · cases ended
      exact ⟨stops isStopped, rfl⟩
    · cases published
  | safepointClosed here closes =>
    have before : pool.parent.undecided = true := undecided
    rcases closes with closes | ⟨_, returned⟩
    · rw [closes] at before
      cases before
    · rw [returned] at before
      cases before
  | checkCancelled here cancelled =>
    exact reasoned.setWorker nofun nofun (fun _ => .inr (stops (.inl cancelled))) (by simp)
  | hangUp here empty gone => exact reasoned.setWorker nofun nofun (fun _ => .inl ⟨gone, empty⟩) (by simp)
  | heed suppressed here cancelled =>
    refine reasoned.setWorker (fun report isReport _ => ?_) nofun nofun (by simp)
    cases isReport
    exact ⟨reasoned.blamed cancelled, _, rfl, rfl⟩
  | @publish index result scope here =>
    have gone : (pool.worker index).gone = true := by rw [here]; rfl
    refine reasoned.setWorker nofun nofun (fun _ => reasoned.ended index gone (by rw [here]; nofun)) fun error ends => ?_
    rcases ends with ended | published
    · cases ended
    · rw [finishWith_clean fits] at published
      cases published
      exact reasoned.endedError index error (.inl here)
  | @take index job item jobs here ready =>
    have moved : Reasoned config (pool.setWorker index (.holding job item)) := reasoned.setWorker nofun nofun nofun (by simp)
    refine moved.frame rfl rfl id id (fun isSome => (moved.token isSome).mono (List.append_nil _).symm id)
      (fun _ empty => ?_) fun isSkipped => (moved.skipped isSkipped).mono (List.append_nil _).symm id
    rw [show pool.jobs = [] from empty] at ready
    cases ready
  | @begin index job item here =>
    have moved : Reasoned config (pool.setWorker index (.running job item)) := reasoned.setWorker nofun nofun nofun (by simp)
    exact moved.frame rfl rfl id id (fun isSome => (moved.token isSome).mono (List.append_nil _).symm id)
      (fun gone empty => ⟨gone, empty⟩) fun isSkipped => (moved.skipped isSkipped).mono (List.append_nil _).symm id
  | @skip index job item here cancelled =>
    have moved : Reasoned config (pool.setWorker index (.ended (.ok ()))) :=
      reasoned.setWorker nofun nofun (fun _ => .inr (stops (.inl cancelled))) (by simp)
    exact moved.frame rfl rfl id id (fun isSome => (moved.token isSome).mono (List.append_nil _).symm id)
      (fun gone empty => ⟨gone, empty⟩) fun _ => (reasoned.blamed cancelled).mono (List.append_nil _).symm id
  | @cancelSiblings index here =>
    have blamed := reasoned.failed index here
    have moved : Reasoned config (pool.setWorker index (.ended (.ok ()))) :=
      reasoned.setWorker nofun nofun (fun _ => .inr (.inl blamed)) (by simp)
    exact moved.frame rfl rfl id id (fun _ => blamed.mono (List.append_nil _).symm id)
      (fun gone empty => ⟨gone, empty⟩) fun _ => blamed.mono (List.append_nil _).symm id
  | report here => exact reasoned.report here
  | reportLost here lost =>
    have before : pool.parent.undecided = true := undecided
    obtain ⟨_, returned⟩ := lost
    rw [returned] at before
    cases before
  | @receiveError values first report error queue collects arrived failure =>
    obtain ⟨received, history, -, -⟩ := collected.collecting _ _ _ collects
    have member : report ∈ pool.history := by rw [history, arrived]; simp
    have blamed := reasoned.blamed_of_error member (by simp [failure, Except.isOk, Except.toBool])
    exact reasoned.frame rfl rfl id id (fun _ => blamed.mono (List.append_nil _).symm id)
      (fun gone empty => ⟨gone, empty⟩) fun _ => blamed.mono (List.append_nil _).symm id

/-- A worker that has left early has a reason, as long as the producer has not ended. -/
theorem Reasoned.excused_of_gone (reasoned : pool.Reasoned config) (staffed : pool.Staffed config)
    (released : pool.released = true) (gone : pool.workersGone config)
    (open_ : pool.producer.gone = false) : pool.Excused := by
  refine (reasoned.ended 0 (gone 0 config.workerCount_pos) (staffed.present released 0 config.workerCount_pos)).resolve_left fun both => ?_
  rw [open_] at both
  cases both.1

theorem Step.produced (step : Step config pool act next_) (fits : Fits config act pool)
    (undecided : next_.parent.undecided = true) (staffed : pool.Staffed config) (counted : pool.Counted config)
    (reasoned : pool.Reasoned config) (produced : pool.Produced config) : next_.Produced config := by
  have same : ∀ {next_ : Pool ι β}, next_.producer = pool.producer → next_.pushed = pool.pushed →
      (pool.Excused → next_.Excused) → Produced config next_ := by
    intro next_ producer pushed mono
    refine ⟨by rw [pushed]; exact produced.input, by rw [producer]; exact produced.sending,
      by rw [producer, pushed]; exact produced.nil, fun error ends => ?_⟩
    rw [producer] at ends
    rw [pushed]
    exact (produced.failed error ends).imp_right fun both => ⟨mono both.1, both.2⟩
  have ended : ∀ {result : Except Failure ℕ}, (∀ count, result = .ok count → count = pool.pushed ∧ config.input count = .nil) →
      (∀ error, result = .error error → config.input pool.pushed = .failed error ∨ pool.Excused ∧ IsCancelled error) →
      Produced config { pool with producer := .ended result } := by
    intro result nil failed
    refine ⟨produced.input, nofun, fun count ends => ?_, fun error ends => ?_⟩
    · rcases ends with ends | ends <;> cases ends
      exact nil count rfl
    · rcases ends with ends | ends <;> cases ends
      exact failed error rfl
  cases step with
  | startCancelled | pollCancelled | disconnectFailed | awaitProducerFailed | awaitWorkerFailed | awaited | close =>
    cases undecided
  | refuse | refuseOther | stallProducer | stallWorker | die => cases fits
  | cancelEnclosing => exact same rfl rfl fun excused => excused.mono (List.append_nil _).symm (fun _ => rfl) id
  | expire => exact same rfl rfl fun excused => excused.mono (List.append_nil _).symm id fun _ => rfl
  | report => exact same rfl rfl fun excused => excused.mono rfl id id
  | others | spawn | release | pollLive | giveUp | disconnect | awaitProducer | awaitWorker | receiveValue | receiveError
  | safepointLive | safepointStops | safepointClosed | checkLive | checkCancelled | take | retry | hangUp | begin | skip
  | finish | heed | reportLost | cancelSiblings | publish =>
    exact same rfl rfl fun excused => excused.mono (List.append_nil _).symm id id
  | start starts =>
    refine ⟨produced.input, nofun, ?_, ?_⟩
    · rintro count (ends | ends) <;> cases ends
    · rintro error (ends | ends) <;> cases ends
  | @produceNil index forces cell =>
    have isPushed := counted.index index (.inl forces)
    exact ended (fun count isCount => by cases isCount; exact ⟨isPushed, cell⟩) nofun
  | @produceCons index item forces cell =>
    refine ⟨produced.input, fun position item' sends => by cases sends; exact cell, ?_, ?_⟩
    · rintro count (ends | ends) <;> cases ends
    · rintro error (ends | ends) <;> cases ends
  | @produceFailed index error forces cell =>
    have isPushed := counted.index index (.inl forces)
    exact ended nofun fun error' isError => by cases isError; exact .inl (isPushed ▸ cell)
  | @push index item sends room =>
    have isPushed := counted.index index (.inr ⟨item, sends⟩)
    refine ⟨fun position less => ?_, nofun, ?_, ?_⟩
    · rcases Nat.lt_succ_iff_lt_or_eq.mp less with before | rfl
      · exact produced.input position before
      · exact ⟨item, isPushed ▸ produced.sending index item sends⟩
    · rintro count (ends | ends) <;> cases ends
    · rintro error (ends | ends) <;> cases ends
  | produceCancelled suppressed produces cancelled =>
    exact ended nofun fun error isError => by cases isError; exact .inr ⟨.inl (reasoned.blamed cancelled), rfl⟩
  | @sendDisconnected index item sends dropped gone =>
    refine ended nofun fun error isError => ?_
    cases isError
    have before : pool.parent.undecided = true := undecided
    refine .inr ⟨reasoned.excused_of_gone staffed (dropped.resolve_right fun ⟨_, returned⟩ => ?_) gone
      (by rw [sends]; rfl), rfl⟩
    rw [returned] at before
    cases before
  | @publishProducer result scope isEnded =>
    refine ⟨produced.input, nofun, fun count ends => ?_, fun error ends => ?_⟩
    · rcases ends with ends | ends
      · cases ends
      · rw [finishWith_clean fits] at ends
        cases ends
        exact produced.nil count (.inl isEnded)
    · rcases ends with ends | ends
      · cases ends
      · rw [finishWith_clean fits] at ends
        cases ends
        exact produced.failed error (.inl isEnded)

end Reasons

section Outcome

/-- The parent is cancelled, or a deadline has passed. -/
def Outside (pool : Pool ι β) : Prop := pool.enclosing = true ∨ pool.expired = true

/-- Every worker has run and left its loop. -/
def Finished (config : PoolConfig ι) (pool : Pool ι β) : Prop :=
  ∀ index < config.workerCount, (pool.worker index).gone = true ∧ pool.worker index ≠ .absent

/-- The error is one that a callback or the producer has raised, or it comes from outside. -/
def Raised (config : PoolConfig ι) (pool : Pool ι β) (error : Failure) : Prop :=
  (pool.Outside ∧ IsCancelled error) ∨ (pool.Finished config ∧
    ((∃ report ∈ pool.history, report.own = true ∧ report.result = .error error) ∨
      pool.producer.gone = true ∧ config.input pool.pushed = .failed error))

/-- What the parent may decide. -/
def Judged (config : PoolConfig ι) (pool : Pool ι β) : Except Failure (ℕ × List (ℕ × β)) → Prop
  | .error error => pool.Raised config error
  | .ok (count, values) => pool.Finished config ∧ pool.producer.gone = true ∧ count = pool.pushed ∧
      (∀ index < pool.pushed, ∃ item, config.input index = .cons item) ∧ config.input count = .nil ∧
      values = successes pool.history ∧ firstError pool.history = none ∧ (values.length = count ∨ pool.Outside)

/-- What the pool may return. -/
def Specified (config : PoolConfig ι) (pool : Pool ι β) : Except Failure (Option (List β)) → Prop
  | .error error => pool.Raised config error ∨
      pool.Outside ∧ error = .internal "pooled action completed without one result per input"
  | .ok result => pool.Finished config ∧ pool.producer.gone = true ∧ ∃ outputs : List β,
      (∀ index < pool.pushed, ∃ item, config.input index = .cons item) ∧ config.input pool.pushed = .nil ∧
      pool.started.Perm (List.range pool.pushed) ∧ outputs.length = pool.pushed ∧
      (∀ index value, outputs[index]? = some value → ∃ report ∈ pool.history, report.index = index ∧
        report.result = .ok value) ∧
      firstError pool.history = none ∧ result = if config.discardResults then none else some outputs

/-- When all workers have finished, no callback is started and none reports. -/
theorem Step.frozen (step : Step config pool act next_) (staffed : pool.Staffed config) (finished : pool.Finished config) :
    next_.Finished config ∧ next_.history = pool.history ∧ next_.started = pool.started := by
  have absurd_ : ∀ {index : ℕ} {worker : Worker ι β}, pool.worker index = worker → worker ≠ .absent →
      worker.gone = false → False := by
    intro index worker here present open_
    have gone := (finished index (staffed.less (by rw [here]; exact present))).1
    rw [here, open_] at gone
    cases gone
  cases step with
  | safepointLive here | safepointStops here | safepointClosed here | checkLive here | checkCancelled here | take here
  | retry here | hangUp here | begin here | skip here | finish _ here | heed _ here | die here | report here
  | reportLost here | cancelSiblings here => exact (absurd_ here nofun rfl).elim
  | @publish index result scope here =>
    refine ⟨fun other less => ?_, rfl, rfl⟩
    by_cases same : other = index
    · simp [setWorker, same, Worker.gone]
    · simp only [setWorker, Function.update_of_ne same]
      exact finished other less
  | @spawn index permits spawns more =>
    have isAbsent := ((staffed.spawning index spawns).2 index).mpr le_rfl
    exact absurd isAbsent (finished index more).2
  | cancelEnclosing | expire | others | startCancelled | start | refuse | refuseOther | release | produceNil | produceCons
  | produceFailed | push | produceCancelled | sendDisconnected | publishProducer | pollCancelled | pollLive | receiveValue
  | receiveError | giveUp | disconnectFailed | disconnect | awaitProducer | awaitProducerFailed | stallProducer
  | awaitWorker | awaitWorkerFailed | stallWorker | awaited | close => exact ⟨finished, rfl, rfl⟩

/-- When the producer has ended, it puts nothing into the queue. -/
theorem Step.producer_gone (step : Step config pool act next_) (gone : pool.producer.gone = true)
    (starting : pool.parent = .starting → pool.producer = .absent) :
    next_.producer.gone = true ∧ next_.pushed = pool.pushed := by
  cases step with
  | produceNil forces | produceCons forces | produceFailed forces | push forces | sendDisconnected forces =>
    rw [forces] at gone
    cases gone
  | produceCancelled _ produces =>
    rcases produces with ⟨_, forces⟩ | ⟨_, _, sends⟩
    · rw [forces] at gone
      cases gone
    · rw [sends] at gone
      cases gone
  | start starts =>
    rw [starting starts] at gone
    cases gone
  | publishProducer => exact ⟨rfl, rfl⟩
  | _ => exact ⟨gone, rfl⟩

theorem Step.outside (step : Step config pool act next_) (outside : pool.Outside) : next_.Outside := by
  cases step with
  | cancelEnclosing => exact .inl rfl
  | expire => exact .inr rfl
  | _ => exact outside

theorem Step.history (step : Step config pool act next_) : ∃ more, next_.history = pool.history ++ more := by
  cases step with
  | report => exact ⟨_, rfl⟩
  | _ => exact ⟨[], (List.append_nil _).symm⟩

theorem Step.raised (step : Step config pool act next_) (staffed : pool.Staffed config) (counted : pool.Counted config)
    {error : Failure} (raised : pool.Raised config error) : next_.Raised config error := by
  rcases raised with ⟨outside, isCancelled⟩ | ⟨finished, ⟨report, member, failed⟩ | ⟨gone, cell⟩⟩
  · exact .inl ⟨step.outside outside, isCancelled⟩
  · obtain ⟨finished', history, -⟩ := step.frozen staffed finished
    exact .inr ⟨finished', .inl ⟨report, history ▸ member, failed⟩⟩
  · obtain ⟨gone', pushed⟩ := step.producer_gone gone fun starts => (counted.starting starts).1
    exact .inr ⟨(step.frozen staffed finished).1, .inr ⟨gone', pushed ▸ cell⟩⟩

theorem Step.judged (step : Step config pool act next_) (staffed : pool.Staffed config) (counted : pool.Counted config)
    {decision : Except Failure (ℕ × List (ℕ × β))} (judged : pool.Judged config decision) :
    next_.Judged config decision := by
  rcases decision with error | ⟨count, values⟩
  · exact step.raised staffed counted judged
  · obtain ⟨finished, gone, isPushed, input, nil, isValues, none, complete⟩ := judged
    obtain ⟨finished', history, -⟩ := step.frozen staffed finished
    obtain ⟨gone', pushed⟩ := step.producer_gone gone fun starts => (counted.starting starts).1
    exact ⟨finished', gone', isPushed.trans pushed.symm, by rw [pushed]; exact input, nil, history ▸ isValues,
      history ▸ none, complete.imp_right step.outside⟩

theorem Step.specified (step : Step config pool act next_) (staffed : pool.Staffed config) (counted : pool.Counted config)
    {result : Except Failure (Option (List β))} (specified : pool.Specified config result) :
    next_.Specified config result := by
  cases result with
  | error error =>
    exact specified.imp (fun raised => step.raised staffed counted raised) fun both => ⟨step.outside both.1, both.2⟩
  | ok result =>
    obtain ⟨finished, gone, outputs, rest⟩ := specified
    obtain ⟨finished', history, started⟩ := step.frozen staffed finished
    obtain ⟨gone', pushed⟩ := step.producer_gone gone fun starts => (counted.starting starts).1
    exact ⟨finished', gone', outputs, by rw [history, started, pushed]; exact rest⟩

theorem firstError_eq_none {reports : List (Report β)} :
    firstError reports = none ↔ ∀ report ∈ reports, ∃ value, report.result = .ok value := by
  rw [firstError, List.findSome?_eq_none_iff]
  refine forall₂_congr fun report _ => ?_
  cases report.result <;> simp

theorem firstError_eq_some {reports : List (Report β)} {error : Failure} (isFirst : firstError reports = some error) :
    ∃ before report after, reports = before ++ report :: after ∧ (∀ entry ∈ before, entry.result.isOk = true) ∧
      report.result = .error error := by
  obtain ⟨before, report, after, split, fails, fine⟩ := List.findSome?_eq_some_iff.mp isFirst
  refine ⟨before, report, after, split, fun entry member => ?_, ?_⟩
  · have none := fine entry member
    cases result : entry.result with
    | ok => rfl
    | error => simp [result] at none
  · cases result : report.result with
    | ok => simp [result] at fails
    | error other =>
      simp only [result, Option.some.injEq] at fails
      rw [fails]

/-- Successful reports have a value each. -/
theorem successes_indices {reports : List (Report β)} (fine : firstError reports = none) :
    (successes reports).map Prod.fst = reports.map Report.index := by
  rw [firstError_eq_none] at fine
  induction reports with
  | nil => rfl
  | cons report reports ih =>
    obtain ⟨value, success⟩ := fine report (List.mem_cons_self ..)
    have rest := ih fun entry member => fine entry (List.mem_cons_of_mem _ member)
    simpa [successes, success, Except.toOption] using rest

/-- Without a failed callback only something outside is a reason to stop early. -/
theorem Excused.outside (excused : pool.Excused) (fine : firstError pool.history = none) : pool.Outside := by
  rcases excused with (⟨report, member, -, fails⟩ | enclosing) | expired
  · obtain ⟨value, success⟩ := firstError_eq_none.mp fine report member
    rw [success] at fails
    cases fails
  · exact .inl enclosing
  · exact .inr expired

/-- When all workers have finished, the started callbacks are the reported ones. -/
theorem Counted.started_perm (counted : pool.Counted config) (finished : pool.Finished config)
    (notReturned : ¬ pool.hasReturned) : pool.started.Perm (pool.history.map Report.index) := by
  rw [List.perm_iff_count]
  intro item
  have idle : ∑ index ∈ Finset.range config.workerCount, (pool.worker index).works item = 0 := by
    refine Finset.sum_eq_zero fun index member => ?_
    have gone := (finished index (Finset.mem_range.mp member)).1
    revert gone
    cases pool.worker index <;> simp [Worker.gone, Worker.works]
  have begun := counted.begun notReturned item
  omega

/-- No callback is started twice, and only those of items in the queue are. -/
theorem Counted.started_count (counted : pool.Counted config) (item : ℕ) :
    pool.started.count item ≤ if item < pool.pushed then 1 else 0 := by
  have places := counted.places item
  omega

theorem Counted.started_nodup (counted : pool.Counted config) : pool.started.Nodup := by
  rw [List.nodup_iff_count_le_one]
  intro item
  have count := counted.started_count item
  split_ifs at count <;> omega

theorem Counted.mem_started (counted : pool.Counted config) {item : ℕ} (member : item ∈ pool.started) :
    item < pool.pushed := by
  by_contra outside
  have count := counted.started_count item
  rw [if_neg outside] at count
  have positive := List.count_pos_iff.mpr member
  omega

/-- Without something outside each item has been reported when all workers have finished. -/
theorem Reasoned.complete (reasoned : pool.Reasoned config) (counted : pool.Counted config)
    (finished : pool.Finished config) (fine : firstError pool.history = none) (inside : ¬ pool.Outside) :
    pool.started.Perm (List.range pool.pushed) := by
  have excused : ¬ pool.Excused := fun excused => inside (excused.outside fine)
  have empty : pool.jobs = [] :=
    ((reasoned.ended 0 (finished 0 config.workerCount_pos).1 (finished 0 config.workerCount_pos).2).resolve_right excused).2
  have kept : pool.skipped = [] := by
    by_contra some
    exact excused (.inl (reasoned.skipped some))
  rw [List.perm_iff_count]
  intro item
  have idle : ∑ index ∈ Finset.range config.workerCount, (pool.worker index).holds item = 0 := by
    refine Finset.sum_eq_zero fun index member => ?_
    have gone := (finished index (Finset.mem_range.mp member)).1
    revert gone
    cases pool.worker index <;> simp [Worker.gone, Worker.holds]
  have places := counted.places item
  rw [idle, empty, kept] at places
  simp only [List.map_nil, List.count_nil, Nat.zero_add, Nat.add_zero] at places
  rw [places]
  split_ifs with less
  · exact (List.count_eq_one_of_mem List.nodup_range (List.mem_range.mpr less)).symm
  · exact (List.count_eq_zero_of_not_mem fun member => less (List.mem_range.mp member)).symm

/-- Values with the indices below some bound, in the order of their indices. -/
theorem sorted_indices {values : List (ℕ × β)} {bound : ℕ} (all : (values.map Prod.fst).Perm (List.range bound)) :
    (values.mergeSort fun left right => left.1 ≤ right.1).map Prod.fst = List.range bound := by
  have perm : ((values.mergeSort fun left right => left.1 ≤ right.1).map Prod.fst).Perm (List.range bound) :=
    ((List.mergeSort_perm values _).map Prod.fst).trans all
  have sorted : (values.mergeSort fun left right => left.1 ≤ right.1).Pairwise
      fun left right => decide (left.1 ≤ right.1) = true :=
    List.pairwise_mergeSort (fun _ _ _ le le' => by simp only [decide_eq_true_eq] at le le' ⊢; omega)
      (fun left right => by simpa using Nat.le_total left.1 right.1) values
  have sorted' : ((values.mergeSort fun left right => left.1 ≤ right.1).map Prod.fst).Pairwise (· ≤ ·) := by
    rw [List.pairwise_map]
    exact sorted.imp fun le => by simpa using le
  exact perm.eq_of_pairwise (fun _ _ _ _ => Nat.le_antisymm) sorted' List.pairwise_le_range

/-- The pool concludes with the values in the order of the items, when it has them all. -/
theorem conclude_specified (finished : pool.Finished config) (gone : pool.producer.gone = true)
    (input : ∀ index < pool.pushed, ∃ item, config.input index = .cons item) (counted : pool.Counted config)
    (notReturned : ¬ pool.hasReturned) (nil : config.input pool.pushed = .nil) (fine : firstError pool.history = none)
    (complete : (successes pool.history).length = pool.pushed ∨ pool.Outside) :
    pool.Specified config (conclude config (pool.pushed, successes pool.history)) := by
  have started := counted.started_perm finished notReturned
  rw [← successes_indices fine] at started
  by_cases whole : (successes pool.history).length = pool.pushed
  · have all : ((successes pool.history).map Prod.fst).Perm (List.range pool.pushed) := by
      refine List.Subperm.perm_of_length_le ?_ (by simp [whole])
      exact (started.nodup_iff.mp counted.started_nodup).subperm fun item member =>
        List.mem_range.mpr (counted.mem_started (started.mem_iff.mpr member))
    have indices := sorted_indices all
    have concluded : conclude config (pool.pushed, successes pool.history) = .ok (if config.discardResults then none
        else some (((successes pool.history).mergeSort fun left right => left.1 ≤ right.1).map Prod.snd)) := by
      simp only [conclude, whole, ne_eq, not_true_eq_false, if_false]
      split_ifs <;> rfl
    rw [concluded]
    refine ⟨finished, gone, _, input, nil, started.trans all, ?_, fun index value isValue => ?_, fine, rfl⟩
    · rw [List.length_map, List.length_mergeSort, whole]
    · -- The entry at a position carries this position as its index.
      rw [List.getElem?_map, Option.map_eq_some_iff] at isValue
      obtain ⟨⟨position, value'⟩, isEntry, rfl⟩ := isValue
      have isPosition : (List.range pool.pushed)[index]? = some position := by
        rw [← indices, List.getElem?_map, isEntry]
        rfl
      obtain ⟨less, same⟩ := List.getElem?_eq_some_iff.mp isPosition
      rw [List.getElem_range] at same
      have member := List.mem_mergeSort.mp (List.mem_of_getElem? isEntry)
      obtain ⟨report, isReport, success⟩ := List.mem_filterMap.mp member
      obtain ⟨value, isOk, isPair⟩ := Option.map_eq_some_iff.mp success
      obtain ⟨isIndex, rfl⟩ := Prod.mk.inj isPair
      refine ⟨report, isReport, isIndex.trans same.symm, ?_⟩
      cases result : report.result with
      | error => simp [result, Except.toOption] at isOk
      | ok other =>
        simp only [result, Except.toOption, Option.some.injEq] at isOk
        rw [isOk]
  · rw [show conclude config (pool.pushed, successes pool.history) =
      .error (.internal "pooled action completed without one result per input") from if_pos whole]
    exact Or.inr ⟨complete.resolve_left whole, rfl⟩

/-- What the parent has decided and returned is right. -/
structure Decided (config : PoolConfig ι) (pool : Pool ι β) : Prop where
  closing : ∀ decision, pool.parent = .closing decision → pool.Judged config decision
  returned : ∀ result, pool.parent = .returned result → pool.Specified config result

structure Sound (config : PoolConfig ι) (pool : Pool ι β) : Prop where
  staffed : pool.Staffed config
  counted : pool.Counted config
  collected : pool.Collected config
  decided : pool.Decided config
  reasoned : pool.parent.undecided = true → pool.Reasoned config
  produced : pool.parent.undecided = true → pool.Produced config

theorem initial_sound (config : PoolConfig ι) (others : ℕ) (enclosing expired : Bool) :
    Sound config (initial others enclosing expired : Pool ι β) :=
  ⟨initial_staffed config others enclosing expired, initial_counted config others enclosing expired,
    initial_collected config others enclosing expired, ⟨nofun, nofun⟩,
    fun _ => initial_reasoned config others enclosing expired, fun _ => initial_produced config others enclosing expired⟩

/-- The parent never takes up again what it has stopped. -/
theorem Step.undecided (step : Step config pool act next_) (undecided : next_.parent.undecided = true) :
    pool.parent.undecided = true := by
  cases step with
  | start starts | spawn starts | release starts | pollLive starts | receiveValue starts | receiveError starts
  | giveUp starts | disconnect starts | awaitProducer starts | awaitWorker starts =>
    rw [starts]
    rfl
  | startCancelled | refuse | refuseOther | pollCancelled | disconnectFailed | awaitProducerFailed | stallProducer
  | awaitWorkerFailed | stallWorker | awaited | close => cases undecided
  | _ => exact undecided

theorem Staffed.finished (staffed : pool.Staffed config) (released : pool.released = true)
    (gone : pool.workersGone config) : pool.Finished config :=
  fun index less => ⟨gone index less, staffed.present released index less⟩

/-- The parent stops with a decision that is right. -/
theorem Decided.ofStop {decision : Except Failure (ℕ × List (ℕ × β))} (judged : pool.Judged config decision) :
    Decided config (pool.stop decision) := by
  refine ⟨fun decision' closes => ?_, nofun⟩
  cases closes
  rcases decision with error | ⟨count, values⟩
  · exact judged
  · exact judged

theorem Step.decided (step : Step config pool act next_) (fits : Fits config act pool)
    (sound : pool.Sound config) : next_.Decided config := by
  have keeps : next_.parent = pool.parent → next_.Decided config := by
    intro parent
    refine ⟨fun decision closes => ?_, fun result returned => ?_⟩
    · exact step.judged sound.staffed sound.counted (sound.decided.closing decision (parent ▸ closes))
    · exact step.specified sound.staffed sound.counted (sound.decided.returned result (parent ▸ returned))
  have live : ∀ {next_ : Pool ι β}, next_.parent.undecided = true → next_.Decided config := by
    intro next_ undecided
    refine ⟨fun decision closes => ?_, fun result returned => ?_⟩
    · rw [closes] at undecided
      cases undecided
    · rw [returned] at undecided
      cases undecided
  cases step with
  | start | spawn | release | pollLive | receiveValue | receiveError | giveUp | disconnect | awaitProducer | awaitWorker =>
    exact live rfl
  | refuse | refuseOther | stallProducer | stallWorker | die => cases fits
  | startCancelled starts cancelled =>
    refine ⟨nofun, fun result returned => ?_⟩
    cases returned
    exact Or.inl (.inl ⟨.inl cancelled, rfl⟩)
  | pollCancelled collects cancelled => exact .ofStop (.inl ⟨.inl cancelled, rfl⟩)
  | @disconnectFailed values error collects empty gone =>
    have finished := sound.staffed.finished (sound.staffed.released (by rw [collects]; rfl)) gone
    obtain ⟨received, history, -, isFirst⟩ := sound.collected.collecting _ _ _ collects
    rw [empty, List.append_nil] at history
    obtain ⟨before, report, after, split, fine, isError⟩ := firstError_eq_some isFirst.symm
    rw [← history] at split
    rcases (sound.reasoned (by rw [collects]; rfl)).first before report after split fine
      (by simp [isError, Except.isOk, Except.toBool]) with own | ⟨enclosing, error', isError', isCancelled⟩
    · exact .ofStop (.inr ⟨finished, .inl ⟨report, split ▸ List.mem_append_right _ (List.mem_cons_self ..), own, isError⟩⟩)
    · rw [isError] at isError'
      cases isError'
      exact .ofStop (.inl ⟨.inl enclosing, isCancelled⟩)
  | @awaitProducerFailed values error awaits published =>
    obtain ⟨-, none, gone⟩ := sound.collected.awaiting values (.inl awaits)
    have finished := sound.staffed.finished (sound.staffed.released (by rw [awaits]; rfl)) gone
    rcases (sound.produced (by rw [awaits]; rfl)).failed error (.inr published) with failed | ⟨excused, isCancelled⟩
    · exact .ofStop (.inr ⟨finished, .inr ⟨by rw [published]; rfl, failed⟩⟩)
    · exact .ofStop (.inl ⟨excused.outside none, isCancelled⟩)
  | @awaitWorkerFailed index count values error awaits more published =>
    obtain ⟨-, none, -⟩ := sound.collected.awaiting values (.inr ⟨index, count, awaits⟩)
    obtain ⟨excused, isCancelled⟩ := (sound.reasoned (by rw [awaits]; rfl)).endedError index error (.inr published)
    exact .ofStop (.inl ⟨excused.outside none, isCancelled⟩)
  | @awaited count values awaits =>
    have undecided : pool.parent.undecided = true := by rw [awaits]; rfl
    obtain ⟨isValues, none, gone⟩ := sound.collected.awaiting values (.inr ⟨config.workerCount, count, awaits⟩)
    have finished := sound.staffed.finished (sound.staffed.released (by rw [awaits]; rfl)) gone
    have published := sound.collected.producer _ _ _ awaits
    obtain ⟨isPushed, nil⟩ := (sound.produced undecided).nil count (.inr published)
    refine .ofStop ⟨finished, by rw [published]; rfl, isPushed, (sound.produced undecided).input, nil, isValues, none, ?_⟩
    refine Classical.or_iff_not_imp_right.mpr fun inside => ?_
    have all := (sound.reasoned undecided).complete sound.counted finished none inside
    have reported := sound.counted.started_perm finished fun ⟨_, returned⟩ => by rw [awaits] at returned; cases returned
    rw [isValues, isPushed, ← List.length_map Prod.fst, successes_indices none, ← reported.length_eq, all.length_eq,
      List.length_range]
  | @close decision scope closes =>
    have notReturned : ¬ pool.hasReturned := fun ⟨_, returned⟩ => by rw [closes] at returned; cases returned
    have judged := sound.decided.closing decision closes
    refine ⟨nofun, fun result returned => ?_⟩
    cases returned
    rw [finishWith_clean fits]
    rcases decision with error | ⟨count, values⟩
    · exact Or.inl judged
    · obtain ⟨finished, gone, rfl, input, nil, rfl, none, complete⟩ := judged
      have concluded := conclude_specified finished gone input sound.counted notReturned nil none complete
      exact concluded
  | _ => exact keeps rfl

theorem Step.sound (step : Step config pool act next_) (fits : Fits config act pool)
    (sound : pool.Sound config) : next_.Sound config :=
  ⟨step.staffed sound.staffed, step.counted fits sound.staffed sound.counted, step.collected sound.staffed sound.collected,
    step.decided fits sound,
    fun undecided => step.reasoned fits undecided sound.counted sound.collected (sound.reasoned (step.undecided undecided)),
    fun undecided => step.produced fits undecided sound.staffed sound.counted
      (sound.reasoned (step.undecided undecided)) (sound.produced (step.undecided undecided))⟩

end Outcome

end Pool

end HellRs.Concurrency
