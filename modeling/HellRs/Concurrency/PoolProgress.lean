import HellRs.Concurrency.PoolFacts

/-! # A pool cannot deadlock

From every state that a run of any acts leads to, the acts of the pool itself lead on until it has returned, or until any
number of items is in the queue. With a bound for the number of items, all that is left to do has a rank: the parent takes
the reports, and when there is none, a worker that has not left its loop goes on, or the producer that it waits for.
-/

namespace HellRs.Concurrency

open Runtime Scope Labelled

/-- What the producer is going to do, with a bound for the number of items. -/
def Producer.rank {ι : Type} (bound pushed : ℕ) : Producer ι → ℕ
  | absent => 30 * bound + 9
  | forcing _ => 30 * (bound - pushed) + 4
  | sending _ _ => 30 * (bound - pushed) + 3
  | ended _ => 2
  | published _ => 1

def Worker.rank {ι β : Type} : Worker ι β → ℕ
  | absent => 10
  | atSafepoint => 9
  | checking => 8
  | receiving => 7
  | holding _ _ => 26
  | running _ _ => 24
  | reporting _ => 23
  | failed => 6
  | ended _ => 2
  | published _ => 1

def PoolParent.rank {β : Type} (workers : ℕ) : PoolParent β → ℕ
  | starting => workers + 7
  | spawning _ => workers + 6
  | collecting _ _ checked => workers + if checked then 4 else 5
  | awaitingProducer _ => workers + 3
  | awaitingWorkers index _ _ => workers - index + 2
  | closing _ => 1
  | returned _ => 0

namespace Pool

variable {ι β : Type} {config : PoolConfig ι} {pool next_ : Pool ι β} {act : PoolAct β} {bound : ℕ}
  {callback : ℕ → ι → Except Failure β}

/-- The acts of the pool itself, where each callback ends with its result and what has finished is found in time. -/
def Own (callback : ℕ → ι → Except Failure β) : PoolAct β → Pool ι β → Prop
  | .cancelEnclosing, _ => False
  | .expire, _ => False
  | .others _, _ => False
  | .die _, _ => False
  | .stall, _ => False
  | .finish index result, pool => ∃ job item, pool.worker index = .running job item ∧ result = callback job item
  | _, _ => True

/-- There is a producer as soon as the pool has started, and the parent asks workers that there are. -/
structure Manned (config : PoolConfig ι) (pool : Pool ι β) : Prop where
  producer : pool.producer = .absent → pool.parent = .starting ∨ pool.parent.undecided = false
  starting : pool.parent = .starting → pool.producer = .absent
  asks : ∀ index count values, pool.parent = .awaitingWorkers index count values → index ≤ config.workerCount

theorem Step.manned (step : Step config pool act next_) (manned : pool.Manned config) : next_.Manned config := by
  have early : pool.producer = .absent → pool.parent ≠ .starting → pool.parent.undecided = true → False := by
    intro isAbsent later undecided
    rcases manned.producer isAbsent with starts | decided
    · exact later starts
    · rw [undecided] at decided
      cases decided
  cases step with
  | startCancelled | refuse | refuseOther | pollCancelled | disconnectFailed | awaitProducerFailed | stallProducer
  | awaitWorkerFailed | stallWorker | awaited | close => exact ⟨fun _ => .inr rfl, nofun, nofun⟩
  | start => exact ⟨nofun, nofun, nofun⟩
  | spawn starts | release starts | pollLive starts | receiveValue starts | receiveError starts | giveUp starts
  | disconnect starts =>
    exact ⟨fun isAbsent => (early isAbsent (by rw [starts]; nofun) (by rw [starts]; rfl)).elim, nofun, nofun⟩
  | awaitProducer awaits =>
    refine ⟨fun isAbsent => (early isAbsent (by rw [awaits]; nofun) (by rw [awaits]; rfl)).elim, nofun,
      fun _ _ _ awaits' => ?_⟩
    cases awaits'
    exact Nat.zero_le _
  | awaitWorker awaits more =>
    refine ⟨fun isAbsent => (early isAbsent (by rw [awaits]; nofun) (by rw [awaits]; rfl)).elim, nofun,
      fun _ _ _ awaits' => ?_⟩
    cases awaits'
    exact more
  | produceNil here | produceCons here | produceFailed here | push here | sendDisconnected here | publishProducer _ here =>
    refine ⟨nofun, fun starts => ?_, manned.asks⟩
    rw [manned.starting starts] at here
    cases here
  | produceCancelled _ produces =>
    refine ⟨nofun, fun starts => ?_, manned.asks⟩
    rw [manned.starting starts] at produces
    simp at produces
  | _ => exact ⟨manned.producer, manned.starting, manned.asks⟩

/-- The items in the queue are the first ones of the input. -/
structure Fed (config : PoolConfig ι) (pool : Pool ι β) : Prop where
  input : ∀ index < pool.pushed, ∃ item, config.input index = .cons item
  absent : pool.producer = .absent → pool.pushed = 0
  forcing : ∀ index, pool.producer = .forcing index → index = pool.pushed
  sending : ∀ index item, pool.producer = .sending index item → index = pool.pushed ∧ config.input index = .cons item

theorem Step.fed (step : Step config pool act next_) (manned : pool.Manned config) (fed : pool.Fed config) :
    next_.Fed config := by
  cases step with
  | start starts =>
    refine ⟨fed.input, nofun, fun _ isFirst => ?_, nofun⟩
    cases isFirst
    exact (fed.absent (manned.starting starts)).symm
  | produceNil | produceFailed | produceCancelled | sendDisconnected | publishProducer =>
    exact ⟨fed.input, nofun, nofun, nofun⟩
  | produceCons forces cell =>
    refine ⟨fed.input, nofun, nofun, fun _ _ sends => ?_⟩
    cases sends
    exact ⟨fed.forcing _ forces, cell⟩
  | push sends =>
    obtain ⟨isPushed, cell⟩ := fed.sending _ _ sends
    refine ⟨fun index less => ?_, nofun, fun _ forces => ?_, nofun⟩
    · rcases Nat.lt_succ_iff_lt_or_eq.mp less with before | rfl
      · exact fed.input index before
      · exact ⟨_, isPushed ▸ cell⟩
    · cases forces
      exact congrArg (· + 1) isPushed
  | _ => exact ⟨fed.input, fed.absent, fed.forcing, fed.sending⟩

/-- All that is left to do. -/
def rank (config : PoolConfig ι) (bound : ℕ) (pool : Pool ι β) : ℕ :=
  pool.producer.rank bound pool.pushed + 20 * pool.jobs.length +
    (∑ index ∈ Finset.range config.workerCount, (pool.worker index).rank) + 5 * pool.queue.length +
      pool.parent.rank config.workerCount

/-- The pool can go on. -/
def Advances (config : PoolConfig ι) (callback : ℕ → ι → Except Failure β) (bound : ℕ) (pool : Pool ι β) : Prop :=
  ∃ act next_, Own callback act pool ∧ Step config pool act next_ ∧ next_.rank config bound < pool.rank config bound

/-- A worker goes on, and has less to do with the queues. -/
theorem Advances.ofWorker (staffed : pool.Staffed config) {index : ℕ} {worker : Worker ι β}
    (present : pool.worker index ≠ .absent) (step : Step config pool act next_) (own : Own callback act pool)
    (moved : next_.worker = Function.update pool.worker index worker) (producer : next_.producer = pool.producer)
    (pushed : next_.pushed = pool.pushed) (parent : next_.parent = pool.parent)
    (lower : 20 * next_.jobs.length + worker.rank + 5 * next_.queue.length <
      20 * pool.jobs.length + (pool.worker index).rank + 5 * pool.queue.length) :
    pool.Advances config callback bound := by
  have sum := sum_update_add pool.worker Worker.rank (staffed.less present) worker
  refine ⟨act, next_, own, step, ?_⟩
  simp only [rank, moved, producer, pushed, parent]
  omega

/-- Only the parent and the queue of reports change. -/
theorem Advances.ofParent (step : Step config pool act next_) (own : Own callback act pool)
    (worker : next_.worker = pool.worker) (producer : next_.producer = pool.producer) (pushed : next_.pushed = pool.pushed)
    (jobs : next_.jobs = pool.jobs)
    (lower : 5 * next_.queue.length + next_.parent.rank config.workerCount <
      5 * pool.queue.length + pool.parent.rank config.workerCount) : pool.Advances config callback bound := by
  refine ⟨act, next_, own, step, ?_⟩
  simp only [rank, worker, producer, pushed, jobs]
  omega

/-- Only the producer changes. -/
theorem Advances.ofProducer (step : Step config pool act next_) (own : Own callback act pool)
    (worker : next_.worker = pool.worker) (queue : next_.queue = pool.queue) (parent : next_.parent = pool.parent)
    (lower : next_.producer.rank bound next_.pushed + 20 * next_.jobs.length <
      pool.producer.rank bound pool.pushed + 20 * pool.jobs.length) : pool.Advances config callback bound := by
  refine ⟨act, next_, own, step, ?_⟩
  simp only [rank, worker, queue, parent]
  omega

theorem Advances.ofForcing {index : ℕ} (forces : pool.producer = .forcing index) : pool.Advances config callback bound := by
  cases cell : config.input index with
  | nil => exact .ofProducer (.produceNil forces cell) trivial rfl rfl rfl (by simp only [forces, Producer.rank]; omega)
  | cons item =>
    exact .ofProducer (.produceCons forces cell) trivial rfl rfl rfl (by simp only [forces, Producer.rank]; omega)
  | failed error =>
    exact .ofProducer (.produceFailed forces cell) trivial rfl rfl rfl (by simp only [forces, Producer.rank]; omega)

/-- A worker for which there is no item waits for the producer, and there is room in the queue. -/
theorem Advances.ofEmpty (empty : pool.jobs = []) (present : pool.producer ≠ .absent) (open_ : pool.producer.gone = false)
    (less : pool.pushed < bound) : pool.Advances config callback bound := by
  cases producer : pool.producer with
  | absent => exact absurd producer present
  | forcing index => exact .ofForcing producer
  | sending index item =>
    have room : pool.jobs.length < config.queueCapacity := by
      rw [empty]
      exact Nat.lt_of_lt_of_le Nat.zero_lt_one (le_max_right _ _)
    refine .ofProducer (.push producer room) trivial rfl rfl rfl ?_
    simp only [producer, empty, Producer.rank, List.length_append, List.length_singleton, List.length_nil]
    omega
  | ended result =>
    rw [producer] at open_
    cases open_
  | published result =>
    rw [producer] at open_
    cases open_

/-- A worker that has not left its loop can go on, or the producer can, as long as the pool has not returned. -/
theorem Advances.ofBusy (staffed : pool.Staffed config) (producer : pool.producer ≠ .absent)
    (notReturned : ¬ pool.hasReturned) (less : pool.pushed < bound) {index : ℕ} (busy : (pool.worker index).gone = false) :
    pool.Advances config callback bound := by
  cases here : pool.worker index with
  | absent | ended | published =>
    rw [here] at busy
    cases busy
  | atSafepoint =>
    by_cases stops : pool.cancelled ∨ pool.expired = true
    · exact .ofWorker staffed (by rw [here]; rintro ⟨⟩) (.safepointStops here stops) trivial rfl rfl rfl rfl
        (by simp [here, Worker.rank, setWorker])
    · rw [not_or, Bool.not_eq_true] at stops
      exact .ofWorker staffed (by rw [here]; rintro ⟨⟩) (.safepointLive here stops.1 stops.2) trivial rfl rfl rfl rfl
        (by simp [here, Worker.rank, setWorker])
  | checking =>
    by_cases cancelled : pool.cancelled
    · exact .ofWorker staffed (by rw [here]; rintro ⟨⟩) (.checkCancelled here cancelled) trivial rfl rfl rfl rfl
        (by simp [here, Worker.rank, setWorker])
    · exact .ofWorker staffed (by rw [here]; rintro ⟨⟩) (.checkLive here cancelled) trivial rfl rfl rfl rfl
        (by simp [here, Worker.rank, setWorker])
  | receiving =>
    cases jobs : pool.jobs with
    | cons job jobs' =>
      refine .ofWorker staffed (by rw [here]; rintro ⟨⟩) (.take here jobs) trivial rfl rfl rfl rfl ?_
      simp only [here, jobs, Worker.rank, setWorker, List.length_cons]
      omega
    | nil =>
      cases open_ : pool.producer.gone with
      | true =>
        exact .ofWorker staffed (by rw [here]; rintro ⟨⟩) (.hangUp here jobs open_) trivial rfl rfl rfl rfl
          (by simp [here, Worker.rank, setWorker])
      | false => exact .ofEmpty jobs producer open_ less
  | holding job item =>
    by_cases cancelled : pool.cancelled
    · exact .ofWorker staffed (by rw [here]; rintro ⟨⟩) (.skip here cancelled) trivial rfl rfl rfl rfl
        (by simp [here, Worker.rank, setWorker])
    · exact .ofWorker staffed (by rw [here]; rintro ⟨⟩) (.begin here cancelled) trivial rfl rfl rfl rfl
        (by simp [here, Worker.rank, setWorker])
  | running job item =>
    exact .ofWorker staffed (by rw [here]; rintro ⟨⟩) (.finish (callback job item) here) ⟨job, item, here, rfl⟩ rfl rfl rfl rfl
      (by simp [here, Worker.rank, setWorker])
  | reporting report =>
    refine .ofWorker staffed (by rw [here]; rintro ⟨⟩) (.report here notReturned) trivial rfl rfl rfl rfl ?_
    simp only [here, Worker.rank, setWorker, List.length_append, List.length_singleton]
    split_ifs <;> simp only <;> omega
  | failed =>
    exact .ofWorker staffed (by rw [here]; rintro ⟨⟩) (.cancelSiblings here) trivial rfl rfl rfl rfl
      (by simp [here, Worker.rank, setWorker, cancel])

/-- What progress rests on. -/
structure Progressing (config : PoolConfig ι) (pool : Pool ι β) : Prop where
  staffed : pool.Staffed config
  collected : pool.Collected config
  manned : pool.Manned config
  fed : pool.Fed config

theorem Step.progressing (step : Step config pool act next_) (progressing : pool.Progressing config) :
    next_.Progressing config :=
  ⟨step.staffed progressing.staffed, step.collected progressing.staffed progressing.collected,
    step.manned progressing.manned, step.fed progressing.manned progressing.fed⟩

theorem initial_progressing (config : PoolConfig ι) (others : ℕ) (enclosing expired : Bool) :
    Progressing config (initial others enclosing expired : Pool ι β) :=
  ⟨initial_staffed config others enclosing expired, initial_collected config others enclosing expired,
    ⟨fun _ => .inl rfl, fun _ => rfl, nofun⟩, ⟨fun _ less => absurd less (Nat.not_lt_zero _), fun _ => rfl, nofun, nofun⟩⟩

theorem Progressing.advances (progressing : pool.Progressing config) :
    (pool.hasReturned ∨ bound ≤ pool.pushed) ∨ pool.Advances config callback bound := by
  obtain ⟨staffed, collected, manned, -⟩ := progressing
  by_cases less : pool.pushed < bound
  swap
  · exact .inl (.inr (not_lt.mp less))
  have producer : pool.parent ≠ .starting → pool.parent.undecided = true → pool.producer ≠ .absent := by
    intro later undecided isAbsent
    rcases manned.producer isAbsent with starts | decided
    · exact later starts
    · rw [undecided] at decided
      cases decided
  cases parent : pool.parent with
  | returned result => exact .inl (.inl ⟨result, parent⟩)
  | starting =>
    right
    by_cases enclosing : pool.enclosing = true
    · exact .ofParent (.startCancelled parent enclosing) trivial rfl rfl rfl rfl (by simp [parent, PoolParent.rank])
    rw [Bool.not_eq_true] at enclosing
    cases admitted : pool.acquireTask config with
    | error message =>
      exact .ofParent (.refuse (.inl parent) admitted) trivial rfl rfl rfl rfl
        (by simp [parent, PoolParent.rank, stop, cancel])
    | ok permits =>
      have isAbsent : pool.producer = .absent := manned.starting parent
      refine ⟨.start, _, trivial, .start parent enclosing admitted, ?_⟩
      simp only [rank, parent, isAbsent, Producer.rank, PoolParent.rank]
      omega
  | spawning index =>
    right
    obtain ⟨le, absent⟩ := staffed.spawning index parent
    rcases Nat.lt_or_eq_of_le le with more | rfl
    · cases admitted : pool.acquireTask config with
      | error message =>
        exact .ofParent (.refuse (.inr ⟨index, more, parent⟩) admitted) trivial rfl rfl rfl rfl
          (by simp [parent, PoolParent.rank, stop, cancel])
      | ok permits =>
        have sum := sum_update_add pool.worker Worker.rank more .atSafepoint
        rw [(absent index).mpr le_rfl] at sum
        refine ⟨.spawn, _, trivial, .spawn parent more admitted, ?_⟩
        simp only [rank, parent, setWorker, PoolParent.rank]
        simp only [Worker.rank] at sum ⊢
        omega
    · exact .ofParent (.release parent) trivial rfl rfl rfl rfl (by simp [parent, PoolParent.rank])
  | collecting values first checked =>
    right
    have live : pool.producer ≠ .absent := producer (by rw [parent]; rintro ⟨⟩) (by rw [parent]; rfl)
    cases checked with
    | false =>
      by_cases enclosing : pool.enclosing = true
      · exact .ofParent (.pollCancelled parent enclosing) trivial rfl rfl rfl rfl
          (by simp [parent, PoolParent.rank, stop, cancel])
      · rw [Bool.not_eq_true] at enclosing
        exact .ofParent (.pollLive parent enclosing) trivial rfl rfl rfl rfl (by simp [parent, PoolParent.rank])
    | true =>
      cases arrived : pool.queue with
      | cons report queue =>
        cases result : report.result with
        | ok value =>
          refine .ofParent (.receiveValue parent arrived result) trivial rfl rfl rfl rfl ?_
          simp [parent, arrived, PoolParent.rank]
          omega
        | error error =>
          refine .ofParent (.receiveError parent arrived result) trivial rfl rfl rfl rfl ?_
          simp [parent, arrived, PoolParent.rank]
          omega
      | nil =>
        by_cases gone : pool.workersGone config
        · cases first with
          | none =>
            exact .ofParent (.disconnect parent arrived gone) trivial rfl rfl rfl rfl (by simp [parent, PoolParent.rank])
          | some error =>
            exact .ofParent (.disconnectFailed parent arrived gone) trivial rfl rfl rfl rfl
              (by simp [parent, PoolParent.rank, stop, cancel])
        · obtain ⟨index, -, busy⟩ : ∃ index, index < config.workerCount ∧ (pool.worker index).gone = false := by
            simpa [workersGone] using gone
          refine .ofBusy staffed live ?_ less busy
          rintro ⟨_, returned⟩
          rw [parent] at returned
          cases returned
  | awaitingProducer values =>
    right
    have live : pool.producer ≠ .absent := producer (by rw [parent]; rintro ⟨⟩) (by rw [parent]; rfl)
    obtain ⟨-, -, gone⟩ := collected.awaiting values (.inl parent)
    have released := staffed.released (by rw [parent]; rfl)
    cases here : pool.producer with
    | absent => exact absurd here live
    | forcing index => exact .ofForcing here
    | sending index item =>
      exact .ofProducer (.sendDisconnected here (.inl released) gone) trivial rfl rfl rfl
        (by simp only [here, Producer.rank]; omega)
    | ended result =>
      exact .ofProducer (.publishProducer Timeout.emptyScope here) trivial rfl rfl rfl (by simp only [here, Producer.rank]; omega)
    | published result =>
      cases result with
      | ok count =>
        exact .ofParent (.awaitProducer parent here) trivial rfl rfl rfl rfl (by simp [parent, PoolParent.rank])
      | error error =>
        exact .ofParent (.awaitProducerFailed parent here) trivial rfl rfl rfl rfl
          (by simp [parent, PoolParent.rank, stop, cancel])
  | awaitingWorkers index count values =>
    right
    obtain ⟨-, -, gone⟩ := collected.awaiting values (.inr ⟨index, count, parent⟩)
    have released := staffed.released (by rw [parent]; rfl)
    rcases Nat.lt_or_eq_of_le (manned.asks index count values parent) with more | rfl
    · obtain ⟨isGone, present⟩ := staffed.finished released gone index more
      cases here : pool.worker index with
      | absent => exact absurd here present
      | ended result =>
        exact .ofWorker staffed present (.publish Timeout.emptyScope here) trivial rfl rfl rfl rfl
          (by simp [here, Worker.rank, setWorker])
      | published result =>
        cases result with
        | ok =>
          refine .ofParent (.awaitWorker parent more here) trivial rfl rfl rfl rfl ?_
          simp only [parent, PoolParent.rank]
          omega
        | error error =>
          refine .ofParent (.awaitWorkerFailed parent more here) trivial rfl rfl rfl rfl ?_
          simp only [parent, PoolParent.rank, stop, cancel]
          omega
      | atSafepoint | checking | receiving | holding | running | reporting | failed =>
        rw [here] at isGone
        cases isGone
    · exact .ofParent (.awaited parent) trivial rfl rfl rfl rfl (by simp [parent, PoolParent.rank, stop, cancel])
  | closing decision =>
    exact .inr (.ofParent (.close Timeout.emptyScope parent) trivial rfl rfl rfl rfl (by simp [parent, PoolParent.rank]))

/-- The acts of the pool lead on until it has returned or so many items are in the queue. -/
theorem Progressing.exists_end (progressing : pool.Progressing config) (callback : ℕ → ι → Except Failure β) (bound : ℕ) :
    ∃ last, Runs (Step config) (Own callback) pool last ∧ last.Progressing config ∧
      (last.hasReturned ∨ bound ≤ last.pushed) := by
  have ends : ∃ last, Runs (Step config) (Own callback) pool last ∧ (last.hasReturned ∨ bound ≤ last.pushed) := by
    refine Labelled.exists_end (rank config bound) (fun pool progressing => ?_) progressing
    have advances : (pool.hasReturned ∨ bound ≤ pool.pushed) ∨ pool.Advances config callback bound := progressing.advances
    refine advances.imp_right fun ⟨act, next_, own, step, lower⟩ => ?_
    exact ⟨act, next_, own, step, step.progressing progressing, lower⟩
  obtain ⟨last, runs, done⟩ := ends
  exact ⟨last, runs, runs.invariant (Progressing config) (fun _ _ _ progressing _ step => step.progressing progressing)
    progressing, done⟩

/-- Where the input ends, they lead to the return. -/
theorem Progressing.exists_return (progressing : pool.Progressing config) (callback : ℕ → ι → Except Failure β)
    {count : ℕ} (ends : ∀ item, config.input count ≠ .cons item) :
    ∃ last, Runs (Step config) (Own callback) pool last ∧ last.hasReturned := by
  obtain ⟨last, runs, progressing', done⟩ := progressing.exists_end callback (count + 1)
  refine ⟨last, runs, done.resolve_right fun enough => ?_⟩
  obtain ⟨item, cell⟩ := progressing'.fed.input count enough
  exact ends item cell

theorem Progressing.ofRuns {Fits : PoolAct β → Pool ι β → Prop} {others : ℕ} {enclosing expired : Bool}
    (runs : Runs (Step config) Fits (initial others enclosing expired) pool) : pool.Progressing config :=
  runs.invariant (Progressing config) (fun _ _ _ progressing _ step => step.progressing progressing)
    (initial_progressing config others enclosing expired)

theorem Sound.ofRuns {others : ℕ} {enclosing expired : Bool}
    (runs : Runs (Step config) (Fits config) (initial others enclosing expired) pool) : pool.Sound config :=
  runs.invariant (Sound config) (fun _ _ _ sound fits step => step.sound fits sound)
    (initial_sound config others enclosing expired)

/-- No limits. -/
def upstream : BudgetPolicy :=
  ⟨"upstream", ⟨.Unlimited, .Unlimited, .Unlimited, .Unlimited, .Unlimited, .Unlimited, .Unlimited, .Unlimited, .Unlimited,
    .Unlimited⟩⟩

def deterministicTest : BudgetPolicy :=
  ⟨"deterministic-test", ⟨.At 10000000, .At 10000000, .At 1000000, .At 1000000, .At (64 * 1024 * 1024), .At 2, .At 256,
    .At 64, .At 256, .At 256⟩⟩

/-- A pool of one worker for the empty list. -/
def idle : PoolConfig Unit := ⟨true, false, fun _ => .nil, upstream, 1⟩

/-- A pool for a list of one item, with a permit for each of the workers. -/
def crowded : PoolConfig Unit := ⟨true, false, fun index => if index = 0 then .cons () else .nil, deterministicTest, 1⟩

/-- The error that refuses a third task. -/
def overcrowded : Failure :=
  .mk (.resourceLimit "Tasks budget exceeded: configured=2, observed=3, operation=task spawn, profile=deterministic-test") []

/-- The producer and the first worker have taken the permits. -/
def refused (parent : PoolParent Unit) : Pool Unit Unit :=
  ⟨0, false, false, some .scopeClosed, .forcing 0, Function.update (fun _ => .absent) 0 .atSafepoint, false, [], [], parent, 0,
    [], [], []⟩

end Pool

end HellRs.Concurrency
