import Mathlib

/-! # Budget counters

The counters of a budget are shared by all evaluators. A thread adds to a counter with a loop of one load and any number
of compare-exchange attempts, each of them one step; a permit takes one off when it is dropped. The budget outlives its
permits here: a permit that is dropped later does nothing.
-/

namespace HellRs.Runtime

inductive BudgetKind where
  | EvaluatorSteps
  | Allocations
  | LiveThunks
  | MaterializedElements
  | CapturedBytes
  | Tasks
  | Handles
  | Processes
  | HttpConnections
  | TempResources
deriving DecidableEq, Repr

inductive Limit where
  | Unlimited
  | At (value : ℕ)
deriving DecidableEq, Repr

/-- The limits of a policy that a budget reads. -/
structure BudgetLimits where
  evaluatorSteps : Limit
  allocations : Limit
  liveThunks : Limit
  listMaterializedElements : Limit
  processCaptureBytes : Limit
  concurrentTasks : Limit
  openHandles : Limit
  childProcesses : Limit
  httpConnections : Limit
  tempResources : Limit
deriving DecidableEq, Repr

/-- `u64::MAX`. -/
def u64Max : ℕ := 2 ^ 64 - 1

/-- A limit of another unsigned type as a limit of 64 bits. -/
def Limit.toU64 : Limit → Limit
  | .Unlimited => .Unlimited
  | .At value => .At (min value u64Max)

namespace BudgetKind

/-- The counter only grows, and is charged. The others count permits. -/
def cumulative : BudgetKind → Bool
  | .EvaluatorSteps | .Allocations | .MaterializedElements | .CapturedBytes => true
  | _ => false

def name : BudgetKind → String
  | .EvaluatorSteps => "EvaluatorSteps"
  | .Allocations => "Allocations"
  | .LiveThunks => "LiveThunks"
  | .MaterializedElements => "MaterializedElements"
  | .CapturedBytes => "CapturedBytes"
  | .Tasks => "Tasks"
  | .Handles => "Handles"
  | .Processes => "Processes"
  | .HttpConnections => "HttpConnections"
  | .TempResources => "TempResources"

/-- The operation that an error names. -/
def operation : BudgetKind → String
  | .EvaluatorSteps => "evaluator transition"
  | .Allocations => "runtime allocation"
  | .LiveThunks => "thunk construction"
  | .MaterializedElements => "list materialization"
  | .CapturedBytes => "process output capture"
  | .Tasks => "task spawn"
  | .Handles => "handle open"
  | .Processes => "child process spawn"
  | .HttpConnections => "HTTP connection admission"
  | .TempResources => "temporary resource creation"

/-- The limit that `update` gets for a counter. -/
def limit (limits : BudgetLimits) : BudgetKind → Limit
  | .EvaluatorSteps => limits.evaluatorSteps
  | .Allocations => limits.allocations
  | .LiveThunks => limits.liveThunks
  | .MaterializedElements => limits.listMaterializedElements
  | .CapturedBytes => limits.processCaptureBytes
  | .Tasks => limits.concurrentTasks.toU64
  | .Handles => limits.openHandles.toU64
  | .Processes => limits.childProcesses.toU64
  | .HttpConnections => limits.httpConnections.toU64
  | .TempResources => limits.tempResources.toU64

end BudgetKind

/-- What a policy says to a budget. -/
structure BudgetPolicy where
  id : String
  limits : BudgetLimits
deriving DecidableEq, Repr

section Update

def Limit.show_ : Limit → String
  | .Unlimited => "Unlimited"
  | .At value => "At(" ++ toString value ++ ")"

def overflowed (policy : BudgetPolicy) (kind : BudgetKind) : String :=
  kind.name ++ " budget overflowed: configured=" ++ (kind.limit policy.limits).show_ ++
    ", observed=integer overflow, operation=" ++ kind.operation ++ ", profile=" ++ policy.id

def exceeded (policy : BudgetPolicy) (kind : BudgetKind) (maximum next_ : ℕ) : String :=
  kind.name ++ " budget exceeded: configured=" ++ toString maximum ++ ", observed=" ++ toString next_ ++
    ", operation=" ++ kind.operation ++ ", profile=" ++ policy.id

/-- The checks of `update` on the value that it has observed: the next value, or the message of the error. -/
def nextValue (policy : BudgetPolicy) (kind : BudgetKind) (amount current : ℕ) : Except String ℕ :=
  if u64Max < current + amount then .error (overflowed policy kind)
  else
    match kind.limit policy.limits with
    | .At maximum =>
        if maximum < current + amount then .error (exceeded policy kind maximum (current + amount))
        else .ok (current + amount)
    | .Unlimited => .ok (current + amount)

end Update

/-- A call of one of the charging or acquiring methods. -/
inductive BudgetCall where
  | charge (kind : BudgetKind) (amount : ℕ)
  | acquire (kind : BudgetKind)
deriving DecidableEq, Repr

namespace BudgetCall

def kind : BudgetCall → BudgetKind
  | charge kind _ => kind
  | acquire kind => kind

def amount : BudgetCall → ℕ
  | charge _ amount => amount
  | acquire _ => 1

/-- There is such a method. -/
def Offered : BudgetCall → Prop
  | charge kind _ => kind.cumulative = true
  | acquire kind => kind.cumulative = false

instance (call : BudgetCall) : Decidable call.Offered := by
  cases call <;> exact inferInstanceAs (Decidable (_ = _))

end BudgetCall

/-- A budget, its permits and the threads in the loop of `update`, with the value each has observed. -/
structure BudgetState where
  counter : BudgetKind → ℕ
  permits : List BudgetKind
  thread : ℕ → Option (BudgetCall × Option ℕ)

/-- What has happened to a counter. -/
inductive BudgetEvent where
  | charged (kind : BudgetKind) (amount : ℕ)
  | acquired (kind : BudgetKind)
  | refused (call : BudgetCall) (message : String)
  | dropped (kind : BudgetKind)
deriving DecidableEq, Repr

inductive BudgetAction where
  | call (thread : ℕ) (call : BudgetCall)
  | load (thread : ℕ)
  /-- A compare-exchange, which may fail for no reason. -/
  | attempt (thread : ℕ) (spurious : Bool)
  | drop (kind : BudgetKind)
deriving DecidableEq, Repr

namespace BudgetState

/-- `Budget::new`, used by no thread yet. -/
def new : BudgetState := ⟨fun _ => 0, [], fun _ => none⟩

def setCounter (state : BudgetState) (kind : BudgetKind) (value : ℕ) : BudgetState :=
  { state with counter := Function.update state.counter kind value }

def setThread (state : BudgetState) (thread : ℕ) (work : Option (BudgetCall × Option ℕ)) : BudgetState :=
  { state with thread := Function.update state.thread thread work }

/-- The call has stored its sum. -/
def finish (state : BudgetState) : BudgetCall → BudgetEvent × BudgetState
  | .charge kind amount => (.charged kind amount, state)
  | .acquire kind => (.acquired kind, { state with permits := kind :: state.permits })

/-- One turn of the loop of `update` with the value that the thread has observed. -/
def attempt (policy : BudgetPolicy) (state : BudgetState) (thread : ℕ) (call : BudgetCall) (current : ℕ)
    (spurious : Bool) : Option BudgetEvent × BudgetState :=
  match nextValue policy call.kind call.amount current with
  | .error message => (some (.refused call message), state.setThread thread none)
  | .ok next_ =>
      if state.counter call.kind = current ∧ !spurious then
        let (event, state) := ((state.setCounter call.kind next_).setThread thread none).finish call
        (some event, state)
      else (none, state.setThread thread (some (call, some (state.counter call.kind))))

/-- One step of a thread, or the end of a permit. -/
def act (policy : BudgetPolicy) (state : BudgetState) : BudgetAction → Option (Option BudgetEvent × BudgetState)
  | .call thread call =>
      if state.thread thread = none ∧ call.Offered then some (none, state.setThread thread (some (call, none)))
      else none
  | .load thread =>
      match state.thread thread with
      | some (call, none) => some (none, state.setThread thread (some (call, some (state.counter call.kind))))
      | _ => none
  | .attempt thread spurious =>
      match state.thread thread with
      | some (call, some current) => some (state.attempt policy thread call current spurious)
      | _ => none
  | .drop kind =>
      if kind ∈ state.permits then
        -- `fetch_sub` wraps.
        some (some (.dropped kind), { state.setCounter kind ((state.counter kind + u64Max) % (u64Max + 1)) with
          permits := state.permits.erase kind })
      else none

end BudgetState

/-- Any number of steps from a new budget, with what has happened. -/
inductive BudgetRun (policy : BudgetPolicy) : List BudgetEvent → BudgetState → Prop where
  | new : BudgetRun policy [] .new
  | act {log : List BudgetEvent} {state after : BudgetState} {event : Option BudgetEvent} (run : BudgetRun policy log state)
      (action : BudgetAction) (acts : state.act policy action = some (event, after)) :
      BudgetRun policy (log ++ event.toList) after

/-- The sum of the charges of a counter. -/
def chargedTotal (kind : BudgetKind) (log : List BudgetEvent) : ℕ :=
  (log.map fun event => match event with
    | .charged other amount => if other = kind then amount else 0
    | _ => 0).sum

theorem chargedTotal_append (kind : BudgetKind) (log rest : List BudgetEvent) :
    chargedTotal kind (log ++ rest) = chargedTotal kind log + chargedTotal kind rest := by
  simp [chargedTotal]

/-- The counters are within their limits and account for what has happened. -/
structure Accounted (policy : BudgetPolicy) (log : List BudgetEvent) (state : BudgetState) : Prop where
  word : ∀ kind, state.counter kind ≤ u64Max
  within : ∀ kind maximum, kind.limit policy.limits = .At maximum → state.counter kind ≤ maximum
  charged : ∀ kind, kind.cumulative = true → state.counter kind = chargedTotal kind log
  live : ∀ kind, kind.cumulative = false → state.counter kind = state.permits.count kind
  held : ∀ kind, state.permits.count kind + log.count (.dropped kind) = log.count (.acquired kind)
  permits : ∀ kind ∈ state.permits, kind.cumulative = false
  offered : ∀ thread work, state.thread thread = some work → work.1.Offered

/-- What a step does to the counters: it adds the amount of a success exactly, takes one permit off, or leaves all
counters as they were. -/
def BudgetEffect (before after : BudgetState) : Option BudgetEvent → Prop
  | none | some (.refused _ _) => after.counter = before.counter
  | some (.charged kind amount) => after.counter = Function.update before.counter kind (before.counter kind + amount)
  | some (.acquired kind) => after.counter = Function.update before.counter kind (before.counter kind + 1)
  | some (.dropped kind) => 0 < before.counter kind ∧
      after.counter = Function.update before.counter kind (before.counter kind - 1)

variable {policy : BudgetPolicy} {log : List BudgetEvent} {state after : BudgetState}

theorem nextValue_ok {kind : BudgetKind} {amount current next_ : ℕ}
    (found : nextValue policy kind amount current = .ok next_) :
    next_ = current + amount ∧ next_ ≤ u64Max ∧ ∀ maximum, kind.limit policy.limits = .At maximum → next_ ≤ maximum := by
  simp only [nextValue] at found
  split at found
  next => cases found
  next small =>
    split at found
    next maximum limited =>
      split at found
      next => cases found
      next within =>
        obtain rfl := Except.ok.inj found
        refine ⟨rfl, by omega, fun maximum' same => ?_⟩
        obtain rfl := Limit.At.inj (limited.symm.trans same)
        omega
    next unlimited =>
      obtain rfl := Except.ok.inj found
      exact ⟨rfl, by omega, fun maximum same => by rw [unlimited] at same; cases same⟩

theorem setThread_offered {thread : ℕ} {work : Option (BudgetCall × Option ℕ)}
    (offered : ∀ other work, state.thread other = some work → work.1.Offered)
    (new : ∀ call value, work = some (call, value) → call.Offered) :
    ∀ other work', (state.setThread thread work).thread other = some work' → work'.1.Offered := by
  intro other work' found
  simp only [BudgetState.setThread, Function.update_apply] at found
  split at found
  next => exact new work'.1 work'.2 found
  next => exact offered other work' found

/-- Steps that only change what a thread does. -/
theorem Accounted.setThread (accounted : Accounted policy log state) {thread : ℕ}
    {work : Option (BudgetCall × Option ℕ)} (new : ∀ call value, work = some (call, value) → call.Offered) :
    Accounted policy log (state.setThread thread work) :=
  ⟨accounted.word, accounted.within, accounted.charged, accounted.live, accounted.held, accounted.permits,
    setThread_offered accounted.offered new⟩

/-- A refusal is no entry of the books. -/
theorem Accounted.refused (accounted : Accounted policy log state) (call : BudgetCall) (message : String) :
    Accounted policy (log ++ [.refused call message]) state := by
  refine ⟨accounted.word, accounted.within, fun kind cumulative => ?_, accounted.live, fun kind => ?_, accounted.permits,
    accounted.offered⟩
  · rw [chargedTotal_append, accounted.charged kind cumulative]
    rfl
  · rw [List.count_append, List.count_append, List.count_singleton, List.count_singleton]
    exact accounted.held kind

/-- A new value within the bounds keeps all counters within theirs. -/
theorem Accounted.bounds (accounted : Accounted policy log state) {kind : BudgetKind} {value : ℕ} (word : value ≤ u64Max)
    (within : ∀ maximum, kind.limit policy.limits = .At maximum → value ≤ maximum) :
    (∀ other, (state.setCounter kind value).counter other ≤ u64Max) ∧
      ∀ other maximum, other.limit policy.limits = .At maximum → (state.setCounter kind value).counter other ≤ maximum := by
  refine ⟨fun other => ?_, fun other maximum limited => ?_⟩
  · simp only [BudgetState.setCounter, Function.update_apply]
    split
    next => exact word
    next => exact accounted.word other
  · simp only [BudgetState.setCounter, Function.update_apply]
    split
    next same => exact within maximum (same ▸ limited)
    next => exact accounted.within other maximum limited

/-- A counter of the other sort stays. -/
theorem counter_of_sort {kind other : BudgetKind} {value : ℕ} (sort : other.cumulative = !kind.cumulative) :
    (state.setCounter kind value).counter other = state.counter other := by
  have different : other ≠ kind := by
    rintro rfl
    simp at sort
  exact Function.update_of_ne different ..

/-- The compare-exchange of a charge. -/
theorem Accounted.charge (accounted : Accounted policy log state) {kind : BudgetKind} {amount next_ : ℕ}
    (cumulative : kind.cumulative = true) (found : nextValue policy kind amount (state.counter kind) = .ok next_) :
    Accounted policy (log ++ [.charged kind amount]) (state.setCounter kind next_) := by
  obtain ⟨rfl, word, within⟩ := nextValue_ok found
  obtain ⟨words, withins⟩ := accounted.bounds word within
  refine ⟨words, withins, fun other isCharged => ?_, fun other isLive => ?_, fun other => ?_, accounted.permits, accounted.offered⟩
  · rw [chargedTotal_append]
    simp only [BudgetState.setCounter, Function.update_apply]
    split
    next same =>
      subst same
      rw [accounted.charged other isCharged]
      simp [chargedTotal]
    next different =>
      rw [accounted.charged other isCharged]
      simp [chargedTotal, Ne.symm different]
  · rw [counter_of_sort (by rw [isLive, cumulative]; rfl)]
    exact accounted.live other isLive
  · rw [List.count_append, List.count_append, List.count_singleton, List.count_singleton]
    exact accounted.held other

/-- The compare-exchange of an acquisition, with the new permit. -/
theorem Accounted.acquire (accounted : Accounted policy log state) {kind : BudgetKind} {next_ : ℕ}
    (isPermit : kind.cumulative = false) (found : nextValue policy kind 1 (state.counter kind) = .ok next_) :
    Accounted policy (log ++ [.acquired kind]) { state.setCounter kind next_ with permits := kind :: state.permits } := by
  obtain ⟨rfl, word, within⟩ := nextValue_ok found
  obtain ⟨words, withins⟩ := accounted.bounds word within
  refine ⟨words, withins, fun other isCharged => ?_, fun other isLive => ?_, fun other => ?_, fun other member => ?_,
    accounted.offered⟩
  · rw [chargedTotal_append, counter_of_sort (by rw [isCharged, isPermit]; rfl)]
    exact accounted.charged other isCharged
  · simp only [BudgetState.setCounter, Function.update_apply, List.count_cons, beq_iff_eq]
    split
    next same => rw [same, accounted.live kind isPermit, if_pos rfl]
    next different => rw [if_neg (Ne.symm different), Nat.add_zero, accounted.live other isLive]
  · have before := accounted.held other
    simp only [List.count_append, List.count_cons, List.count_nil, beq_iff_eq, BudgetEvent.acquired.injEq, reduceCtorEq,
      if_false, Nat.add_zero, Nat.zero_add, ← before]
    exact Nat.add_right_comm ..
  · rcases List.mem_cons.mp member with rfl | old
    · exact isPermit
    · exact accounted.permits other old

/-- The end of a permit. -/
theorem Accounted.drop (accounted : Accounted policy log state) {kind : BudgetKind} (member : kind ∈ state.permits) :
    0 < state.counter kind ∧ Accounted policy (log ++ [.dropped kind])
      { state.setCounter kind (state.counter kind - 1) with permits := state.permits.erase kind } := by
  have isPermit := accounted.permits kind member
  have counted := accounted.live kind isPermit
  have some_ : 0 < state.permits.count kind := List.count_pos_iff.mpr member
  obtain ⟨words, withins⟩ := accounted.bounds (Nat.le_trans (Nat.sub_le _ 1) (accounted.word kind)) fun maximum limited =>
    Nat.le_trans (Nat.sub_le _ 1) (accounted.within kind maximum limited)
  refine ⟨counted ▸ some_, words, withins, fun other isCharged => ?_, fun other isLive => ?_, fun other => ?_,
    fun other member => accounted.permits other (List.mem_of_mem_erase member), accounted.offered⟩
  · rw [chargedTotal_append, counter_of_sort (by rw [isCharged, isPermit]; rfl)]
    exact accounted.charged other isCharged
  · simp only [BudgetState.setCounter, Function.update_apply]
    split
    next same => rw [same, List.count_erase_self, counted]
    next different => rw [List.count_erase_of_ne different, accounted.live other isLive]
  · have before := accounted.held other
    simp only [List.count_append, List.count_cons, List.count_nil, beq_iff_eq, BudgetEvent.dropped.injEq, reduceCtorEq,
      if_false, Nat.add_zero, Nat.zero_add]
    by_cases same : other = kind
    · subst same
      rw [List.count_erase_self, if_pos rfl]
      omega
    · rw [List.count_erase_of_ne same, if_neg (Ne.symm same), Nat.add_zero]
      exact before

/-- The wrapping subtraction of a positive counter. -/
theorem wrappingPred {value : ℕ} (positive : 0 < value) (word : value ≤ u64Max) :
    (value + u64Max) % (u64Max + 1) = value - 1 := by
  rw [show value + u64Max = value - 1 + (u64Max + 1) by omega, Nat.add_mod_right, Nat.mod_eq_of_lt (by omega)]

/-- Every step keeps the books, and does to the counters what its event says. -/
theorem Accounted.act (accounted : Accounted policy log state) {action : BudgetAction} {event : Option BudgetEvent}
    (acts : state.act policy action = some (event, after)) :
    BudgetEffect state after event ∧ Accounted policy (log ++ event.toList) after := by
  cases action with
  | call thread call =>
    simp only [BudgetState.act] at acts
    split at acts
    next idle =>
      obtain ⟨rfl, rfl⟩ := Prod.mk.inj (Option.some.inj acts)
      refine ⟨rfl, ?_⟩
      rw [Option.toList_none, List.append_nil]
      refine accounted.setThread fun call' value same => ?_
      obtain ⟨rfl, -⟩ := Prod.mk.inj (Option.some.inj same)
      exact idle.2
    next => cases acts
  | load thread =>
    simp only [BudgetState.act] at acts
    split at acts
    next call working =>
      obtain ⟨rfl, rfl⟩ := Prod.mk.inj (Option.some.inj acts)
      refine ⟨rfl, ?_⟩
      rw [Option.toList_none, List.append_nil]
      refine accounted.setThread fun call' value same => ?_
      obtain ⟨rfl, -⟩ := Prod.mk.inj (Option.some.inj same)
      exact accounted.offered thread _ working
    next => cases acts
  | attempt thread spurious =>
    simp only [BudgetState.act] at acts
    split at acts
    next call current working =>
      have offered := accounted.offered thread _ working
      obtain ⟨rfl, rfl⟩ := Prod.mk.inj (Option.some.inj acts)
      split
      next message refused =>
        exact ⟨rfl, (accounted.refused call message).setThread nofun⟩
      next next_ found =>
        split
        next stores =>
          rw [← stores.1] at found
          cases call with
          | charge kind amount =>
            obtain ⟨rfl, -, -⟩ := nextValue_ok found
            exact ⟨rfl, (accounted.charge offered found).setThread nofun⟩
          | acquire kind =>
            obtain ⟨rfl, -, -⟩ := nextValue_ok found
            exact ⟨rfl, (accounted.acquire offered found).setThread nofun⟩
        next =>
          refine ⟨rfl, ?_⟩
          rw [Option.toList_none, List.append_nil]
          refine accounted.setThread fun call' value same => ?_
          obtain ⟨rfl, -⟩ := Prod.mk.inj (Option.some.inj same)
          exact offered
    next => cases acts
  | drop kind =>
    simp only [BudgetState.act] at acts
    split at acts
    next member =>
      obtain ⟨rfl, rfl⟩ := Prod.mk.inj (Option.some.inj acts)
      obtain ⟨positive, dropped⟩ := accounted.drop member
      rw [wrappingPred positive (accounted.word kind)]
      exact ⟨⟨positive, rfl⟩, dropped⟩
    next => cases acts

theorem accounted_new : Accounted policy [] .new :=
  ⟨fun _ => Nat.zero_le _, fun _ _ _ => Nat.zero_le _, fun _ _ => rfl, fun _ _ => rfl, fun _ => rfl, nofun, nofun⟩

theorem BudgetRun.accounted (run : BudgetRun policy log state) : Accounted policy log state := by
  induction run with
  | new => exact accounted_new
  | act _ _ acts ih => exact (ih.act acts).2

/-- In every run of any number of threads the counters stay within their limits, the cumulative ones are the sums of
the successful charges, the others count the permits that are acquired and not dropped, and no step wraps or leaves a
trace of a failure. -/
theorem budget_counters_exact (run : BudgetRun policy log state) :
    (∀ kind, state.counter kind ≤ u64Max ∧
      (∀ maximum, kind.limit policy.limits = .At maximum → state.counter kind ≤ maximum) ∧
      (kind.cumulative = true → state.counter kind = chargedTotal kind log) ∧
      (kind.cumulative = false → state.counter kind = state.permits.count kind ∧
        state.counter kind + log.count (.dropped kind) = log.count (.acquired kind))) ∧
    ∀ action event after, state.act policy action = some (event, after) → BudgetEffect state after event := by
  have accounted := run.accounted
  refine ⟨fun kind => ⟨accounted.word kind, accounted.within kind, accounted.charged kind, fun isPermit => ?_⟩,
    fun action event after acts => (accounted.act acts).1⟩
  have counted := accounted.live kind isPermit
  exact ⟨counted, counted ▸ accounted.held kind⟩

/-- One handle and one process, and no other limits. -/
def oneHandle : BudgetPolicy :=
  ⟨"one-handle", ⟨.Unlimited, .Unlimited, .Unlimited, .Unlimited, .Unlimited, .Unlimited, .At 1, .At 1, .Unlimited, .Unlimited⟩⟩

/-- Two threads have both observed that no handle is open, and one of them has got the handle. -/
theorem oneHandle_run : ∃ state, BudgetRun oneHandle [.acquired .Handles] state ∧ state.counter .Handles = 1 := by
  have called := BudgetRun.act (.act (@BudgetRun.new oneHandle) (.call 0 (.acquire .Handles)) rfl)
    (.call 1 (.acquire .Handles)) rfl
  have loaded := BudgetRun.act (.act called (.load 0) rfl) (.load 1) rfl
  exact ⟨_, .act loaded (.attempt 1 false) rfl, rfl⟩

theorem budget_counters_exact_oneHandle : ∃ state, BudgetRun oneHandle [.acquired .Handles] state ∧
    ∀ action event after, state.act oneHandle action = some (event, after) → BudgetEffect state after event := by
  obtain ⟨state, run, -⟩ := oneHandle_run
  exact ⟨state, run, (budget_counters_exact run).2⟩

end HellRs.Runtime
