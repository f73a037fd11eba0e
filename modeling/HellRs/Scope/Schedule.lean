import HellRs.Scope.Cancellation

/-! # Cancellation over whole runs

A run never ends: it may always create another token. In a run whose actions are all orderly, what a
reading or a wait has reported holds at every later moment, and a thread that sleeps on a token that a
cancellation has reached wakes before the call that has it on its list returns.
-/

namespace HellRs.Scope

open Chase TokenSystem

structure TokenSystem.Initial (system : TokenSystem) : Prop where
  tokens : system.tokens = []
  threads : ∀ program ∈ system.threads, program = .idle

/-- A run of any number of threads, from no tokens at all. -/
structure Schedule (states : ℕ → TokenSystem) (actions : ℕ → TokenAction) : Prop where
  start : (states 0).Initial
  next : ∀ moment, (states moment).act (actions moment) = some (states (moment + 1))

/-- The thread is in no call. -/
def TokenSystem.Rests (system : TokenSystem) (thread : ThreadId) : Prop :=
  ∃ program, system.threads[thread]? = some program ∧ program.resting

/-- What one thread does between two moments, in one call. -/
structure Call (states : ℕ → TokenSystem) (thread : ThreadId) (first last : ℕ)
    (begun ended : Program) : Prop where
  order : first ≤ last
  begins : (states first).threads[thread]? = some begun
  ends : (states last).threads[thread]? = some ended
  busy : ∀ moment, first ≤ moment → moment < last → ¬(states moment).Rests thread

namespace TokenSystem

variable {system next : TokenSystem} {thread worker : ThreadId} {token other : TokenId}
  {reason reason' : CancelReason} {action : TokenAction}

/-- The action sets the reason of the token. -/
def Cancels (system : TokenSystem) (action : TokenAction) (worker : ThreadId) (token : TokenId)
    (reason : CancelReason) : Prop :=
  ∃ expired, action = .step worker expired ∧
    system.threads[worker]? = some (.cancel token reason) ∧ system.reason token = none

/-- Some thread has been told that the token is cancelled. -/
def Told (system : TokenSystem) (token : TokenId) : Prop :=
  (∃ reason, .observed token (some reason) ∈ system.threads) ∨ .waited token true ∈ system.threads

theorem Initial.sound (initial : system.Initial) : system.Sound := by
  obtain ⟨tokens, threads⟩ := system
  obtain ⟨rfl, idle⟩ := initial
  refine ⟨nofun, ?_, ?_, nofun, ?_, ?_, ?_⟩
  · intro program member _ token borrows
    obtain rfl := idle program member
    cases borrows
  · intro token member
    cases idle _ member
  · intro path member
    cases idle _ member
  · intro token path stage member
    cases idle _ member
  · intro token member
    cases idle _ member

section Reasons

theorem ReasonIs.reached (isReason : system.ReasonIs token reason) : system.Reached token := by
  rcases isReason with own | ⟨_, _, reached⟩
  · exact ⟨token, .refl _, by rw [own]; rfl⟩
  · exact reached

theorem ReasonIs.unique (first : system.ReasonIs token reason) (second : system.ReasonIs token reason') :
    reason = reason' := by
  rcases first with own | ⟨none, rfl, _⟩
  · rcases second with own' | ⟨none, _, _⟩
    · exact Option.some.inj (own.symm.trans own')
    · cases own.symm.trans none
  · rcases second with own | ⟨_, rfl, _⟩
    · cases none.symm.trans own
    · rfl

theorem Reached.lt_length (reached : system.Reached token) : token < system.tokens.length := by
  obtain ⟨ancestor, leads, isSet⟩ := reached
  rcases leads.cases_head with rfl | ⟨parent, isParent, _⟩
  · obtain ⟨reason, isReason⟩ := Option.isSome_iff_exists.mp isSet
    rw [TokenSystem.reason] at isReason
    by_contra beyond
    simp [List.getElem?_eq_none (not_lt.mp beyond)] at isReason
  · exact lt_length_of_parent isParent

theorem Moves.reached (sound : system.Sound) (moves : Moves system action next)
    (reached : system.Reached token) : next.Reached token :=
  (moves.extends sound).reached sound.inside reached.lt_length.ne reached

/-- A reason is set by the call that cancels the token. -/
theorem Moves.cancels (moves : Moves system action next) (fresh : system.reason token = none)
    (isReason : next.reason token = some reason) (sound : system.Sound) :
    ∃ worker, system.Cancels action worker token reason := by
  rcases moves.reason with same | ⟨thread, expired, cancelled, given, isStep, here, _, unset, rfl⟩
  · rw [same token reason isReason] at fresh
    cases fresh
  · have set := reason_set given token (sound.held here nofun rfl)
    have isSet : (if token = cancelled then some given else system.reason token) = some reason :=
      set.symm.trans isReason
    split_ifs at isSet with same
    · subst same
      cases isSet
      exact ⟨thread, expired, isStep, here, unset⟩
    · rw [fresh] at isSet
      cases isSet

/-- What `reason` reports does not change. -/
theorem Moves.reasonIs (sound : system.Sound) (orderly : Orderly system action)
    (moves : Moves system action next) (isReason : system.ReasonIs token reason) :
    next.ReasonIs token reason := by
  rcases isReason with own | ⟨none, rfl, reached⟩
  · exact .inl ((moves.extends sound).reason token reason own)
  · cases later : next.reason token with
    | none => exact .inr ⟨later, rfl, moves.reached sound reached⟩
    | some given =>
      obtain ⟨worker, expired, isStep, here, fresh⟩ := moves.cancels none later sound
      rcases orderly.first worker expired token given isStep here fresh with rfl | untouched
      · exact .inl later
      · exact absurd reached untouched

end Reasons

section Reports

/-- A reading that ends with a reason has found one. -/
theorem read_found {path : List TokenId} (reads : system.read path = .inl (some reason)) :
    ∃ current rest found, path = current :: rest ∧ system.reason current = some found ∧
      reason = if rest = [] then found else .parentCancelled := by
  cases path with
  | nil => cases reads
  | cons current rest =>
    simp only [read] at reads
    split at reads
    next found isReason => cases reads; exact ⟨current, rest, found, rfl, isReason, rfl⟩
    next => split at reads <;> cases reads

/-- A reading that is over has found what `ReasonIs` says. -/
theorem Walk.reasonIs {path : List TokenId} (walk : Walk system.parent token path)
    (reads : system.read path = .inl (some reason))
    (unset : ∀ current rest, path = current :: rest → rest.getLast? = some token →
      (system.reason current).isSome → system.reason token = none ∨ system.reason token = some .parentCancelled) :
    system.ReasonIs token reason := by
  obtain ⟨current, rest, found, rfl, isReason, rfl⟩ := read_found reads
  have isSet : (system.reason current).isSome := by rw [isReason]; rfl
  cases rest with
  | nil =>
    obtain rfl : current = token := by simpa using walk.origin
    exact .inl isReason
  | cons before rest =>
    have origin : (before :: rest).getLast? = some token := by
      rw [← walk.origin, List.getLast?_cons_cons]
    rcases unset current _ rfl origin isSet with none | own
    · exact .inr ⟨none, rfl, current, walk.leads current rfl, isSet⟩
    · exact .inl own

theorem Walk.reached {path : List TokenId} (walk : Walk system.parent token path)
    (reads : system.read path = .inl (some reason)) : system.Reached token := by
  obtain ⟨current, rest, found, rfl, isReason, _⟩ := read_found reads
  exact ⟨current, walk.leads current rfl, by rw [isReason]; rfl⟩

/-- What the calls that are over have reported. -/
structure Reports (system : TokenSystem) : Prop where
  observed : ∀ token reason, .observed token (some reason) ∈ system.threads →
    system.ReasonIs token reason
  waited : ∀ token, .waited token true ∈ system.threads → system.Reached token

theorem Moves.observed (sound : system.Sound) (orderly : Orderly system action)
    (moves : Moves system action next)
    (reports : ∀ token reason, .observed token (some reason) ∈ system.threads →
      system.ReasonIs token reason)
    (member : .observed token (some reason) ∈ next.threads) : next.ReasonIs token reason := by
  have old (member : .observed token (some reason) ∈ system.threads) : next.ReasonIs token reason :=
    moves.reasonIs sound orderly (reports token reason member)
  cases moves with
  | create | clone | child => exact old member
  | drop thread other before after here resting free ends =>
    rcases mem_become member with same | member
    · rcases ends with rfl | ⟨rfl, _⟩ <;> cases same
    · exact old member
  | start thread other before after action here resting held begins =>
    rcases mem_become member with same | member
    · cases begins <;> cases same
    · exact old member
  | observe thread expired path after here result =>
    rcases mem_become member with same | member
    · rcases result with ⟨path', _, rfl⟩ | ⟨result, reads, rfl⟩
      · cases same
      · obtain ⟨isOrigin, rfl⟩ : token = path.getLast?.getD 0 ∧ some reason = result := by
          simpa using same
        obtain ⟨origin, walk, held⟩ := sound.observed (List.mem_of_getElem? here)
        rw [walk.origin] at isOrigin
        obtain rfl : token = origin := isOrigin
        have isReason : system.ReasonIs token reason := Walk.reasonIs walk reads (by
          rintro current rest rfl origin isSet
          exact orderly.reads thread expired current rest token rfl here origin isSet)
        exact isReason
    · exact old member
  | check thread expired other path stage after here result =>
    rcases mem_become member with same | member
    · rcases result with ⟨path', _, rfl⟩ | ⟨result, _, rfl⟩
      · cases same
      · cases stage <;> cases isResult : result.isSome <;> cases expired <;>
          simp [checked, isResult] at same
    · exact old member
  | cancel | notify =>
    rcases mem_become member with same | member
    · cases same
    · rcases mem_notifyAll member with ⟨same, _⟩ | ⟨member, _⟩
      · cases same
      · exact old member
  | lock | wake | late | notified | gather | release | detach | detached =>
    rcases mem_become member with same | member
    · cases same
    · exact old member

theorem Moves.waited (sound : system.Sound) (moves : Moves system action next)
    (reports : ∀ token, .waited token true ∈ system.threads → system.Reached token)
    (member : .waited token true ∈ next.threads) : next.Reached token := by
  have old (member : .waited token true ∈ system.threads) : next.Reached token :=
    moves.reached sound (reports token member)
  cases moves with
  | create | clone | child => exact old member
  | drop thread other before after here resting free ends =>
    rcases mem_become member with same | member
    · rcases ends with rfl | ⟨rfl, _⟩ <;> cases same
    · exact old member
  | start thread other before after action here resting held begins =>
    rcases mem_become member with same | member
    · cases begins <;> cases same
    · exact old member
  | observe thread expired path after here result =>
    rcases mem_become member with same | member
    · rcases result with ⟨path', _, rfl⟩ | ⟨result, _, rfl⟩ <;> cases same
    · exact old member
  | check thread expired other path stage after here result =>
    rcases mem_become member with same | member
    · rcases result with ⟨path', _, rfl⟩ | ⟨result, reads, rfl⟩
      · cases same
      · obtain ⟨rfl, reason, rfl⟩ : other = token ∧ ∃ reason, result = some reason := by
          cases stage <;> cases result <;> cases expired <;> simp_all [checked]
        have walk := (sound.checking other path stage (List.mem_of_getElem? here)).1
        have reached : system.Reached other := Walk.reached walk reads
        exact reached
    · exact old member
  | cancel | notify =>
    rcases mem_become member with same | member
    · cases same
    · rcases mem_notifyAll member with ⟨same, _⟩ | ⟨member, _⟩
      · cases same
      · exact old member
  | lock | wake | late | notified | gather | release | detach | detached =>
    rcases mem_become member with same | member
    · cases same
    · exact old member

end Reports

section Heeding

/-- A reading or a wait that will find the cancellation of the token, or has. -/
def Heeds (system : TokenSystem) (token : TokenId) : Program → Prop
  | .observe path => path.getLast? = some token ∧ ∃ current ∈ path.head?, system.Reached current
  | .observed other result => other = token ∧ result.isSome = true
  | .lock other => other = token
  | .woken other => other = token
  | .check other path _ => other = token ∧ ∃ current ∈ path.head?, system.Reached current
  | .waited other result => other = token ∧ result = true
  | _ => False

theorem Heeds.mono {program : Program} (heeds : system.Heeds token program)
    (grows : ∀ other, system.Reached other → next.Reached other) : next.Heeds token program := by
  cases program with
  | observe path =>
    obtain ⟨origin, current, first, reached⟩ := heeds
    exact ⟨origin, current, first, grows current reached⟩
  | check other path stage =>
    obtain ⟨same, current, first, reached⟩ := heeds
    exact ⟨same, current, first, grows current reached⟩
  | _ => exact heeds

theorem get_notifyAll_awake {program : Program} (awake : ∀ other, program ≠ .asleep other)
    (here : system.threads[thread]? = some program) :
    (system.notifyAll other).threads[thread]? = some program := by
  rw [notifyAll, List.getElem?_map, here]
  cases program with
  | asleep sleeping => cases awake sleeping rfl
  | _ => rfl

/-- A walk on the way to a reason does not end without one. -/
theorem Sound.read_some (sound : system.Sound) {path : List TokenId} {result : Option CancelReason}
    (reads : system.read path = .inl result) (towards : ∃ current ∈ path.head?, system.Reached current)
    (held : ∀ current ∈ path.head?, 0 < system.handles current) : ∃ reason, result = some reason := by
  obtain ⟨current, first, reached⟩ := towards
  obtain ⟨rest, rfl⟩ := List.head?_eq_some_iff.mp first
  cases result with
  | some reason => exact ⟨reason, rfl⟩
  | none => exact absurd reached (sound.read_none reads (held current first))

/-- One step of a thread that heeds the cancellation of a token. -/
theorem Moves.heeds_step (sound : system.Sound) {expired : Bool} {program : Program}
    (moves : Moves system (.step thread expired) next) (reached : system.Reached token)
    (here : system.threads[thread]? = some program) (heeds : system.Heeds token program) :
    ∃ after, next.threads[thread]? = some after ∧ next.Heeds token after := by
  have member := List.mem_of_getElem? here
  have grows : next.Reached token := moves.reached sound reached
  cases moves with
  | start _ _ _ _ _ _ _ _ begins => cases begins
  | observe _ _ path after here' result =>
    cases here.symm.trans here'
    refine ⟨after, get_become_self here _, ?_⟩
    obtain ⟨origin, towards⟩ := heeds
    rcases result with ⟨path', reads, rfl⟩ | ⟨result, reads, rfl⟩
    · have towards' : ∃ current ∈ path'.head?, system.Reached current := read_towards reads towards
      refine ⟨?_, towards'⟩
      obtain ⟨current, rest, parent, rfl, rfl, _, _⟩ := read_walks reads
      rw [List.getLast?_cons_cons]
      exact origin
    · obtain ⟨first, walk, held⟩ := sound.observed member
      obtain ⟨reason, rfl⟩ := sound.read_some reads towards
        fun current isFirst => sound.heldAbove (walk.leads current isFirst) held
      exact ⟨by rw [origin]; rfl, rfl⟩
  | check _ _ other path stage after here' result =>
    cases here.symm.trans here'
    refine ⟨after, get_become_self here _, ?_⟩
    obtain ⟨rfl, towards⟩ := heeds
    rcases result with ⟨path', reads, rfl⟩ | ⟨result, reads, rfl⟩
    · have towards' : ∃ current ∈ path'.head?, system.Reached current := read_towards reads towards
      exact ⟨rfl, towards'⟩
    · have walk := (sound.checking other path stage member).1
      have held := sound.borrowed _ member nofun other rfl
      obtain ⟨reason, rfl⟩ := sound.read_some reads towards
        fun current isFirst => sound.heldAbove (walk.leads current isFirst) held
      cases stage with
      | first => exact ⟨rfl, rfl⟩
      | loop => exact ⟨rfl, other, rfl, grows⟩
      | last => exact ⟨rfl, rfl⟩
  | lock _ _ other before stage here' waits =>
    cases here.symm.trans here'
    refine ⟨_, get_become_self here _, ?_⟩
    obtain rfl : other = token := by
      rcases waits with ⟨rfl, _⟩ | ⟨rfl, _⟩ <;> exact heeds
    exact ⟨rfl, other, rfl, grows⟩
  | wake _ _ _ here' | late _ _ _ _ here' | cancel _ _ _ _ here' | notified _ _ here'
  | notify _ _ _ _ here' | gather _ _ _ _ here' | release _ _ _ _ here' | detach _ _ _ _ here'
  | detached _ _ _ here' =>
    cases here.symm.trans here'
    cases heeds

theorem Moves.heeds (sound : system.Sound) {program : Program} (moves : Moves system action next)
    (reached : system.Reached token) (here : system.threads[thread]? = some program)
    (busy : ¬program.resting) (heeds : system.Heeds token program) :
    ∃ after, next.threads[thread]? = some after ∧ next.Heeds token after := by
  have kept : next.Heeds token program := heeds.mono fun other reached => moves.reached sound reached
  by_cases own : ∃ expired, action = .step thread expired
  · obtain ⟨expired, rfl⟩ := own
    exact moves.heeds_step sound reached here heeds
  · refine ⟨program, ?_, kept⟩
    cases moves with
    | create | clone | child => exact here
    | drop mover other before after here' resting | start mover other before after action here' resting =>
      have other : mover ≠ thread := by
        rintro rfl
        cases here.symm.trans here'
        exact busy resting
      exact (get_become other after).trans here
    | cancel mover expired | notify mover expired =>
      have other : mover ≠ thread := by
        rintro rfl
        exact own ⟨expired, rfl⟩
      refine (get_become other _).trans (get_notifyAll_awake ?_ here)
      rintro sleeping rfl
      cases heeds
    | observe mover expired | check mover expired | lock mover expired | wake mover expired
    | late mover expired | notified mover expired | gather mover expired | release mover expired
    | detach mover expired | detached mover expired =>
      have other : mover ≠ thread := by
        rintro rfl
        exact own ⟨expired, rfl⟩
      exact (get_become other _).trans here

end Heeding

section Sleeping

/-- A sleeping thread sleeps on or is woken. -/
theorem Moves.sleeper (moves : Moves system action next)
    (here : system.threads[thread]? = some (.asleep token)) :
    next.threads[thread]? = some (.asleep token) ∨ next.threads[thread]? = some (.woken token) := by
  have notified (other : TokenId) : (system.notifyAll other).threads[thread]? = some (.asleep token) ∨
      (system.notifyAll other).threads[thread]? = some (.woken token) := by
    rw [notifyAll, List.getElem?_map, here]
    by_cases same : token = other
    · exact .inr (by simp [Program.notified, same])
    · exact .inl (by simp [Program.notified, same])
  cases moves with
  | create | clone | child => exact .inl here
  | drop mover other before after here' resting | start mover other before after action here' resting =>
    have other : mover ≠ thread := by
      rintro rfl
      cases here.symm.trans here'
      cases resting
    exact .inl ((get_become other after).trans here)
  | wake mover expired other here' =>
    by_cases same : mover = thread
    · subst same
      cases here.symm.trans here'
      exact .inr (get_become_self here _)
    · exact .inl ((get_become same _).trans here)
  | lock mover expired other before stage here' waits =>
    have other : mover ≠ thread := by
      rintro rfl
      cases here.symm.trans here'
      rcases waits with ⟨⟨⟩, _⟩ | ⟨⟨⟩, _⟩
    exact .inl ((get_become other _).trans here)
  | cancel mover expired other reason here' | notify mover expired other rest here' =>
    have differs : mover ≠ thread := by
      rintro rfl
      cases here.symm.trans here'
    rw [get_become differs]
    exact notified other
  | observe mover _ _ _ here' | check mover _ _ _ _ _ here' | late mover _ _ _ here'
  | notified mover _ here' | gather mover _ _ _ here' | release mover _ _ _ here'
  | detach mover _ _ _ here' | detached mover _ _ here' =>
    have other : mover ≠ thread := by
      rintro rfl
      cases here.symm.trans here'
    exact .inl ((get_become other _).trans here)

/-- What the call does that sets the reason of a token. -/
theorem Moves.sets (sound : system.Sound) (moves : Moves system action next)
    (cancels : system.Cancels action worker token reason) :
    next.reason token = some reason ∧
      (∀ other, Leads system.parent other token → other ≠ token → next.CoveredBy worker other) ∧
      .asleep token ∉ next.threads := by
  obtain ⟨expired, rfl, here, fresh⟩ := cancels
  cases moves with
  | start _ _ _ _ _ _ _ _ begins => cases begins
  | cancel _ _ other given here' unlocked _ =>
    cases here.symm.trans here'
    refine ⟨?_, fun other leads differs => coveredBy_cancel token here leads differs, fun slept => ?_⟩
    · have set := reason_set reason token (sound.held here nofun rfl)
      rw [if_pos rfl] at set
      exact set
    · rcases mem_become slept with same | slept
      · cases same
      · rcases mem_notifyAll slept with ⟨same, _⟩ | ⟨_, awake⟩
        · cases same
        · exact awake rfl
  | late _ _ _ _ here' already =>
    cases here.symm.trans here'
    rw [fresh] at already
    cases already
  | lock _ _ _ _ _ here' waits =>
    cases here.symm.trans here'
    rcases waits with waits | waits
    · cases waits.1
    · cases waits.1
  | observe _ _ _ _ here' | check _ _ _ _ _ _ here' | wake _ _ _ here' | notified _ _ here'
  | notify _ _ _ _ here' | gather _ _ _ _ here' | release _ _ _ _ here' | detach _ _ _ _ here'
  | detached _ _ _ here' => cases here.symm.trans here'

end Sleeping

end TokenSystem

variable {states : ℕ → TokenSystem} {actions : ℕ → TokenAction} {moment later : ℕ}
  {thread worker sleeper : ThreadId} {token other : TokenId} {reason : CancelReason}

/-- What the cancellation of tokens promises. -/
structure CancellationLaw (states : ℕ → TokenSystem) (actions : ℕ → TokenAction) : Prop where
  /-- Once the token was cancelled, every later reading and every later wait says so. -/
  stays : ∀ moment token, (states moment).Told token → ∀ thread first last, moment ≤ first →
    (∀ result, Call states thread first last (.observe [token]) (.observed token result) →
      result.isSome) ∧
    ∀ result, Call states thread first last (.lock token) (.waited token result) → result = true
  /-- All readings of a token that report a reason report the same one. -/
  stable : ∀ moment later token reason reason',
    .observed token (some reason) ∈ (states moment).threads →
      .observed token (some reason') ∈ (states later).threads → reason = reason'
  /-- It is that of the first cancellation of the token or an ancestor. -/
  first : ∀ moment token reason, .observed token (some reason) ∈ (states moment).threads →
    ∃ start < moment, ∃ worker cancelled given,
      (states start).Cancels (actions start) worker cancelled given ∧
      Leads (states moment).parent token cancelled ∧
      (∀ earlier < start, ∀ worker cancelled given,
        (states earlier).Cancels (actions earlier) worker cancelled given →
          ¬Leads (states moment).parent token cancelled) ∧
      reason = if cancelled = token then given else .parentCancelled
  /-- The first cancellation of a token wakes every thread that sleeps on it or on a descendant. -/
  wakes : ∀ moment worker cancelled given, (states moment).Cancels (actions moment) worker cancelled given →
    ∀ (sleeper : ThreadId) (token : TokenId), (states moment).threads[sleeper]? = some (.asleep token) →
      Leads (states moment).parent token cancelled → ∀ last > moment, (states last).Rests worker →
        ∃ woken > moment, woken ≤ last ∧ (states woken).threads[sleeper]? = some (.woken token)
  /-- A thread that sleeps on a token that a cancellation has reached has a notification ahead. -/
  noticed : ∀ (moment : ℕ) (sleeper : ThreadId) (token : TokenId), (states moment).threads[sleeper]? = some (.asleep token) →
    (states moment).Reached token → ∃ (worker : ThreadId) (work : List Pending),
      (states moment).threads[worker]? = some (.notify work) ∧
      ∀ last > moment, (states last).Rests worker →
        ∃ woken > moment, woken ≤ last ∧ (states woken).threads[sleeper]? = some (.woken token)
  /-- A thread that is woken after a cancellation has reached its token returns from its wait. -/
  returns : ∀ (moment : ℕ) (thread : ThreadId) (token : TokenId), (states moment).threads[thread]? = some (.woken token) →
    (states moment).Reached token → ∀ last result,
      Call states thread moment last (.woken token) (.waited token result) → result = true

namespace Schedule

theorem moves (run : Schedule states actions) (moment : ℕ) :
    Moves (states moment) (actions moment) (states (moment + 1)) :=
  act_moves (run.next moment)

/-- A thread sleeps on until it is woken. -/
theorem asleep_le (run : Schedule states actions) (le : moment ≤ later) (slept : (states moment).threads[sleeper]? = some (.asleep token))
    (unwoken : ∀ woken > moment, woken ≤ later → (states woken).threads[sleeper]? ≠ some (.woken token)) :
    (states later).threads[sleeper]? = some (.asleep token) := by
  induction later, le using Nat.le_induction with
  | base => exact slept
  | succ later le ih =>
    have still := ih fun woken after before => unwoken woken after (by omega)
    rcases (run.moves later).sleeper still with asleep | woken
    · exact asleep
    · exact absurd woken (unwoken (later + 1) (by omega) le_rfl)

section Runs

variable (run : Schedule states actions)
  (orderly : ∀ moment, (states moment).Orderly (actions moment))

include run orderly

theorem sound (moment : ℕ) : (states moment).Sound := by
  induction moment with
  | zero => exact run.start.sound
  | succ moment ih => exact (run.moves moment).sound ih (orderly moment)

theorem reached_le (le : moment ≤ later) (reached : (states moment).Reached token) :
    (states later).Reached token := by
  induction later, le using Nat.le_induction with
  | base => exact reached
  | succ later le ih => exact (run.moves later).reached (run.sound orderly later) ih

theorem reasonIs_le (le : moment ≤ later) (isReason : (states moment).ReasonIs token reason) :
    (states later).ReasonIs token reason := by
  induction later, le using Nat.le_induction with
  | base => exact isReason
  | succ later le ih =>
    exact (run.moves later).reasonIs (run.sound orderly later) (orderly later) ih

theorem extends_succ (moment : ℕ) : Extends (states moment) (states (moment + 1)) :=
  (run.moves moment).extends (run.sound orderly moment)

theorem reason_le (le : moment ≤ later) (isReason : (states moment).reason token = some reason) :
    (states later).reason token = some reason := by
  induction later, le using Nat.le_induction with
  | base => exact isReason
  | succ later le ih => exact (run.extends_succ orderly later).reason token reason ih

theorem length_le (le : moment ≤ later) :
    (states moment).tokens.length ≤ (states later).tokens.length := by
  induction later, le using Nat.le_induction with
  | base => exact le_rfl
  | succ later le ih => exact ih.trans (run.extends_succ orderly later).length

/-- A token keeps its ancestors. -/
theorem leads_le (le : moment ≤ later) (isOld : token < (states moment).tokens.length) :
    Leads (states later).parent token other ↔ Leads (states moment).parent token other := by
  induction later, le using Nat.le_induction with
  | base => exact Iff.rfl
  | succ later le ih =>
    have isOld' := isOld.trans_le (run.length_le orderly le)
    exact ((run.extends_succ orderly later).leads (run.sound orderly later).inside isOld'.ne).trans ih

theorem reports (moment : ℕ) : (states moment).Reports := by
  induction moment with
  | zero =>
    refine ⟨fun token reason member => ?_, fun token member => ?_⟩
    · cases run.start.threads _ member
    · cases run.start.threads _ member
  | succ moment ih =>
    have moves := run.moves moment
    have sound := run.sound orderly moment
    exact ⟨fun token reason => moves.observed sound (orderly moment) ih.observed,
      fun token => moves.waited sound ih.waited⟩

theorem told_reached (told : (states moment).Told token) : (states moment).Reached token := by
  rcases told with ⟨reason, observed⟩ | waited
  · exact ((run.reports orderly moment).observed token reason observed).reached
  · exact (run.reports orderly moment).waited token waited

/-- A call that heeds a cancellation when it begins heeds it when it ends. -/
theorem heeds_le {begun ended : Program} {first last : ℕ}
    (call : Call states thread first last begun ended) (reached : (states first).Reached token)
    (heeds : (states first).Heeds token begun) : (states last).Heeds token ended := by
  obtain ⟨le, begins, ends, busy⟩ := call
  have heeded : ∃ program, (states last).threads[thread]? = some program ∧
      (states last).Heeds token program := by
    clear ends
    induction last, le using Nat.le_induction with
    | base => exact ⟨begun, begins, heeds⟩
    | succ last le ih =>
      obtain ⟨program, here, heeds⟩ := ih fun moment after before => busy moment after (by omega)
      have working : ¬program.resting := fun resting =>
        busy last le (Nat.lt_succ_self last) ⟨program, here, resting⟩
      exact (run.moves last).heeds (run.sound orderly last)
        (run.reached_le orderly le reached) here working heeds
  obtain ⟨program, here, heeds⟩ := heeded
  cases here.symm.trans ends
  exact heeds

/-- What covers a sleeping thread covers it until it wakes. -/
theorem woken_of_covered {last : ℕ} (slept : (states moment).threads[sleeper]? = some (.asleep token))
    (covered : (states moment).CoveredBy worker token) (after : moment ≤ last)
    (rests : (states last).Rests worker) :
    ∃ woken > moment, woken ≤ last ∧ (states woken).threads[sleeper]? = some (.woken token) := by
  by_contra! unwoken
  have still (later : ℕ) (le : moment ≤ later) (before : later ≤ last) :=
    run.asleep_le le slept fun woken after le => unwoken woken after (le.trans before)
  have stays (later : ℕ) (le : moment ≤ later) (before : later ≤ last) :
      (states later).CoveredBy worker token := by
    induction later, le using Nat.le_induction with
    | base => exact covered
    | succ later le ih =>
      have sound := run.sound orderly later
      have held := sound.held (still later le (by omega)) nofun rfl
      exact (run.moves later).coveredBy sound held
        (.inl (List.mem_of_getElem? (still (later + 1) (by omega) before))) (ih (by omega))
  obtain ⟨program, here, resting⟩ := rests
  obtain ⟨program', here', covers⟩ := stays last after le_rfl
  cases here.symm.trans here'
  cases program with
  | notify => cases resting
  | _ => cases covers

/-- A reason that is set has been set by a call. -/
theorem cancelled_before (isReason : (states moment).reason token = some reason) :
    ∃ before < moment, ∃ worker,
      (states before).Cancels (actions before) worker token reason := by
  induction moment with
  | zero =>
    rw [TokenSystem.reason, run.start.tokens] at isReason
    cases isReason
  | succ moment ih =>
    cases already : (states moment).reason token with
    | some found =>
      obtain rfl : found = reason := Option.some.inj
        (((run.extends_succ orderly moment).reason token found already).symm.trans isReason)
      obtain ⟨before, isBefore, cancels⟩ := ih already
      exact ⟨before, by omega, cancels⟩
    | none =>
      obtain ⟨worker, cancels⟩ := (run.moves moment).cancels already isReason (run.sound orderly moment)
      exact ⟨moment, Nat.lt_succ_self moment, worker, cancels⟩

/-- The first cancellation of a token or an ancestor gives the reason that is reported. -/
theorem first_cancellation (isReason : (states moment).ReasonIs token reason) :
    ∃ start < moment, ∃ worker cancelled given,
      (states start).Cancels (actions start) worker cancelled given ∧
      Leads (states moment).parent token cancelled ∧
      (∀ earlier < start, ∀ worker cancelled given,
        (states earlier).Cancels (actions earlier) worker cancelled given →
          ¬Leads (states moment).parent token cancelled) ∧
      reason = if cancelled = token then given else .parentCancelled := by
  classical
  let Hits (start : ℕ) : Prop := start < moment ∧ ∃ worker cancelled given,
    (states start).Cancels (actions start) worker cancelled given ∧
      Leads (states moment).parent token cancelled
  have hit : ∃ start, Hits start := by
    obtain ⟨ancestor, leads, isSet⟩ := isReason.reached
    obtain ⟨given, isGiven⟩ := Option.isSome_iff_exists.mp isSet
    obtain ⟨start, before, worker, cancels⟩ := run.cancelled_before orderly isGiven
    exact ⟨start, before, worker, ancestor, given, cancels, leads⟩
  obtain ⟨before, worker, cancelled, given, cancels, leads⟩ := Nat.find_spec hit
  have least (earlier : ℕ) (less : earlier < Nat.find hit) : ¬Hits earlier := Nat.find_min hit less
  generalize Nat.find hit = start at before cancels least
  have set := ((run.moves start).sets (run.sound orderly start) cancels).1
  refine ⟨start, before, worker, cancelled, given, cancels, leads,
    fun earlier less worker cancelled given cancels leads =>
      least earlier less ⟨by omega, worker, cancelled, given, cancels, leads⟩, ?_⟩
  have own (same : cancelled = token) : (states moment).reason token = some given := by
    subst same
    exact run.reason_le orderly (Nat.succ_le_of_lt before) set
  rcases isReason with isOwn | ⟨none, rfl, _⟩
  · split_ifs with same
    · exact Option.some.inj (isOwn.symm.trans (own same))
    · -- The token was cancelled later, so an ancestor had reached it.
      obtain ⟨late, isLate, worker', cancels'⟩ := run.cancelled_before orderly isOwn
      have after : start < late := by
        rcases Nat.lt_trichotomy late start with earlier | rfl | after
        · exact absurd ⟨isLate, worker', token, reason, cancels', .refl _⟩ (least late earlier)
        · obtain ⟨_, isStep, here, _⟩ := cancels
          obtain ⟨_, isStep', here', _⟩ := cancels'
          cases isStep.symm.trans isStep'
          cases here.symm.trans here'
          exact absurd rfl same
        · exact after
      obtain ⟨expired, isStep, here, fresh⟩ := cancels'
      rcases (orderly late).first worker' expired token reason isStep here fresh with isParent | untouched
      · exact isParent
      · have isOld := lt_length_of_held ((run.sound orderly late).held here nofun rfl)
        have set' := run.reason_le orderly (Nat.succ_le_of_lt after) set
        exact absurd ⟨cancelled, (run.leads_le orderly isLate.le isOld).mp leads, by rw [set']; rfl⟩
          untouched
  · rw [if_neg]
    intro same
    cases none.symm.trans (own same)

/-- In an orderly run cancellation keeps its promises. -/
theorem cancellation_law : CancellationLaw states actions where
  stays moment token told thread first last after := by
    have reached := run.reached_le orderly after (run.told_reached orderly told)
    refine ⟨fun result call => ?_, fun result call => ?_⟩
    · exact (run.heeds_le orderly call reached ⟨rfl, token, rfl, reached⟩).2
    · exact (run.heeds_le orderly call reached rfl).2
  stable moment later token reason reason' observed observed' := by
    have first := (run.reports orderly moment).observed token reason observed
    have second := (run.reports orderly later).observed token reason' observed'
    rcases Nat.le_total moment later with le | le
    · exact (run.reasonIs_le orderly le first).unique second
    · exact first.unique (run.reasonIs_le orderly le second)
  first moment token reason observed :=
    run.first_cancellation orderly ((run.reports orderly moment).observed token reason observed)
  wakes moment worker cancelled given cancels sleeper token slept leads last after rests := by
    obtain ⟨_, covers, awake⟩ := (run.moves moment).sets (run.sound orderly moment) cancels
    rcases (run.moves moment).sleeper slept with still | woken
    · have differs : token ≠ cancelled := by
        rintro rfl
        exact awake (List.mem_of_getElem? still)
      obtain ⟨woken, isAfter, le, isWoken⟩ := run.woken_of_covered orderly still
        (covers token leads differs) after rests
      exact ⟨woken, by omega, le, isWoken⟩
    · exact ⟨moment + 1, by omega, after, woken⟩
  noticed moment sleeper token slept reached := by
    obtain ⟨worker, covered⟩ :=
      (run.sound orderly moment).waiting token (List.mem_of_getElem? slept) reached
    have covered' := covered
    obtain ⟨program, here, covers⟩ := covered'
    cases program with
    | notify work =>
      exact ⟨worker, work, here, fun last after rests =>
        run.woken_of_covered orderly slept covered after.le rests⟩
    | _ => cases covers
  returns moment thread token woken reached last result call :=
    (run.heeds_le orderly call reached rfl).2

end Runs

section OneThread

/-- Follow the actions, as long as they succeed. -/
def follow (start : TokenSystem) (actions : ℕ → TokenAction) : ℕ → TokenSystem
  | 0 => start
  | moment + 1 => ((follow start actions moment).act (actions moment)).getD (follow start actions moment)

/-- The listed actions, and then new tokens for ever. -/
def script (listed : List TokenAction) (moment : ℕ) : TokenAction := listed.getD moment .create

theorem script_beyond {listed : List TokenAction} (beyond : listed.length ≤ moment) :
    script listed moment = .create := by
  simp [script, List.getElem?_eq_none beyond]

def oneThread : TokenSystem := ⟨[], [.idle]⟩

theorem follow_script {listed : List TokenAction}
    (succeed : ∀ moment < listed.length, ((follow oneThread (script listed) moment).act
      (script listed moment)).isSome) :
    Schedule (follow oneThread (script listed)) (script listed) where
  start := ⟨rfl, by simp [follow, oneThread]⟩
  next moment := by
    rcases Nat.lt_or_ge moment listed.length with isListed | beyond
    · obtain ⟨next, isNext⟩ := Option.isSome_iff_exists.mp (succeed moment isListed)
      rw [isNext, follow, isNext]
      rfl
    · rw [follow, script_beyond beyond]
      rfl

/-- No drop, no cancellation and no reading of a parent. -/
def plain (system : TokenSystem) : TokenAction → Bool
  | .drop _ _ => false
  | .step thread _ =>
      match system.threads[thread]? with
      | some (.cancel _ _) => false
      | some (.observe (_ :: _ :: _)) => false
      | _ => true
  | _ => true

theorem plain_orderly {system : TokenSystem} {action : TokenAction} (isPlain : plain system action) :
    system.Orderly action where
  outlives thread token isDrop := by
    subst isDrop
    cases isPlain
  first thread expired token reason isStep here := by
    subst isStep
    simp [plain, here] at isPlain
  reads thread expired current path origin isStep here isOrigin := by
    subst isStep
    cases path with
    | nil => cases isOrigin
    | cons second path => simp [plain, here] at isPlain

/-- A token times out, and its holder reads why. -/
def timedOut : List TokenAction :=
  [.create, .cancel 0 0 .timeout, .step 0 false, .step 0 false, .step 0 false, .step 0 false,
    .observe 0 0, .step 0 false]

theorem timedOut_law : CancellationLaw (follow oneThread (script timedOut)) (script timedOut) := by
  refine cancellation_law (follow_script (by decide)) fun moment => ?_
  rcases Nat.lt_or_ge moment 8 with isListed | beyond
  · by_cases isCancel : moment = 2
    · subst isCancel
      refine ⟨nofun, fun thread expired token reason isStep here _ => .inr ?_,
        fun thread expired current path origin isStep here => ?_⟩
      · obtain rfl : thread = 0 := by cases isStep; rfl
        obtain rfl : token = 0 := by cases here; rfl
        rintro ⟨ancestor, leads, isSet⟩
        rcases leads.cases_head with rfl | ⟨parent, isParent, _⟩
        · cases isSet
        · cases isParent
      · obtain rfl : thread = 0 := by cases isStep; rfl
        cases here
    · have isPlain : ∀ moment < 8, moment ≠ 2 →
          plain (follow oneThread (script timedOut) moment) (script timedOut moment) := by decide
      exact plain_orderly (isPlain moment isListed isCancel)
  · have isCreate : script timedOut moment = .create := script_beyond beyond
    rw [isCreate]
    exact plain_orderly rfl

/-- A child is cancelled through its parent, and then the parent is dropped. -/
def orphaned : List TokenAction :=
  [.create, .child 0 0, .cancel 0 0 .userInterrupt, .step 0 false, .step 0 false, .step 0 false,
    .step 0 false, .step 0 false, .step 0 false, .step 0 false, .observe 0 1, .step 0 false,
    .step 0 false, .drop 0 0, .step 0 false, .observe 0 1, .step 0 false]

/-- The child is cancelled no longer. -/
theorem orphaned_revives : ¬∀ states actions, Schedule states actions → CancellationLaw states actions := by
  intro law
  have told : (follow oneThread (script orphaned) 13).Told 1 := .inl ⟨.parentCancelled, by decide⟩
  have call : Call (follow oneThread (script orphaned)) 0 16 17 (.observe [1]) (.observed 1 none) := by
    refine ⟨by decide, by decide, by decide, fun moment after before => ?_⟩
    obtain rfl : moment = 16 := by omega
    rintro ⟨program, here, resting⟩
    have reads : (follow oneThread (script orphaned) 16).threads[0]? = some (.observe [1]) := by decide
    cases here.symm.trans reads
    cases resting
  have cancelled := ((law _ _ (follow_script (by decide))).stays 13 1 told 0 16 17 (by decide)).1 none call
  cases cancelled

end OneThread

end Schedule

end HellRs.Scope
