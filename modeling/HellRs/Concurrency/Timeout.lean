import HellRs.Lib.Labelled
import HellRs.Scope.Close
import HellRs.Scope.Token

/-! # A timeout

`timeout` with a deadline: the parent evaluator runs the action as a task of a child scope and polls its own cancellation,
the clock and the result. The action is not modelled but by how it may end: by itself with any result, by heeding the
cancellation of its scope, or by a `safepoint` that notices the deadline of the scope. The clock counts microseconds. An
`Instant` has room for every 64-bit number of them. A deadline of an enclosing scope that the action notices is among the
ways to end by itself.
-/

namespace HellRs.Concurrency

open Runtime Scope Labelled

/-- `RuntimeError::cancelled`, with what it suppresses. -/
def cancelledWith (suppressed : List Failure) : Failure := .mk .cancelled suppressed

/-- The outcome of a body whose scope is closed at the end, with or without a primary error. A scope that is closed with a
primary error never succeeds. -/
def finishWith {β : Type} (stalledCleanupIsError : Bool) (scope : ScopeTree) : Except Failure β → Except Failure β
  | .ok value => (scope.closeWithPrimary stalledCleanupIsError none).1.map fun _ => value
  | .error error =>
      match (scope.closeWithPrimary stalledCleanupIsError (some error)).1 with
      | .ok () => .error (.internal "failed scoped task unexpectedly closed without its primary error")
      | .error error => .error error

/-- Closing this scope meets no failure. -/
def ClosesCleanly (stalledCleanupIsError : Bool) (scope : ScopeTree) : Prop :=
  (scope.closeWithPrimary stalledCleanupIsError none).1 = .ok ()

section Finish

variable {β : Type} {stalledCleanupIsError : Bool} {scope : ScopeTree}

/-- Closing with a primary error returns this error, with the failures of closing suppressed. -/
theorem closeWithPrimary_some (stalledCleanupIsError : Bool) (scope : ScopeTree) (primary : Failure) :
    ∃ failures, (scope.closeWithPrimary stalledCleanupIsError (some primary)).1 =
      .error (.mk primary.error (primary.suppressed ++ failures)) ∧
      (ClosesCleanly stalledCleanupIsError scope → failures = []) := by
  cases isClosed : scope.closed with
  | true =>
    refine ⟨[], ?_, fun _ => rfl⟩
    rw [ScopeTree.closeWithPrimary.eq_def, if_pos isClosed, List.append_nil]
    cases primary
    rfl
  | false =>
    rw [ClosesCleanly, ScopeTree.closeWithPrimary_open isClosed, ScopeTree.closeWithPrimary_open isClosed]
    simp only [Option.isSome_some, true_or, ↓reduceIte, Option.isSome_none, Bool.false_eq_true, false_or, combineFailures]
    refine ⟨_, rfl, fun clean => ?_⟩
    split_ifs at clean with failed
    rw [not_not] at failed
    rw [failed, List.map_nil]

theorem finishWith_clean (clean : ClosesCleanly stalledCleanupIsError scope) (outcome : Except Failure β) :
    finishWith stalledCleanupIsError scope outcome = outcome := by
  cases outcome with
  | ok value => simp only [finishWith, show (scope.closeWithPrimary stalledCleanupIsError none).1 = .ok () from clean,
      Except.map]
  | error error =>
    obtain ⟨failures, closed, none⟩ := closeWithPrimary_some stalledCleanupIsError scope error
    simp only [finishWith, closed, none clean, List.append_nil]
    cases error
    rfl

/-- Closing keeps an error, and may add to what it suppresses. -/
theorem finishWith_error (stalledCleanupIsError : Bool) (scope : ScopeTree) (error : Failure) :
    ∃ failures, finishWith stalledCleanupIsError scope (.error error : Except Failure β) =
      .error (.mk error.error (error.suppressed ++ failures)) := by
  obtain ⟨failures, closed, -⟩ := closeWithPrimary_some stalledCleanupIsError scope error
  exact ⟨failures, by simp only [finishWith, closed]⟩

end Finish
/-- How the action ends. -/
inductive Cause where
  /-- By itself. -/
  | own
  /-- Its evaluator has found its token cancelled. -/
  | heeded
  /-- A `safepoint` has found the deadline of the scope expired, as the loop of a pooled worker does. -/
  | noticed
deriving DecidableEq, Repr

/-- The end of the action: why, when and with which result. -/
structure Ending (α : Type) where
  cause : Cause
  time : ℕ
  result : Except Failure α

/-- Who runs the action. -/
inductive Runner where
  | nobody
  | task
  | parent
deriving DecidableEq, Repr

/-- Everything but the parent. -/
structure World (α : Type) where
  now : ℕ
  runner : Runner
  /-- The token of the parent evaluator is cancelled. -/
  enclosing : Bool
  /-- Why the token of the child scope is cancelled, if it is. -/
  child : Option CancelReason
  ending : Option (Ending α)
  /-- The worker has sent its result. -/
  sent : Bool
  channel : Option (Except Failure α)

/-- Where the parent is. It closes the child scope with what it has decided, and then returns. What the world was like at
the decision is kept for the specification. -/
inductive Parent (α : Type) where
  /-- Before the child scope and its task are admitted. -/
  | starting
  /-- Before the check of its own cancellation. -/
  | polling
  /-- Before it reads the clock. -/
  | measuring
  /-- In `recv_timeout`, which waits up to this time. -/
  | receiving (limit : ℕ)
  /-- Running the action itself, when the delay is negative. -/
  | direct
  | closing (seen : World α) (decision : Except Failure (Option α))
  | returned (seen : World α) (result : Except Failure (Option α))

structure Timeout (α : Type) where
  deadline : Option ℕ
  world : World α
  parent : Parent α

inductive TimeoutAct (α : Type) where
  | tick
  | cancelEnclosing
  | finish (result : Except Failure α)
  | heed (suppressed : List Failure)
  | notice (suppressed : List Failure)
  | send (scope : ScopeTree)
  | admitTask
  | refuse (error : Failure)
  | check
  | measure
  | receive
  | giveUp
  | disconnect
  | deliver
  | close (scope : ScopeTree)

namespace Parent

variable {α : Type}

/-- The parent has not decided yet. -/
def undecided : Parent α → Bool
  | closing _ _ => false
  | returned _ _ => false
  | _ => true

end Parent

namespace World

variable {α : Type}

/-- The action has started and not ended. -/
def running (world : World α) : Prop := world.runner ≠ .nobody ∧ world.ending = none

/-- `cancel` of the child scope: the first reason stays. -/
def cancelChild (world : World α) (reason : CancelReason) : World α :=
  { world with child := world.child <|> some reason }

/-- `is_cancelled` of the token of the child scope. -/
def childCancelled (world : World α) : Prop := world.child.isSome ∨ world.enclosing = true

def endWith (world : World α) (cause : Cause) (result : Except Failure α) : World α :=
  { world with ending := some ⟨cause, world.now, result⟩ }

end World

namespace Timeout

variable {α : Type}

/-- The longest wait for a message. -/
def pollInterval : ℕ := 10000

/-- `timeout` up to its loop. -/
def initial (microseconds : ℤ) (now : ℕ) (enclosing : Bool) : Timeout α :=
  let world : World α := ⟨now, .nobody, enclosing, none, none, false, none⟩
  if microseconds = 0 then ⟨some now, world, .returned world (.ok none)⟩
  else if microseconds < 0 then ⟨none, { world with runner := .parent }, .direct⟩
  else ⟨some (now + microseconds.toNat), world, .starting⟩

/-- The parent decides: it cancels the child scope for a reason, if there is one, and closes it. -/
def decide (state : Timeout α) (reason : Option CancelReason) (decision : Except Failure (Option α)) : Timeout α :=
  { state with
    world := reason.elim state.world state.world.cancelChild
    parent := .closing state.world decision }

/-- One step of the clock, of the enclosing scope, of the action and its worker, or of the parent. -/
inductive Step (stalledCleanupIsError : Bool) : Timeout α → TimeoutAct α → Timeout α → Prop where
  | tick (state : Timeout α) :
      Step stalledCleanupIsError state .tick { state with world.now := state.world.now + 1 }
  | cancelEnclosing (state : Timeout α) :
      Step stalledCleanupIsError state .cancelEnclosing { state with world.enclosing := true }
  | finish {state : Timeout α} (result : Except Failure α) (running : state.world.running) :
      Step stalledCleanupIsError state (.finish result) { state with world := state.world.endWith .own result }
  | heed {state : Timeout α} (suppressed : List Failure) (running : state.world.running)
      (cancelled : state.world.childCancelled) :
      Step stalledCleanupIsError state (.heed suppressed)
        { state with world := state.world.endWith .heeded (.error (cancelledWith suppressed)) }
  | notice {state : Timeout α} {deadline : ℕ} (suppressed : List Failure) (running : state.world.running)
      (isSet : state.deadline = some deadline) (expired : deadline ≤ state.world.now) :
      Step stalledCleanupIsError state (.notice suppressed)
        { state with world := state.world.endWith .noticed (.error (cancelledWith suppressed)) }
  /-- The task closes its scope and sends the result. -/
  | send {state : Timeout α} {ending : Ending α} (scope : ScopeTree) (ended : state.world.ending = some ending)
      (unsent : state.world.sent = false) (spawned : state.world.runner = .task) :
      Step stalledCleanupIsError state (.send scope)
        { state with
          world.sent := true
          world.channel := some (finishWith stalledCleanupIsError scope ending.result) }
  | admitTask {state : Timeout α} (starts : state.parent = .starting) :
      Step stalledCleanupIsError state .admitTask { state with world.runner := .task, parent := .polling }
  /-- The child scope or its task is not admitted. -/
  | refuse {state : Timeout α} (error : Failure) (starts : state.parent = .starting) :
      Step stalledCleanupIsError state (.refuse error) { state with parent := .returned state.world (.error error) }
  | checkCancelled {state : Timeout α} (polls : state.parent = .polling) (cancelled : state.world.enclosing = true) :
      Step stalledCleanupIsError state .check (state.decide (some .parentCancelled) (.error (cancelledWith [])))
  | checkLive {state : Timeout α} (polls : state.parent = .polling) (live : state.world.enclosing = false) :
      Step stalledCleanupIsError state .check { state with parent := .measuring }
  | measureExpired {state : Timeout α} {deadline : ℕ} (measures : state.parent = .measuring)
      (isSet : state.deadline = some deadline) (expired : deadline ≤ state.world.now) :
      Step stalledCleanupIsError state .measure (state.decide (some .timeout) (.ok none))
  | measureOpen {state : Timeout α} {deadline : ℕ} (measures : state.parent = .measuring)
      (isSet : state.deadline = some deadline) (remains : state.world.now < deadline) :
      Step stalledCleanupIsError state .measure
        { state with parent := .receiving (state.world.now + min (deadline - state.world.now) pollInterval) }
  | receive {state : Timeout α} {limit : ℕ} {result : Except Failure α} (receives : state.parent = .receiving limit)
      (arrived : state.world.channel = some result) :
      Step stalledCleanupIsError state .receive
        ({ state with world.channel := none }.decide none (result.map some))
  | giveUp {state : Timeout α} {limit : ℕ} (receives : state.parent = .receiving limit)
      (empty : state.world.channel = none) (late : limit ≤ state.world.now) :
      Step stalledCleanupIsError state .giveUp { state with parent := .polling }
  | disconnect {state : Timeout α} {limit : ℕ} (receives : state.parent = .receiving limit)
      (empty : state.world.channel = none) (gone : state.world.sent = true) :
      Step stalledCleanupIsError state .disconnect
        (state.decide (some .siblingFailed) (.error (.internal "timeout worker disconnected")))
  | deliver {state : Timeout α} {ending : Ending α} (runs : state.parent = .direct)
      (ended : state.world.ending = some ending) :
      Step stalledCleanupIsError state .deliver
        { state with parent := .returned state.world (ending.result.map some) }
  | close {state : Timeout α} {seen : World α} {decision : Except Failure (Option α)} (scope : ScopeTree)
      (closes : state.parent = .closing seen decision) :
      Step stalledCleanupIsError state (.close scope)
        { state with parent := .returned seen (finishWith stalledCleanupIsError scope decision) }

/-- The action has ended by itself, and before the deadline. -/
def InTime (deadline : Option ℕ) (ending : Ending α) : Prop := ending.cause = .own ∧ ∀ limit ∈ deadline, ending.time < limit

/-- The specified result, by what has happened before the parent decides. -/
structure Right (deadline : Option ℕ) (seen : World α) (result : Except Failure (Option α)) : Prop where
  /-- The cancellation of an enclosing scope is propagated. -/
  propagates : seen.enclosing = true → ∃ suppressed, result = .error (cancelledWith suppressed)
  /-- The result of an action that ends first is returned. -/
  returns : seen.enclosing = false → ∀ ending ∈ seen.ending, InTime deadline ending → result = ending.result.map some
  /-- Otherwise the deadline has passed, and the result is `Nothing`. -/
  expires : seen.enclosing = false → (∀ ending ∈ seen.ending, ¬ InTime deadline ending) →
    (∃ limit ∈ deadline, limit ≤ seen.now) ∧ result = .ok none

/-- No `safepoint` of the action notices the deadline while the parent has not decided. Whenever the parent takes a result
or finds the deadline passed, the enclosing scope has not been cancelled since its check, and what it finds came first:
a result that it takes is not later than the deadline, and there is no earlier result when it finds the deadline passed.
The task is admitted, and the scopes close without failures. -/
def Fits (stalledCleanupIsError : Bool) : TimeoutAct α → Timeout α → Prop
  | .notice _, state => state.parent.undecided = false
  | .measure, state => (∃ limit ∈ state.deadline, limit ≤ state.world.now) →
      state.world.enclosing = false ∧ ∀ ending ∈ state.world.ending, ¬ InTime state.deadline ending
  | .receive, state => state.world.enclosing = false ∧
      ∀ ending ∈ state.world.ending, ∀ limit ∈ state.deadline, ending.time < limit
  | .deliver, state => ∀ ending ∈ state.world.ending, ending.cause = .own → state.world.enclosing = false
  | .send scope, _ => ClosesCleanly stalledCleanupIsError scope
  | .close scope, _ => ClosesCleanly stalledCleanupIsError scope
  | .refuse _, _ => False
  | _, _ => True

section Outcome

variable {stalledCleanupIsError : Bool} {state next : Timeout α} {act : TimeoutAct α}

/-- What holds in a run whose acts fit. -/
structure Sound (state : Timeout α) : Prop where
  /-- Only the parent cancels the child scope. -/
  child : state.parent.undecided → state.world.child = none
  /-- So the action heeds a cancellation of the enclosing scope. -/
  heeded : state.parent.undecided → ∀ ending ∈ state.world.ending, ending.cause ≠ .own →
    state.world.enclosing = true ∧ ∃ suppressed, ending.result = .error (cancelledWith suppressed)
  /-- The message is the result of the action. -/
  message : ∀ result ∈ state.world.channel, ∃ ending ∈ state.world.ending, result = ending.result
  sent : state.parent.undecided → state.world.sent = true → state.world.channel.isSome
  direct : state.parent = .direct → state.deadline = none
  right : ∀ seen result, state.parent = .closing seen result ∨ state.parent = .returned seen result →
    Right state.deadline seen result

theorem initial_sound {microseconds : ℤ} {now : ℕ} {enclosing : Bool} (live : microseconds = 0 → enclosing = false) :
    Sound (initial microseconds now enclosing : Timeout α) := by
  unfold initial
  dsimp only
  split_ifs with zero negative
  · refine ⟨by simp, by simp, by simp, by simp, by simp, ?_⟩
    rintro seen result (closing | returned)
    · cases closing
    · cases returned
      refine ⟨fun cancelled => ?_, fun _ ending ended => by simp at ended, fun _ _ => ⟨⟨now, rfl, le_rfl⟩, rfl⟩⟩
      rw [live zero] at cancelled
      cases cancelled
  · exact ⟨by simp, by simp, by simp, by simp, by simp, by simp⟩
  · exact ⟨by simp, by simp, by simp, by simp, by simp, by simp⟩

/-- A result that came first and by itself is the right one. -/
theorem Right.ofEnding {deadline : Option ℕ} {seen : World α} {ending : Ending α} (live : seen.enclosing = false)
    (ended : seen.ending = some ending) (inTime : InTime deadline ending) :
    Right deadline seen (ending.result.map some) := by
  refine ⟨fun cancelled => by simp [live] at cancelled, fun _ other isOther _ => ?_, fun _ late => ?_⟩
  · rw [ended] at isOther
    rw [Option.some.inj isOther]
  · exact absurd inTime (late ending ended)

/-- So is the cancellation of the enclosing scope. -/
theorem Right.ofCancelled {deadline : Option ℕ} {seen : World α} {result : Except Failure (Option α)}
    (cancelled : seen.enclosing = true) (isCancelled : ∃ suppressed, result = .error (cancelledWith suppressed)) :
    Right deadline seen result := by
  refine ⟨fun _ => isCancelled, fun live => ?_, fun live => ?_⟩ <;> rw [cancelled] at live <;> cases live

/-- A step of the world, after which the parent is where it was. -/
theorem Sound.ofWorld (sound : state.Sound) {world : World α} (child : world.child = state.world.child)
    (heeded : state.parent.undecided → ∀ ending ∈ world.ending, ending.cause ≠ .own →
      world.enclosing = true ∧ ∃ suppressed, ending.result = .error (cancelledWith suppressed))
    (message : ∀ result ∈ world.channel, ∃ ending ∈ world.ending, result = ending.result)
    (sent : state.parent.undecided → world.sent = true → world.channel.isSome) : Sound { state with world := world } :=
  ⟨fun undecided => child.trans (sound.child undecided), heeded, message, sent, sound.direct, sound.right⟩

/-- The action ends, in a way that is allowed. -/
theorem Sound.endWith (sound : state.Sound) {cause : Cause} {result : Except Failure α} (running : state.world.running)
    (allowed : state.parent.undecided → cause ≠ .own →
      state.world.enclosing = true ∧ ∃ suppressed, result = .error (cancelledWith suppressed)) :
    Sound { state with world := state.world.endWith cause result } := by
  refine sound.ofWorld rfl (fun undecided ending ended notOwn => ?_) (fun message arrived => ?_) sound.sent
  · cases Option.some.inj ended
    exact allowed undecided notOwn
  · obtain ⟨ending, ended, -⟩ := sound.message message arrived
    rw [running.2] at ended
    cases ended

/-- The parent moves on without a decision. -/
theorem Sound.ofParent (sound : state.Sound) {parent : Parent α} (before : state.parent.undecided)
    (undecided : parent.undecided) (loops : parent ≠ .direct) : Sound { state with parent := parent } := by
  refine ⟨fun _ => sound.child before, fun _ => sound.heeded before, sound.message, fun _ => sound.sent before,
    fun isDirect => absurd isDirect loops, ?_⟩
  rintro seen result (isClosing | isReturned)
  · rw [show parent = _ from isClosing] at undecided
    cases undecided
  · rw [show parent = _ from isReturned] at undecided
    cases undecided

/-- The parent decides rightly. -/
theorem Sound.decide (sound : state.Sound) {reason : Option CancelReason} {decision : Except Failure (Option α)}
    (right : Right state.deadline state.world decision) : Sound (state.decide reason decision) := by
  refine ⟨nofun, nofun, ?_, nofun,
    nofun, ?_⟩
  · cases reason <;> exact sound.message
  · rintro seen result (isClosing | isReturned)
    · cases isClosing
      exact right
    · cases isReturned

/-- What has been decided stays right. -/
theorem Sound.returns (sound : state.Sound) {seen : World α} {result : Except Failure (Option α)}
    (right : Right state.deadline seen result) : Sound { state with parent := .returned seen result } := by
  refine ⟨nofun, nofun, sound.message,
    nofun, nofun, ?_⟩
  rintro seen' result' (isClosing | isReturned)
  · cases isClosing
  · cases isReturned
    exact right

theorem Step.sound (step : Step stalledCleanupIsError state act next) (fits : Fits stalledCleanupIsError act state)
    (sound : state.Sound) : next.Sound := by
  cases step with
  | tick => exact sound.ofWorld rfl sound.heeded sound.message sound.sent
  | cancelEnclosing =>
    exact sound.ofWorld rfl (fun undecided ending ended notOwn => ⟨rfl, (sound.heeded undecided ending ended notOwn).2⟩)
      sound.message sound.sent
  | finish result running => exact sound.endWith running fun _ notOwn => absurd rfl notOwn
  | heed suppressed running cancelled =>
    refine sound.endWith running fun undecided _ => ⟨?_, suppressed, rfl⟩
    rw [World.childCancelled, sound.child undecided] at cancelled
    exact cancelled.resolve_left (by simp)
  | notice suppressed running isSet expired =>
    refine sound.endWith running fun undecided _ => ?_
    rw [show state.parent.undecided = false from fits] at undecided
    cases undecided
  | @send ending scope ended unsent spawned =>
    refine sound.ofWorld rfl sound.heeded (fun message arrived => ⟨ending, ended, ?_⟩) fun _ _ => rfl
    rw [← Option.some.inj arrived, finishWith_clean fits]
  | admitTask starts =>
    have undecided : state.parent.undecided := by rw [starts]; rfl
    have moved : Sound { state with parent := .polling } := sound.ofParent undecided rfl nofun
    exact moved.ofWorld rfl moved.heeded moved.message moved.sent
  | refuse error starts => cases fits
  | checkCancelled polls cancelled => exact sound.decide (.ofCancelled cancelled ⟨[], rfl⟩)
  | checkLive polls live => exact sound.ofParent (by rw [polls]; rfl) rfl nofun
  | @measureExpired deadline measures isSet expired =>
    obtain ⟨live, late⟩ := fits ⟨deadline, isSet, expired⟩
    refine sound.decide ⟨fun cancelled => by simp [live] at cancelled, fun _ ending ended inTime => ?_,
      fun _ _ => ⟨⟨deadline, isSet, expired⟩, rfl⟩⟩
    exact absurd inTime (late ending ended)
  | measureOpen measures isSet remains => exact sound.ofParent (by rw [measures]; rfl) rfl nofun
  | @receive limit result receives arrived =>
    obtain ⟨live, early⟩ := fits
    obtain ⟨ending, ended, rfl⟩ := sound.message result arrived
    have undecided : state.parent.undecided := by rw [receives]; rfl
    have own : ending.cause = .own := by
      by_contra notOwn
      have cancelled := (sound.heeded undecided ending ended notOwn).1
      rw [live] at cancelled
      cases cancelled
    have right : Right state.deadline { state.world with channel := none } (ending.result.map some) :=
      .ofEnding live ended ⟨own, early ending ended⟩
    refine ⟨nofun, nofun, nofun,
      nofun, nofun, ?_⟩
    rintro seen result (isClosing | isReturned)
    · cases isClosing
      exact right
    · cases isReturned
  | giveUp receives empty late => exact sound.ofParent (by rw [receives]; rfl) rfl nofun
  | disconnect receives empty gone =>
    have arrived := sound.sent (by rw [receives]; rfl) gone
    rw [empty] at arrived
    cases arrived
  | @deliver ending runs ended =>
    refine sound.returns ?_
    by_cases own : ending.cause = .own
    · refine .ofEnding (fits ending ended own) ended ⟨own, fun limit isSet => ?_⟩
      rw [sound.direct runs] at isSet
      cases isSet
    · obtain ⟨cancelled, suppressed, isCancelled⟩ := sound.heeded (by rw [runs]; rfl) ending ended own
      exact .ofCancelled cancelled ⟨suppressed, by rw [isCancelled]; rfl⟩
  | @close seen decision scope closes =>
    refine sound.returns ?_
    rw [finishWith_clean fits]
    exact sound.right seen decision (.inl closes)

/-- A parent that is in the loop has a deadline, and waits no longer for a message. -/
def Timed (state : Timeout α) : Prop :=
  state.parent.undecided → state.parent ≠ .direct →
    ∃ deadline ∈ state.deadline, ∀ limit, state.parent = .receiving limit → limit ≤ deadline

theorem initial_timed (microseconds : ℤ) (now : ℕ) (enclosing : Bool) :
    Timed (initial microseconds now enclosing : Timeout α) := by
  unfold initial
  dsimp only
  split_ifs with zero negative
  · exact nofun
  · exact fun _ loops => absurd rfl loops
  · exact fun _ _ => ⟨_, rfl, nofun⟩

theorem Step.timed (step : Step stalledCleanupIsError state act next) (timed : state.Timed) : next.Timed := by
  cases step with
  | tick | cancelEnclosing | finish | heed | notice | send => exact timed
  | admitTask starts | checkLive starts =>
    intro _ _
    obtain ⟨deadline, isSet, -⟩ := timed (by rw [starts]; rfl) (by rw [starts]; nofun)
    exact ⟨deadline, isSet, nofun⟩
  | giveUp receives =>
    intro _ _
    obtain ⟨deadline, isSet, -⟩ := timed (by rw [receives]; rfl) (by rw [receives]; nofun)
    exact ⟨deadline, isSet, nofun⟩
  | @measureOpen deadline measures isSet remains =>
    intro _ _
    refine ⟨deadline, isSet, fun limit isLimit => ?_⟩
    cases isLimit
    have shorter : min (deadline - state.world.now) pollInterval ≤ deadline - state.world.now := min_le_left _ _
    omega
  | refuse | checkCancelled | measureExpired | receive | disconnect | deliver | close => exact nofun

/-- The acts of the parent, and the clock. -/
def OfParent : TimeoutAct α → Prop
  | .tick | .admitTask | .check | .measure | .receive | .giveUp | .deliver | .close _ => True
  | _ => False

/-- How far the parent is from its return, when the action and its worker do nothing. -/
def rank (state : Timeout α) : ℕ :=
  let rest := state.deadline.getD 0 - state.world.now
  match state.parent with
  | .starting => 4 * rest + 4
  | .polling => 4 * rest + 3
  | .measuring => 4 * rest + 2
  | .receiving limit => if state.world.now < limit then 4 * rest + 1 else 4 * rest + 4
  | .direct => 1
  | .closing _ _ => 1
  | .returned _ _ => 0

/-- The parent is not in the action itself, or this has ended. -/
def Free (state : Timeout α) : Prop := state.parent = .direct → state.world.ending.isSome

/-- Unless the parent has returned, it or the clock can act, and that brings it nearer to its return. -/
theorem Timed.advances (stalledCleanupIsError : Bool) (timed : state.Timed) (free : state.Free) :
    (∃ seen result, state.parent = .returned seen result) ∨
      ∃ act next, OfParent act ∧ Step stalledCleanupIsError state act next ∧ (next.Timed ∧ next.Free) ∧
        next.rank < state.rank := by
  rcases here : state.parent with _ | _ | _ | limit | _ | ⟨seen, decision⟩ | ⟨seen, result⟩
  case starting =>
    have step : Step stalledCleanupIsError state _ _ := .admitTask here
    exact .inr ⟨.admitTask, _, trivial, step, ⟨step.timed timed, nofun⟩, by simp [rank, here]⟩
  case polling =>
    cases cancelled : state.world.enclosing with
    | true =>
      have step : Step stalledCleanupIsError state _ _ := .checkCancelled here cancelled
      exact .inr ⟨.check, _, trivial, step, ⟨step.timed timed, nofun⟩, by simp [rank, here, Timeout.decide]⟩
    | false =>
      have step : Step stalledCleanupIsError state _ _ := .checkLive here cancelled
      exact .inr ⟨.check, _, trivial, step, ⟨step.timed timed, nofun⟩, by simp [rank, here]⟩
  case measuring =>
    obtain ⟨deadline, isSet, -⟩ := timed (by rw [here]; rfl) (by rw [here]; nofun)
    by_cases remains : state.world.now < deadline
    · have step : Step stalledCleanupIsError state _ _ := .measureOpen here isSet remains
      refine .inr ⟨.measure, _, trivial, step, ⟨step.timed timed, nofun⟩, ?_⟩
      have waits : state.world.now < state.world.now + min (deadline - state.world.now) pollInterval := by
        simp only [pollInterval]
        omega
      simp [rank, here, waits]
    · have step : Step stalledCleanupIsError state _ _ := .measureExpired here isSet (not_lt.mp remains)
      exact .inr ⟨.measure, _, trivial, step, ⟨step.timed timed, nofun⟩, by simp [rank, here, Timeout.decide]⟩
  case receiving =>
    obtain ⟨deadline, isSet, bounded⟩ := timed (by rw [here]; rfl) (by rw [here]; nofun)
    have bounded := bounded limit here
    cases arrived : state.world.channel with
    | some result =>
      have step : Step stalledCleanupIsError state _ _ := .receive here arrived
      refine .inr ⟨.receive, _, trivial, step, ⟨step.timed timed, nofun⟩, ?_⟩
      simp only [rank, here, Timeout.decide, Option.mem_def.mp isSet, Option.getD_some]
      split_ifs <;> omega
    | none =>
      by_cases late : limit ≤ state.world.now
      · have step : Step stalledCleanupIsError state _ _ := .giveUp here arrived late
        exact .inr ⟨.giveUp, _, trivial, step, ⟨step.timed timed, nofun⟩, by simp [rank, here, not_lt.mpr late]⟩
      · have step : Step stalledCleanupIsError state _ _ := .tick state
        refine .inr ⟨.tick, _, trivial, step, ⟨step.timed timed, free⟩, ?_⟩
        simp only [rank, here, Option.mem_def.mp isSet, Option.getD_some, if_pos (not_le.mp late)]
        split_ifs <;> omega
  case direct =>
    obtain ⟨ending, ended⟩ := Option.isSome_iff_exists.mp (free here)
    have step : Step stalledCleanupIsError state _ _ := .deliver here ended
    exact .inr ⟨.deliver, _, trivial, step, ⟨step.timed timed, nofun⟩, by simp [rank, here]⟩
  case closing =>
    have step : Step stalledCleanupIsError state _ _ := .close (.mk 0 false false [] ⟨[], []⟩ [] []) here
    exact .inr ⟨.close (.mk 0 false false [] ⟨[], []⟩ [] []), _, trivial, step, ⟨step.timed timed, nofun⟩, by simp [rank, here]⟩
  case returned => exact .inl ⟨seen, result, rfl⟩

/-- A scope in which nothing is registered. -/
def emptyScope : ScopeTree := .mk 0 false false [] ⟨[], []⟩ [] []

theorem emptyScope_clean (stalledCleanupIsError : Bool) : ClosesCleanly stalledCleanupIsError emptyScope := by
  rw [ClosesCleanly, ScopeTree.closeWithPrimary_open rfl]
  simp [emptyScope, ScopeTree.cancel, ScopeTree.children, ScopeTree.tasks, ScopeTree.resources, ScopeTree.finalizers,
    taskFailures, ResourceRegistry.close, ResourceRegistry.requestCancel, ResourceRegistry.toClose]

end Outcome

end Timeout

end HellRs.Concurrency
