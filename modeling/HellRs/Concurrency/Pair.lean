import Mathlib
import HellRs.Lib.Labelled
import HellRs.Scope.Close
import HellRs.Scope.Token

/-! # Two actions at once

`concurrently` and `race`. The parent makes a joint scope and one scope for each branch, runs each branch as a task that
prepares its action, meets the other branch at a gate, runs the action and sends the result, and receives results in the
order in which they are sent. A branch may end each of its parts with any result at any time, so what it does when it is
cancelled needs no step of its own; errors and caught panics are results alike. Mutexes are not poisoned, since no code
panics that holds one.
-/

namespace HellRs.Concurrency

open Runtime Scope Labelled

inductive Side where
  | left
  | right
deriving DecidableEq, Repr

def Side.other : Side → Side
  | left => right
  | right => left

/-- The three scopes of a pair. -/
inductive PairScope where
  | joint
  | branch (side : Side)
deriving DecidableEq, Repr

inductive PairMode where
  | both
  | race
deriving DecidableEq, Repr

/-- The value of `concurrently` or of `race`. -/
inductive Joint (α : Type) where
  | both (left right : α)
  | either (side : Side) (value : α)

/-- Where the task of a branch is. -/
inductive Branch (α : Type) where
  | absent
  /-- It forces the action. -/
  | preparing
  /-- The action is forced, or forcing it has failed. -/
  | prepared (outcome : Except Failure Unit)
  /-- In `arrive_and_wait`. -/
  | waiting (outcome : Except Failure Unit)
  | running
  | finished (result : Except Failure α)
  | sent

/-- Why the parent has stopped receiving. -/
inductive Why where
  | refused
  | cancelled
  | decided
deriving DecidableEq, Repr

/-- Where the parent is. -/
inductive PairParent (α : Type) where
  | starting
  | creating
  | spawning (side : Side)
  /-- In `recv_parallel_result`, with the first result if there is one, before or after the check of its cancellation. -/
  | receiving (first : Option (Side × α)) (checked : Bool)
  /-- Closing scopes, by dropping their guards or with a report, with the cleanup errors so far. -/
  | closing (rest : List PairScope) (cleanup : List Failure) (drops : Bool) (why : Why)
      (decision : Except Failure (Joint α))
  | returned (cleanup : List Failure) (why : Why) (decision result : Except Failure (Joint α))

structure Pair (α : Type) where
  mode : PairMode
  /-- The token of the parent evaluator is cancelled. -/
  enclosing : Bool
  /-- Why the tokens of the scopes are cancelled, if they are. -/
  token : PairScope → Option CancelReason
  created : List PairScope
  /-- The scopes that have been closed, in order. -/
  closed : List PairScope
  arrived : ℕ
  aborted : Bool
  branch : Side → Branch α
  /-- The results in the channel. -/
  queue : List (Side × Except Failure α)
  /-- All results that were ever sent, in order. -/
  history : List (Side × Except Failure α)
  parent : PairParent α

inductive PairAct (α : Type) where
  | cancelEnclosing
  /-- The scope is closed with a scope above. -/
  | closeAbove (scope : PairScope)
  | start
  | create
  | spawn
  /-- A scope or a task is not admitted. -/
  | refuse (error : Failure)
  | prepare (side : Side) (outcome : Except Failure Unit)
  | arrive (side : Side)
  | pass (side : Side)
  | finish (side : Side) (result : Except Failure α)
  | send (side : Side)
  | check
  | receive
  | giveUp
  | disconnect
  | close (scope : ScopeTree)
  | leave

namespace Pair

variable {α : Type}

/-- `close_pair_scopes`, after the scopes are closed. -/
def closeResult {β : Type} (decision : Except Failure β) (cleanup : List Failure) : Except Failure β :=
  match decision, cleanup with
  | .error primary, cleanup => .error (.mk primary.error (primary.suppressed ++ cleanup))
  | .ok _, primary :: cleanup => .error (.mk primary.error (primary.suppressed ++ cleanup))
  | .ok value, [] => .ok value

/-- The results of two branches side by side: nothing when both are of one branch. -/
def joint (first second : Side × α) : Option (Joint α) :=
  match first, second with
  | (.left, left), (.right, right) => some (.both left right)
  | (.right, right), (.left, left) => some (.both left right)
  | _, _ => none

def initial (mode : PairMode) (enclosing : Bool) : Pair α :=
  ⟨mode, enclosing, fun _ => none, [], [], 0, false, fun _ => .absent, [], [], .starting⟩

/-- `cancel` of a scope: the first reason stays, and the joint scope passes it on to the branches. -/
def cancel (pair : Pair α) (scope : PairScope) (reason : CancelReason) : Pair α :=
  { pair with token := fun other =>
      if other = scope then pair.token other <|> some reason
      else if scope = .joint ∧ pair.token scope = none then pair.token other <|> some .parentCancelled
      else pair.token other }

/-- A scope is closed: only the first time anything is done. -/
def closeScope (pair : Pair α) (scope : PairScope) : Pair α :=
  if scope ∈ pair.closed then pair
  else { pair.cancel scope .scopeClosed with closed := pair.closed ++ [scope] }

def setBranch (pair : Pair α) (side : Side) (branch : Branch α) : Pair α :=
  { pair with branch := Function.update pair.branch side branch }

/-- The order in which `close_pair_scopes` closes. -/
def closingOrder : List PairScope := [.branch .right, .branch .left, .joint]

/-- The parent stops, and closes the scopes. -/
def stop (pair : Pair α) (why : Why) (decision : Except Failure (Joint α)) : Pair α :=
  { pair with parent := .closing closingOrder [] false why decision }

/-- The parent receives the first result. -/
def receiveFirst (pair : Pair α) (side : Side) (result : Except Failure α) : Pair α :=
  match pair.mode, result with
  | .race, result => (pair.cancel (.branch side.other) .raceLost).stop .decided (result.map (.either side))
  | .both, .error error => (pair.cancel (.branch side.other) .siblingFailed).stop .decided (.error error)
  | .both, .ok value => { pair with parent := .receiving (some (side, value)) false }

/-- The next scope to create. -/
def nextScope : List PairScope → Option PairScope
  | [] => some .joint
  | [_] => some (.branch .left)
  | [_, _] => some (.branch .right)
  | _ => none

/-- One step of the enclosing scope, of a branch, or of the parent. -/
inductive Step (stalledCleanupIsError : Bool) : Pair α → PairAct α → Pair α → Prop where
  | cancelEnclosing (pair : Pair α) : Step stalledCleanupIsError pair .cancelEnclosing { pair with enclosing := true }
  | closeAbove {pair : Pair α} {scope : PairScope} (exists_ : scope ∈ pair.created) :
      Step stalledCleanupIsError pair (.closeAbove scope) (pair.closeScope scope)
  | startCancelled {pair : Pair α} (starts : pair.parent = .starting) (cancelled : pair.enclosing = true) :
      Step stalledCleanupIsError pair .start
        { pair with parent := .returned [] .cancelled (.error (.mk .cancelled [])) (.error (.mk .cancelled [])) }
  | startLive {pair : Pair α} (starts : pair.parent = .starting) (live : pair.enclosing = false) :
      Step stalledCleanupIsError pair .start { pair with parent := .creating }
  | create {pair : Pair α} {scope : PairScope} (creates : pair.parent = .creating)
      (isNext : nextScope pair.created = some scope) :
      Step stalledCleanupIsError pair .create
        { pair with
          created := pair.created ++ [scope]
          parent := if scope = .branch .right then .spawning .left else .creating }
  /-- The guards of the scopes so far are dropped, the last one first. -/
  | refuseScope {pair : Pair α} (error : Failure) (creates : pair.parent = .creating) :
      Step stalledCleanupIsError pair (.refuse error)
        { pair with parent := .closing pair.created.reverse [] true .refused (.error error) }
  | spawn {pair : Pair α} {side : Side} (spawns : pair.parent = .spawning side) :
      Step stalledCleanupIsError pair .spawn
        { pair.setBranch side .preparing with
          parent := if side = .left then .spawning .right else .receiving none false }
  /-- When the right task is refused, the gate is aborted. -/
  | refuseTask {pair : Pair α} {side : Side} (error : Failure) (spawns : pair.parent = .spawning side) :
      Step stalledCleanupIsError pair (.refuse error)
        ({ pair with aborted := pair.aborted || side = Side.right }.stop .refused (.error error))
  | prepare {pair : Pair α} {side : Side} (outcome : Except Failure Unit) (prepares : pair.branch side = .preparing) :
      Step stalledCleanupIsError pair (.prepare side outcome) (pair.setBranch side (.prepared outcome))
  | arrive {pair : Pair α} {side : Side} {outcome : Except Failure Unit} (prepared : pair.branch side = .prepared outcome) :
      Step stalledCleanupIsError pair (.arrive side)
        { pair.setBranch side (.waiting outcome) with arrived := pair.arrived + 1 }
  | passAborted {pair : Pair α} {side : Side} {outcome : Except Failure Unit} (waits : pair.branch side = .waiting outcome)
      (aborted : pair.aborted = true) :
      Step stalledCleanupIsError pair (.pass side)
        (pair.setBranch side (.finished (.error (.internal "parallel pair preparation aborted"))))
  | passReady {pair : Pair α} {side : Side} (waits : pair.branch side = .waiting (.ok ())) (open_ : pair.arrived = 2)
      (kept : pair.aborted = false) : Step stalledCleanupIsError pair (.pass side) (pair.setBranch side .running)
  | passFailed {pair : Pair α} {side : Side} {error : Failure} (waits : pair.branch side = .waiting (.error error))
      (open_ : pair.arrived = 2) (kept : pair.aborted = false) :
      Step stalledCleanupIsError pair (.pass side) (pair.setBranch side (.finished (.error error)))
  | finish {pair : Pair α} {side : Side} (result : Except Failure α) (runs : pair.branch side = .running) :
      Step stalledCleanupIsError pair (.finish side result) (pair.setBranch side (.finished result))
  | send {pair : Pair α} {side : Side} {result : Except Failure α} (finished : pair.branch side = .finished result) :
      Step stalledCleanupIsError pair (.send side)
        { pair.setBranch side .sent with
          queue := pair.queue ++ [(side, result)]
          history := pair.history ++ [(side, result)] }
  | checkCancelled {pair : Pair α} {first : Option (Side × α)} (receives : pair.parent = .receiving first false)
      (cancelled : pair.enclosing = true) :
      Step stalledCleanupIsError pair .check
        ((pair.cancel .joint .parentCancelled).stop .cancelled (.error (.mk .cancelled [])))
  | checkLive {pair : Pair α} {first : Option (Side × α)} (receives : pair.parent = .receiving first false)
      (live : pair.enclosing = false) :
      Step stalledCleanupIsError pair .check { pair with parent := .receiving first true }
  | receiveFirst {pair : Pair α} {side : Side} {result : Except Failure α} {queue : List (Side × Except Failure α)}
      (receives : pair.parent = .receiving none true) (arrived : pair.queue = (side, result) :: queue) :
      Step stalledCleanupIsError pair .receive ({ pair with queue }.receiveFirst side result)
  | receiveError {pair : Pair α} {first : Side × α} {side : Side} {error : Failure}
      {queue : List (Side × Except Failure α)} (receives : pair.parent = .receiving (some first) true)
      (arrived : pair.queue = (side, .error error) :: queue) :
      Step stalledCleanupIsError pair .receive ({ pair with queue }.stop .decided (.error error))
  /-- Two results of one branch would be a panic. -/
  | receiveBoth {pair : Pair α} {first : Side × α} {side : Side} {value : α} {result : Joint α}
      {queue : List (Side × Except Failure α)} (receives : pair.parent = .receiving (some first) true)
      (arrived : pair.queue = (side, .ok value) :: queue) (apart : joint first (side, value) = some result) :
      Step stalledCleanupIsError pair .receive ({ pair with queue }.stop .decided (.ok result))
  | giveUp {pair : Pair α} {first : Option (Side × α)} (receives : pair.parent = .receiving first true)
      (empty : pair.queue = []) :
      Step stalledCleanupIsError pair .giveUp { pair with parent := .receiving first false }
  | disconnect {pair : Pair α} {first : Option (Side × α)} (receives : pair.parent = .receiving first true)
      (empty : pair.queue = []) (gone : ∀ side, pair.branch side = .sent) :
      Step stalledCleanupIsError pair .disconnect
        ((pair.cancel .joint .parentCancelled).stop .decided
          (.error (.internal "parallel action workers disconnected")))
  | close {pair : Pair α} {scope : PairScope} {rest : List PairScope} {cleanup : List Failure} {drops : Bool} {why : Why}
      {decision : Except Failure (Joint α)} (tree : ScopeTree)
      (closes : pair.parent = .closing (scope :: rest) cleanup drops why decision)
      (isScope : tree.closed = decide (scope ∈ pair.closed)) :
      Step stalledCleanupIsError pair (.close tree)
        { pair.closeScope scope with
          parent := .closing rest
            (match (tree.closeWithPrimary stalledCleanupIsError none).1 with
              | .ok () => cleanup
              | .error error => cleanup ++ [error])
            drops why decision }
  | leave {pair : Pair α} {cleanup : List Failure} {drops : Bool} {why : Why} {decision : Except Failure (Joint α)}
      (closes : pair.parent = .closing [] cleanup drops why decision) :
      Step stalledCleanupIsError pair .leave
        { pair with
          parent := .returned cleanup why decision (if drops then decision else closeResult decision cleanup) }

/-- `concurrently` gives both results when both branches succeed and otherwise the error of the branch that failed first;
`race` gives the outcome of the branch that finished first. A branch fails or finishes when its result is sent. -/
def Specified (mode : PairMode) (history : List (Side × Except Failure α)) (decision : Except Failure (Joint α)) : Prop :=
  match mode with
  | .both =>
      (∃ left right, (.left, .ok left) ∈ history ∧ (.right, .ok right) ∈ history ∧ decision = .ok (.both left right)) ∨
      ∃ before side error after, history = before ++ (side, .error error) :: after ∧
        (∀ entry ∈ before, entry.2.isOk) ∧ decision = .error error
  | .race => ∃ side result rest, history = (side, result) :: rest ∧ decision = result.map (.either side)

theorem Specified.append {mode : PairMode} {history : List (Side × Except Failure α)}
    {decision : Except Failure (Joint α)} (specified : Specified mode history decision)
    (more : List (Side × Except Failure α)) : Specified mode (history ++ more) decision := by
  cases mode with
  | both =>
    rcases specified with ⟨left, right, isLeft, isRight, isBoth⟩ | ⟨before, side, error, after, rfl, fine, isError⟩
    · exact .inl ⟨left, right, List.mem_append_left _ isLeft, List.mem_append_left _ isRight, isBoth⟩
    · exact .inr ⟨before, side, error, after ++ more, by simp, fine, isError⟩
  | race =>
    obtain ⟨side, result, rest, rfl, isFirst⟩ := specified
    exact ⟨side, result, rest ++ more, by simp, isFirst⟩

end Pair

namespace PairParent

variable {α : Type}

/-- The results that the parent has received and not yet decided on. -/
def received : PairParent α → List (Side × Except Failure α)
  | receiving first _ => first.toList.map fun (side, value) => (side, .ok value)
  | _ => []

/-- The parent has not stopped. -/
def undecided : PairParent α → Bool
  | closing _ _ _ _ _ => false
  | returned _ _ _ _ => false
  | _ => true

/-- The parent has not yet spawned this task. -/
def awaits : PairParent α → Side → Bool
  | starting, _ => true
  | creating, _ => true
  | spawning .left, _ => true
  | spawning .right, side => side = .right
  | _, _ => false

end PairParent

namespace Branch

variable {α : Type}

/-- The branch has been at the gate. -/
def arrived : Branch α → Bool
  | absent => false
  | preparing => false
  | prepared _ => false
  | _ => true

/-- The branch has ended its preparation. -/
def ready : Branch α → Bool
  | absent => false
  | preparing => false
  | _ => true

/-- The branch has left the gate. -/
def passed : Branch α → Bool
  | running => true
  | finished _ => true
  | sent => true
  | _ => false

/-- The branch has failed or finished. -/
def known : Branch α → Bool
  | prepared outcome => !outcome.isOk
  | waiting outcome => !outcome.isOk
  | finished _ => true
  | sent => true
  | _ => false

end Branch

namespace Pair

variable {α : Type} {stalledCleanupIsError : Bool} {pair next_ : Pair α} {act : PairAct α}

section Channel

/-- What was sent and not received is in the channel, and no branch sends twice. -/
structure Queued (pair : Pair α) : Prop where
  sent : ∀ side result, (side, result) ∈ pair.history → pair.branch side = .sent
  kept : ∀ side, pair.branch side = .sent → ∃ result, (side, result) ∈ pair.history
  once : (pair.history.map Prod.fst).Nodup
  received : pair.parent.undecided → pair.history = pair.parent.received ++ pair.queue
  absent : ∀ side, pair.parent.awaits side → pair.branch side = .absent
  mode : ∀ first checked, pair.parent = .receiving (some first) checked → pair.mode = .both

theorem initial_queued (mode : PairMode) (enclosing : Bool) : Queued (initial mode enclosing : Pair α) :=
  ⟨nofun, nofun, .nil, fun _ => rfl, fun _ _ => rfl, nofun⟩

/-- A branch goes on, without sending anything. -/
theorem Queued.setBranch (queued : pair.Queued) {side : Side} {branch : Branch α}
    (present : pair.branch side ≠ .absent) (before : pair.branch side ≠ .sent) (after : branch ≠ .sent) :
    Queued (pair.setBranch side branch) := by
  refine ⟨fun other result member => ?_, fun other isSent => ?_, queued.once, queued.received, fun other awaits => ?_,
    queued.mode⟩
  · have isSent := queued.sent other result member
    by_cases same : other = side
    · exact absurd (same ▸ isSent) before
    · simp only [Pair.setBranch, Function.update_of_ne same, isSent]
  · by_cases same : other = side
    · simp only [Pair.setBranch, same, Function.update_self] at isSent
      exact absurd isSent after
    · simp only [Pair.setBranch, Function.update_of_ne same] at isSent
      exact queued.kept other isSent
  · have isAbsent := queued.absent other awaits
    by_cases same : other = side
    · exact absurd (same ▸ isAbsent) present
    · simp only [Pair.setBranch, Function.update_of_ne same, isAbsent]

/-- A branch sends its result. -/
theorem Queued.send (queued : pair.Queued) {side : Side} {result : Except Failure α}
    (finished : pair.branch side = .finished result) : Queued
      { pair.setBranch side .sent with
        queue := pair.queue ++ [(side, result)]
        history := pair.history ++ [(side, result)] } := by
  have fresh : ∀ result, (side, result) ∉ pair.history := by
    intro result member
    have isSent := queued.sent side result member
    rw [finished] at isSent
    cases isSent
  refine ⟨fun other result' member => ?_, fun other isSent => ?_, ?_, fun undecided => ?_, fun other awaits => ?_,
    queued.mode⟩
  · by_cases same : other = side
    · simp only [Pair.setBranch, same, Function.update_self]
    · simp only [Pair.setBranch, Function.update_of_ne same]
      refine queued.sent other result' ((List.mem_append.mp member).resolve_right fun isLast => same ?_)
      exact congrArg Prod.fst (List.mem_singleton.mp isLast)
  · by_cases same : other = side
    · exact ⟨result, same ▸ List.mem_append_right _ (List.mem_singleton_self _)⟩
    · simp only [Pair.setBranch, Function.update_of_ne same] at isSent
      obtain ⟨result', member⟩ := queued.kept other isSent
      exact ⟨result', List.mem_append_left _ member⟩
  · simp only [List.map_append, List.map_cons, List.map_nil]
    refine queued.once.append (List.nodup_singleton _) (List.disjoint_singleton.mpr fun member => ?_)
    obtain ⟨⟨other, result'⟩, isSent, rfl⟩ := List.mem_map.mp member
    exact fresh result' isSent
  · rw [queued.received undecided, List.append_assoc]
    rfl
  · have isAbsent := queued.absent other awaits
    by_cases same : other = side
    · rw [same, finished] at isAbsent
      cases isAbsent
    · simp only [Pair.setBranch, Function.update_of_ne same, isAbsent]

/-- Tokens, scopes and the gate play no role. -/
theorem Queued.frame (queued : pair.Queued) {next_ : Pair α} (branch : next_.branch = pair.branch)
    (history : next_.history = pair.history) (mode : next_.mode = pair.mode)
    (received : next_.parent.undecided → next_.history = next_.parent.received ++ next_.queue)
    (awaits : ∀ side, next_.parent.awaits side → pair.parent.awaits side)
    (first : ∀ first checked, next_.parent = .receiving (some first) checked → pair.mode = .both) : Queued next_ :=
  ⟨by rw [history, branch]; exact queued.sent, by rw [history, branch]; exact queued.kept,
    by rw [history]; exact queued.once, received,
    fun side isAwaited => by rw [branch]; exact queued.absent side (awaits side isAwaited),
    fun entry checked receives => mode.trans (first entry checked receives)⟩

@[simp] theorem closeScope_branch (pair : Pair α) (scope : PairScope) : (pair.closeScope scope).branch = pair.branch := by
  unfold closeScope
  split_ifs <;> rfl

@[simp] theorem closeScope_history (pair : Pair α) (scope : PairScope) :
    (pair.closeScope scope).history = pair.history := by
  unfold closeScope
  split_ifs <;> rfl

@[simp] theorem closeScope_queue (pair : Pair α) (scope : PairScope) : (pair.closeScope scope).queue = pair.queue := by
  unfold closeScope
  split_ifs <;> rfl

@[simp] theorem closeScope_mode (pair : Pair α) (scope : PairScope) : (pair.closeScope scope).mode = pair.mode := by
  unfold closeScope
  split_ifs <;> rfl

@[simp] theorem closeScope_parent (pair : Pair α) (scope : PairScope) : (pair.closeScope scope).parent = pair.parent := by
  unfold closeScope
  split_ifs <;> rfl

@[simp] theorem receiveFirst_branch (pair : Pair α) (side : Side) (result : Except Failure α) :
    (pair.receiveFirst side result).branch = pair.branch := by
  unfold receiveFirst
  split <;> rfl

@[simp] theorem receiveFirst_history (pair : Pair α) (side : Side) (result : Except Failure α) :
    (pair.receiveFirst side result).history = pair.history := by
  unfold receiveFirst
  split <;> rfl

@[simp] theorem receiveFirst_queue (pair : Pair α) (side : Side) (result : Except Failure α) :
    (pair.receiveFirst side result).queue = pair.queue := by
  unfold receiveFirst
  split <;> rfl

@[simp] theorem receiveFirst_mode (pair : Pair α) (side : Side) (result : Except Failure α) :
    (pair.receiveFirst side result).mode = pair.mode := by
  unfold receiveFirst
  split <;> simp [*, stop, cancel]

/-- Only the first success of two leaves the parent undecided. -/
theorem receiveFirst_undecided {side : Side} {result : Except Failure α}
    (undecided : (pair.receiveFirst side result).parent.undecided) :
    ∃ value, result = .ok value ∧ pair.mode = .both ∧
      (pair.receiveFirst side result).parent = .receiving (some (side, value)) false := by
  unfold receiveFirst at undecided ⊢
  split at undecided
  · cases undecided
  · cases undecided
  · rename_i value isBoth
    exact ⟨value, rfl, isBoth, by simp only [isBoth]⟩

theorem Step.queued (step : Step stalledCleanupIsError pair act next_) (queued : pair.Queued) : next_.Queued := by
  cases step with
  | cancelEnclosing => exact queued.frame rfl rfl rfl queued.received (fun _ => id) queued.mode
  | closeAbove => exact queued.frame (by simp) (by simp) (by simp) (by simpa using queued.received) (by simp) (by simpa using queued.mode)
  | startCancelled => exact queued.frame rfl rfl rfl nofun nofun nofun
  | startLive starts =>
    refine queued.frame rfl rfl rfl (fun _ => ?_) (fun _ _ => by rw [starts]; rfl) nofun
    simpa [starts, PairParent.received] using queued.received (by rw [starts]; rfl)
  | create creates isNext =>
    have received : pair.history = pair.queue := by
      simpa [creates, PairParent.received] using queued.received (by rw [creates]; rfl)
    refine queued.frame rfl rfl rfl (fun _ => ?_) (fun _ _ => by rw [creates]; rfl) fun _ _ receives => ?_
    · dsimp only
      split_ifs <;> exact received
    · dsimp only at receives
      split_ifs at receives
  | refuseScope => exact queued.frame rfl rfl rfl nofun nofun nofun
  | @spawn side spawns =>
    have isAbsent : pair.branch side = .absent := queued.absent side (by rw [spawns]; cases side <;> rfl)
    have received : pair.history = pair.queue := by
      simpa [spawns, PairParent.received] using queued.received (by rw [spawns]; rfl)
    have notSent : ∀ result, (side, result) ∉ pair.history := by
      intro result member
      have isSent := queued.sent side result member
      rw [isAbsent] at isSent
      cases isSent
    refine ⟨fun other result member => ?_, fun other isSent => ?_, queued.once, fun _ => ?_, fun other awaits => ?_, ?_⟩
    · by_cases same : other = side
      · exact absurd (same ▸ member) (notSent result)
      · simpa only [setBranch, Function.update_of_ne same] using queued.sent other result member
    · by_cases same : other = side
      · simp only [setBranch, same, Function.update_self] at isSent
        cases isSent
      · simp only [setBranch, Function.update_of_ne same] at isSent
        exact queued.kept other isSent
    · dsimp only
      split_ifs <;> exact received
    · cases side
      · cases other
        · simp [PairParent.awaits] at awaits
        · exact queued.absent .right (by rw [spawns]; rfl)
      · simp [PairParent.awaits] at awaits
    · intro first checked receives
      dsimp only at receives
      split_ifs at receives <;> cases receives
  | refuseTask => exact queued.frame rfl rfl rfl nofun nofun nofun
  | prepare outcome prepares =>
    exact queued.setBranch (by rw [prepares]; nofun) (by rw [prepares]; nofun) nofun
  | @arrive side outcome prepared =>
    have waiting : Queued (pair.setBranch side (.waiting outcome)) :=
      queued.setBranch (by rw [prepared]; nofun) (by rw [prepared]; nofun) nofun
    exact waiting.frame rfl rfl rfl waiting.received (fun _ => id) waiting.mode
  | passAborted waits | passReady waits | passFailed waits =>
    exact queued.setBranch (by rw [waits]; nofun) (by rw [waits]; nofun) nofun
  | finish result runs => exact queued.setBranch (by rw [runs]; nofun) (by rw [runs]; nofun) nofun
  | send finished => exact queued.send finished
  | checkCancelled => exact queued.frame rfl rfl rfl nofun nofun nofun
  | @checkLive first receives =>
    refine queued.frame rfl rfl rfl (fun _ => ?_) nofun fun entry checked isFirst => ?_
    · simpa [receives, PairParent.received] using queued.received (by rw [receives]; rfl)
    · cases isFirst
      exact queued.mode entry false receives
  | @receiveFirst side result queue receives arrived =>
    have received : pair.history = (side, result) :: queue := by
      simpa [receives, arrived, PairParent.received] using queued.received (by rw [receives]; rfl)
    refine queued.frame (by simp) (by simp) (by simp) (fun undecided => ?_) (fun _ awaits => ?_) fun first checked isFirst => ?_
    · obtain ⟨value, rfl, -, parent⟩ := receiveFirst_undecided undecided
      rw [parent, receiveFirst_queue, receiveFirst_history]
      exact received
    · have undecided : ({ pair with queue }.receiveFirst side result).parent.undecided := by
        revert awaits
        cases ({ pair with queue }.receiveFirst side result).parent <;> simp [PairParent.awaits, PairParent.undecided]
      obtain ⟨value, rfl, -, parent⟩ := receiveFirst_undecided undecided
      simp [parent, PairParent.awaits] at awaits
    · obtain ⟨value, rfl, isBoth, -⟩ := receiveFirst_undecided (by rw [isFirst]; rfl)
      exact isBoth
  | receiveError receives arrived => exact queued.frame rfl rfl rfl nofun nofun nofun
  | receiveBoth => exact queued.frame rfl rfl rfl nofun nofun nofun
  | @giveUp first receives empty =>
    refine queued.frame rfl rfl rfl (fun _ => ?_) nofun fun entry checked isFirst => ?_
    · simpa [receives, PairParent.received] using queued.received (by rw [receives]; rfl)
    · cases isFirst
      exact queued.mode entry true receives
  | disconnect => exact queued.frame rfl rfl rfl nofun nofun nofun
  | close => exact queued.frame (by simp) (by simp) (by simp) nofun nofun nofun
  | leave => exact queued.frame rfl rfl rfl nofun nofun nofun

end Channel

section Scopes

/-- The scopes of a pair, in order of creation. -/
def allScopes : List PairScope := [.joint, .branch .left, .branch .right]

/-- Which scopes there are, and which of them are closed already when the parent is in the middle of closing. -/
def ScopeStage (created closed : List PairScope) : PairParent α → Prop
  | .starting => created = []
  | .creating => created = [] ∨ created = [.joint] ∨ created = [.joint, .branch .left]
  | .spawning _ | .receiving _ _ => created = allScopes
  | .closing rest _ _ why _ =>
      created.Nodup ∧ rest ⊆ created ∧ created ⊆ closed ++ rest ∧ (why = .decided → created = allScopes)
  | .returned _ why _ _ => created.Nodup ∧ created ⊆ closed ∧ (why = .decided → created = allScopes)

structure Scopes (pair : Pair α) : Prop where
  once : pair.closed.Nodup
  created : pair.closed ⊆ pair.created
  stage : ScopeStage pair.created pair.closed pair.parent

theorem initial_scopes (mode : PairMode) (enclosing : Bool) : Scopes (initial mode enclosing : Pair α) :=
  ⟨.nil, List.Subset.refl _, rfl⟩

@[simp] theorem closeScope_created (pair : Pair α) (scope : PairScope) :
    (pair.closeScope scope).created = pair.created := by
  unfold closeScope
  split_ifs <;> rfl

@[simp] theorem receiveFirst_created (pair : Pair α) (side : Side) (result : Except Failure α) :
    (pair.receiveFirst side result).created = pair.created := by
  unfold receiveFirst
  split <;> rfl

@[simp] theorem receiveFirst_closed (pair : Pair α) (side : Side) (result : Except Failure α) :
    (pair.receiveFirst side result).closed = pair.closed := by
  unfold receiveFirst
  split <;> rfl

theorem mem_closed_closeScope {scope other : PairScope} :
    other ∈ (pair.closeScope scope).closed ↔ other ∈ pair.closed ∨ other = scope := by
  unfold closeScope
  split_ifs with isClosed
  · exact ⟨.inl, fun either => either.elim id fun same => same ▸ isClosed⟩
  · rw [List.mem_append, List.mem_singleton]

/-- Closing a scope again does nothing, so each is closed once. -/
theorem Scopes.nodup_closeScope (scopes : pair.Scopes) (scope : PairScope) : (pair.closeScope scope).closed.Nodup := by
  unfold closeScope
  split_ifs with isClosed
  · exact scopes.once
  · exact scopes.once.append (List.nodup_singleton _) (List.disjoint_singleton.mpr isClosed)

theorem Scopes.closed_closeScope (scopes : pair.Scopes) {scope : PairScope} (exists_ : scope ∈ pair.created) :
    (pair.closeScope scope).closed ⊆ pair.created := by
  intro other member
  rcases mem_closed_closeScope.mp member with isClosed | rfl
  · exact scopes.created isClosed
  · exact exists_

/-- More scopes closed, and the parent where it was. -/
theorem ScopeStage.mono {created closed closed' : List PairScope} {parent : PairParent α}
    (stage : ScopeStage created closed parent) (more : closed ⊆ closed') : ScopeStage created closed' parent := by
  cases parent with
  | closing =>
    obtain ⟨once, rest, all, decided⟩ := stage
    exact ⟨once, rest, fun scope member => List.mem_append.mpr
      ((List.mem_append.mp (all member)).imp_left fun isClosed => more isClosed), decided⟩
  | returned => exact ⟨stage.1, fun scope member => more (stage.2.1 member), stage.2.2⟩
  | starting | creating | spawning | receiving => exact stage

/-- The parent moves on with all scopes there. -/
theorem Scopes.move (scopes : pair.Scopes) {next_ : Pair α} (all : pair.created = allScopes)
    (created : next_.created = pair.created) (closed : next_.closed = pair.closed)
    (stage : ScopeStage allScopes pair.closed next_.parent) : Scopes next_ :=
  ⟨closed ▸ scopes.once, by rw [closed, created]; exact scopes.created, by rw [closed, created, all]; exact stage⟩

theorem stage_stop (closed : List PairScope) (why : Why) (decision : Except Failure (Joint α)) :
    ScopeStage allScopes closed (.closing closingOrder [] false why decision : PairParent α) :=
  ⟨by decide, by decide, fun _ member => List.mem_append_right _ (by revert member; decide +revert), fun _ => rfl⟩

theorem Step.scopes (step : Step stalledCleanupIsError pair act next_) (scopes : pair.Scopes) : next_.Scopes := by
  have stage := scopes.stage
  cases step with
  | cancelEnclosing => exact ⟨scopes.once, scopes.created, stage⟩
  | closeAbove exists_ =>
    refine ⟨scopes.nodup_closeScope _, by simpa using scopes.closed_closeScope exists_, ?_⟩
    rw [closeScope_created, closeScope_parent]
    exact stage.mono fun _ isClosed => mem_closed_closeScope.mpr (.inl isClosed)
  | startCancelled starts =>
    rw [starts] at stage
    refine ⟨scopes.once, scopes.created, ?_, ?_, nofun⟩ <;> simp [show pair.created = [] from stage]
  | startLive starts =>
    rw [starts] at stage
    exact ⟨scopes.once, scopes.created, .inl stage⟩
  | @create scope creates isNext =>
    rw [creates] at stage
    refine ⟨scopes.once, fun _ isClosed => List.mem_append_left _ (scopes.created isClosed), ?_⟩
    rcases stage with none | one | two
    · rw [none] at isNext
      cases isNext
      exact .inr (.inl (by simp [none]))
    · rw [one] at isNext
      cases isNext
      exact .inr (.inr (by simp [one]))
    · rw [two] at isNext
      cases isNext
      simp [two, ScopeStage, allScopes]
  | refuseScope error creates =>
    rw [creates] at stage
    refine ⟨scopes.once, scopes.created, ?_, fun _ member => List.mem_reverse.mp member, fun _ member =>
      List.mem_append_right _ (List.mem_reverse.mpr member), nofun⟩
    rcases stage with none | one | two
    · simp [none]
    · simp [one]
    · simp [two]
  | @spawn side spawns =>
    rw [spawns] at stage
    refine scopes.move stage rfl rfl ?_
    dsimp only
    split_ifs <;> rfl
  | refuseTask error spawns =>
    rw [spawns] at stage
    exact scopes.move stage rfl rfl (stage_stop _ _ _)
  | prepare | arrive | passAborted | passReady | passFailed | finish | send => exact ⟨scopes.once, scopes.created, stage⟩
  | checkCancelled receives | disconnect receives =>
    rw [receives] at stage
    exact scopes.move stage rfl rfl (stage_stop _ _ _)
  | checkLive receives | giveUp receives =>
    rw [receives] at stage
    exact scopes.move stage rfl rfl rfl
  | @receiveFirst side result queue receives arrived =>
    rw [receives] at stage
    refine scopes.move stage (by simp) (by simp) ?_
    unfold Pair.receiveFirst
    split
    · exact stage_stop _ _ _
    · exact stage_stop _ _ _
    · rfl
  | receiveError receives | receiveBoth receives =>
    rw [receives] at stage
    exact scopes.move stage rfl rfl (stage_stop _ _ _)
  | @close scope rest cleanup drops why decision tree closes isScope =>
    rw [closes] at stage
    obtain ⟨once, remaining, all, decided⟩ := stage
    refine ⟨scopes.nodup_closeScope _, ?_, ?_⟩
    · simpa using scopes.closed_closeScope (remaining (List.mem_cons_self ..))
    · rw [closeScope_created]
      refine ⟨once, fun other member => remaining (List.mem_cons_of_mem _ member), fun other member => ?_, decided⟩
      rw [List.mem_append, mem_closed_closeScope]
      have where_ := all member
      rw [List.mem_append, List.mem_cons] at where_
      tauto
  | leave closes =>
    rw [closes] at stage
    obtain ⟨once, -, all, decided⟩ := stage
    exact ⟨scopes.once, scopes.created, once, by simpa using all, decided⟩

/-- At the end each scope there is has been closed, and once. -/
theorem Scopes.closed_of_returned (scopes : pair.Scopes) {cleanup : List Failure} {why : Why}
    {decision result : Except Failure (Joint α)} (returned : pair.parent = .returned cleanup why decision result) :
    pair.closed.Perm pair.created ∧ (why = .decided → pair.created = allScopes) := by
  have stage := scopes.stage
  rw [returned] at stage
  obtain ⟨once, all, decided⟩ := stage
  exact ⟨(List.perm_ext_iff_of_nodup scopes.once once).mpr fun scope => ⟨fun member => scopes.created member,
    fun member => all member⟩, decided⟩

end Scopes

section Outcome

/-- The branch that has lost: the other one, once the first result ends a race or is an error. -/
def Loser (pair : Pair α) (side : Side) : Prop :=
  ∃ first ∈ pair.history.head?, (pair.mode = .race ∨ first.2.isOk = false) ∧ side = first.1.other

/-- The decision is the right one for why the parent has stopped, and the loser is cancelled. -/
def Judged (pair : Pair α) (decision : Except Failure (Joint α)) : Why → Prop
  | .refused => ∃ error, decision = .error error
  | .cancelled => pair.enclosing = true ∧ decision = .error (.mk .cancelled [])
  | .decided => Specified pair.mode pair.history decision ∧
      ∀ side, pair.Loser side → (pair.token (.branch side)).isSome

/-- What the parent has decided is right, and what it returns is that with the errors of closing. -/
structure Decided (pair : Pair α) : Prop where
  closing : ∀ rest cleanup drops why decision, pair.parent = .closing rest cleanup drops why decision →
    pair.Judged decision why ∧ (drops = true → why = .refused)
  returned : ∀ cleanup why decision result, pair.parent = .returned cleanup why decision result →
    pair.Judged decision why ∧ (result = closeResult decision cleanup ∨ why = .refused ∧ result = decision)

theorem initial_decided (mode : PairMode) (enclosing : Bool) : Decided (initial mode enclosing : Pair α) :=
  ⟨nofun, nofun⟩

/-- Cancellations and results that come later change nothing. -/
theorem Judged.mono {decision : Except Failure (Joint α)} {why : Why} (judged : pair.Judged decision why)
    (mode : next_.mode = pair.mode) {more : List (Side × Except Failure α)} (history : next_.history = pair.history ++ more)
    (enclosing : pair.enclosing = true → next_.enclosing = true)
    (token : ∀ scope, (pair.token scope).isSome → (next_.token scope).isSome) : next_.Judged decision why := by
  cases why with
  | refused => exact judged
  | cancelled => exact ⟨enclosing judged.1, judged.2⟩
  | decided =>
    obtain ⟨specified, cancelled⟩ := judged
    refine ⟨by rw [mode, history]; exact specified.append more, fun side loses => token _ (cancelled side ?_)⟩
    obtain ⟨first, isFirst, lost, isOther⟩ := loses
    refine ⟨first, ?_, mode ▸ lost, isOther⟩
    have nonempty : pair.history ≠ [] := by
      rintro empty
      rw [empty] at specified
      unfold Specified at specified
      split at specified
      · rcases specified with ⟨_, _, member, -⟩ | ⟨before, side, error, after, isEmpty, -⟩
        · cases member
        · simp at isEmpty
      · obtain ⟨side, result, rest, isEmpty, -⟩ := specified
        cases isEmpty
    rw [history, List.head?_append_of_ne_nil _ nonempty] at isFirst
    exact isFirst

theorem Decided.mono (decided : pair.Decided) (parent : next_.parent = pair.parent) (mode : next_.mode = pair.mode)
    {more : List (Side × Except Failure α)} (history : next_.history = pair.history ++ more)
    (enclosing : pair.enclosing = true → next_.enclosing = true)
    (token : ∀ scope, (pair.token scope).isSome → (next_.token scope).isSome) : Decided next_ := by
  refine ⟨fun rest cleanup drops why decision closes => ?_, fun cleanup why decision result returned => ?_⟩
  · obtain ⟨judged, dropped⟩ := decided.closing rest cleanup drops why decision (parent ▸ closes)
    exact ⟨judged.mono mode history enclosing token, dropped⟩
  · obtain ⟨judged, reported⟩ := decided.returned cleanup why decision result (parent ▸ returned)
    exact ⟨judged.mono mode history enclosing token, reported⟩

theorem Decided.ofUndecided (undecided : next_.parent.undecided) : Decided next_ := by
  refine ⟨fun rest cleanup drops why decision closes => ?_, fun cleanup why decision result returned => ?_⟩
  · rw [closes] at undecided
    cases undecided
  · rw [returned] at undecided
    cases undecided

theorem Decided.ofStop {why : Why} {decision : Except Failure (Joint α)} (judged : (pair.stop why decision).Judged decision why) :
    Decided (pair.stop why decision) := by
  refine ⟨fun rest cleanup drops why' decision' closes => ?_, fun _ _ _ _ returned => by cases returned⟩
  cases closes
  exact ⟨judged, nofun⟩

theorem cancel_isSome (pair : Pair α) {scope other : PairScope} (reason : CancelReason)
    (isSome : (pair.token other).isSome) : ((pair.cancel scope reason).token other).isSome := by
  obtain ⟨first, isFirst⟩ := Option.isSome_iff_exists.mp isSome
  simp only [cancel, isFirst]
  split_ifs <;> rfl

theorem cancel_self (pair : Pair α) (scope : PairScope) (reason : CancelReason) :
    ((pair.cancel scope reason).token scope).isSome := by
  simp only [cancel, if_true]
  cases pair.token scope <;> rfl

theorem closeScope_isSome (pair : Pair α) (scope : PairScope) {other : PairScope}
    (isSome : (pair.token other).isSome) : ((pair.closeScope scope).token other).isSome := by
  unfold closeScope
  split_ifs
  · exact isSome
  · exact pair.cancel_isSome _ isSome

@[simp] theorem closeScope_enclosing (pair : Pair α) (scope : PairScope) :
    (pair.closeScope scope).enclosing = pair.enclosing := by
  unfold closeScope
  split_ifs <;> rfl

/-- The first result decides a race, and an error decides at once. -/
theorem decided_receiveFirst {side : Side} {result : Except Failure α} {rest : List (Side × Except Failure α)}
    (history : pair.history = (side, result) :: rest) : Decided (pair.receiveFirst side result) := by
  have loser : ∀ {token : PairScope → Option CancelReason} {other : Side}, (token (.branch side.other)).isSome →
      Loser { pair with token } other → (token (.branch other)).isSome := by
    rintro token other cancelled ⟨first, isFirst, -, rfl⟩
    rw [show ({ pair with token } : Pair α).history = (side, result) :: rest from history] at isFirst
    cases isFirst
    exact cancelled
  unfold receiveFirst
  split
  · rename_i isRace
    refine .ofStop ⟨?_, fun other loses => loser (cancel_self _ _ _) loses⟩
    simp only [Specified, stop, cancel, isRace]
    exact ⟨side, _, rest, history, rfl⟩
  · rename_i error isBoth
    refine .ofStop ⟨?_, fun other loses => loser (cancel_self _ _ _) loses⟩
    simp only [Specified, stop, cancel, isBoth]
    exact .inr ⟨[], side, error, rest, history, nofun, rfl⟩
  · exact .ofUndecided rfl

/-- After a success of `concurrently` the second result decides. -/
theorem decided_receiveSecond {first second : Side × Except Failure α} {value : α} {rest : List (Side × Except Failure α)}
    {decision : Except Failure (Joint α)} (history : pair.history = first :: second :: rest) (success : first.2 = .ok value)
    (isBoth : pair.mode = .both) (specified : Specified .both pair.history decision) :
    Decided (pair.stop .decided decision) := by
  refine .ofStop ⟨by rw [show (pair.stop .decided decision).mode = .both from isBoth]; exact specified, ?_⟩
  rintro other ⟨entry, isFirst, isRace | isError, -⟩
  · rw [show (pair.stop .decided decision).mode = .both from isBoth] at isRace
    cases isRace
  · rw [show (pair.stop .decided decision).history = _ from history] at isFirst
    cases isFirst
    rw [success] at isError
    cases isError

theorem Step.decided (step : Step stalledCleanupIsError pair act next_) (queued : pair.Queued) (decided : pair.Decided) :
    next_.Decided := by
  cases step with
  | cancelEnclosing => exact decided.mono rfl rfl (List.append_nil _).symm (fun _ => rfl) (fun _ => id)
  | closeAbove =>
    exact decided.mono (by simp) (by simp) (show _ = pair.history ++ [] by simp) (by simp) fun _ => pair.closeScope_isSome _
  | startCancelled starts cancelled =>
    refine ⟨nofun, fun _ _ _ _ returned => ?_⟩
    cases returned
    exact ⟨⟨cancelled, rfl⟩, .inl rfl⟩
  | startLive => exact .ofUndecided rfl
  | create => exact .ofUndecided (by dsimp only; split_ifs <;> rfl)
  | refuseScope error =>
    refine ⟨fun _ _ _ _ _ closes => ?_, nofun⟩
    cases closes
    exact ⟨⟨error, rfl⟩, fun _ => rfl⟩
  | spawn => exact .ofUndecided (by dsimp only; split_ifs <;> rfl)
  | refuseTask error => exact .ofStop ⟨error, rfl⟩
  | prepare | arrive | passAborted | passReady | passFailed | finish =>
    exact decided.mono rfl rfl (List.append_nil _).symm id (fun _ => id)
  | send => exact decided.mono rfl rfl rfl id (fun _ => id)
  | checkCancelled receives cancelled => exact .ofStop ⟨cancelled, rfl⟩
  | checkLive => exact .ofUndecided rfl
  | @receiveFirst side result queue receives arrived =>
    refine @decided_receiveFirst _ { pair with queue } side result queue ?_
    simpa [receives, arrived, PairParent.received] using queued.received (by rw [receives]; rfl)
  | @receiveError first side error queue receives arrived =>
    have history : pair.history = (first.1, .ok first.2) :: (side, .error error) :: queue := by
      simpa [receives, arrived, PairParent.received] using queued.received (by rw [receives]; rfl)
    refine decided_receiveSecond history rfl (queued.mode first true receives) (.inr ⟨[(first.1, .ok first.2)], ?_⟩)
    exact ⟨side, error, queue, history, by simp [Except.isOk, Except.toBool], rfl⟩
  | @receiveBoth first side value result queue receives arrived apart =>
    have history : pair.history = (first.1, .ok first.2) :: (side, .ok value) :: queue := by
      simpa [receives, arrived, PairParent.received] using queued.received (by rw [receives]; rfl)
    refine decided_receiveSecond history rfl (queued.mode first true receives) (.inl ?_)
    obtain ⟨firstSide, firstValue⟩ := first
    rw [show ({ pair with queue } : Pair α).history = _ from history]
    cases firstSide <;> cases side <;> simp only [joint, Option.some.injEq, reduceCtorEq] at apart
    · exact ⟨firstValue, value, by simp, by simp, apart ▸ rfl⟩
    · exact ⟨value, firstValue, by simp, by simp, apart ▸ rfl⟩
  | giveUp => exact .ofUndecided rfl
  | @disconnect first receives empty gone =>
    have history : pair.history = first.toList.map fun entry => (entry.1, .ok entry.2) := by
      simpa [receives, empty, PairParent.received] using queued.received (by rw [receives]; rfl)
    obtain ⟨left, isLeft⟩ := queued.kept .left (gone .left)
    obtain ⟨right, isRight⟩ := queued.kept .right (gone .right)
    rw [history] at isLeft isRight
    cases first with
    | none => cases isLeft
    | some first =>
      have sameLeft : Side.left = first.1 := congrArg Prod.fst (List.mem_singleton.mp isLeft)
      have sameRight : Side.right = first.1 := congrArg Prod.fst (List.mem_singleton.mp isRight)
      cases sameLeft.trans sameRight.symm
  | @close scope rest cleanup drops why decision tree closes isScope =>
    have judged := decided.closing _ _ _ _ _ closes
    refine ⟨fun rest cleanup drops why decision closes => ?_, nofun⟩
    cases closes
    refine ⟨judged.1.mono (by simp) (show _ = pair.history ++ [] by simp) (by simp) fun _ => pair.closeScope_isSome _,
      judged.2⟩
  | leave closes =>
    have judged := decided.closing _ _ _ _ _ closes
    refine ⟨nofun, fun cleanup why decision result returned => ?_⟩
    cases returned
    refine ⟨judged.1, ?_⟩
    split_ifs with drops
    · exact .inr ⟨judged.2 drops, rfl⟩
    · exact .inl rfl

end Outcome

section Gate

/-- How many branches have been at the gate. -/
def gateCount (branch : Side → Branch α) : ℕ := (branch .left).arrived.toNat + (branch .right).arrived.toNat

theorem gateCount_update (branch : Side → Branch α) (side : Side) (after : Branch α) :
    gateCount (Function.update branch side after) + (branch side).arrived.toNat =
      gateCount branch + after.arrived.toNat := by
  cases side <;> simp only [gateCount, Function.update_self, ne_eq, reduceCtorEq, not_false_eq_true,
    Function.update_of_ne] <;> omega

theorem gateCount_of_side (branch : Side → Branch α) (side : Side) :
    gateCount branch = (branch side).arrived.toNat + (branch side.other).arrived.toNat := by
  cases side
  · rfl
  · exact Nat.add_comm _ _

structure Gated (pair : Pair α) : Prop where
  count : pair.arrived = gateCount pair.branch
  kept : pair.aborted = true → pair.parent.undecided = false
  passed : ∀ side, (pair.branch side).passed → pair.aborted = true ∨ pair.arrived = 2
  present : ∀ side, pair.parent.undecided → pair.parent.awaits side = false → pair.branch side ≠ .absent

theorem initial_gated (mode : PairMode) (enclosing : Bool) : Gated (initial mode enclosing : Pair α) :=
  ⟨rfl, nofun, nofun, fun _ _ awaits => by cases awaits⟩

/-- The parent moves on. -/
theorem Gated.ofParent (gated : pair.Gated) {next_ : Pair α} (branch : next_.branch = pair.branch)
    (arrived : next_.arrived = pair.arrived) (aborted : next_.aborted = true → pair.aborted = true ∨ next_.parent.undecided = false)
    (kept : pair.aborted = true → next_.aborted = true)
    (undecided : next_.parent.undecided → pair.parent.undecided)
    (awaits : ∀ side, next_.parent.undecided → next_.parent.awaits side = false → pair.parent.awaits side = false) :
    Gated next_ := by
  refine ⟨by rw [arrived, branch]; exact gated.count, fun isAborted => ?_, fun side passed => ?_, fun side live spawned => ?_⟩
  · refine (aborted isAborted).elim (fun before => ?_) id
    by_contra live
    rw [Bool.not_eq_false] at live
    have stopped := gated.kept before
    rw [undecided live] at stopped
    cases stopped
  · rw [branch] at passed
    rw [arrived]
    exact (gated.passed side passed).imp_left kept
  · rw [branch]
    exact gated.present side (undecided live) (awaits side live spawned)

/-- A branch goes on. -/
theorem Gated.setBranch (gated : pair.Gated) {side : Side} {branch : Branch α} (present : branch ≠ .absent)
    (arrived : branch.arrived = (pair.branch side).arrived)
    (passed : branch.passed → (pair.branch side).passed ∨ pair.aborted = true ∨ pair.arrived = 2) :
    Gated (pair.setBranch side branch) := by
  refine ⟨?_, gated.kept, fun other isPassed => ?_, fun other live spawned => ?_⟩
  · have count := gateCount_update pair.branch side branch
    rw [arrived] at count
    exact gated.count.trans (Nat.add_right_cancel count).symm
  · by_cases same : other = side
    · simp only [Pair.setBranch, same, Function.update_self] at isPassed
      exact (passed isPassed).elim (gated.passed side) id
    · simp only [Pair.setBranch, Function.update_of_ne same] at isPassed
      exact gated.passed other isPassed
  · by_cases same : other = side
    · simpa only [Pair.setBranch, same, Function.update_self] using present
    · simp only [Pair.setBranch, Function.update_of_ne same]
      exact gated.present other live spawned

@[simp] theorem closeScope_arrived (pair : Pair α) (scope : PairScope) :
    (pair.closeScope scope).arrived = pair.arrived := by
  unfold closeScope
  split_ifs <;> rfl

@[simp] theorem closeScope_aborted (pair : Pair α) (scope : PairScope) :
    (pair.closeScope scope).aborted = pair.aborted := by
  unfold closeScope
  split_ifs <;> rfl

@[simp] theorem receiveFirst_arrived (pair : Pair α) (side : Side) (result : Except Failure α) :
    (pair.receiveFirst side result).arrived = pair.arrived := by
  unfold receiveFirst
  split <;> rfl

@[simp] theorem receiveFirst_aborted (pair : Pair α) (side : Side) (result : Except Failure α) :
    (pair.receiveFirst side result).aborted = pair.aborted := by
  unfold receiveFirst
  split <;> rfl

theorem Step.gated (step : Step stalledCleanupIsError pair act next_) (queued : pair.Queued) (gated : pair.Gated) :
    next_.Gated := by
  cases step with
  | cancelEnclosing => exact gated.ofParent rfl rfl .inl id id (fun _ _ => id)
  | closeAbove => exact gated.ofParent (by simp) (by simp) (by simpa using .inl) (by simp) (by simp) (by simp)
  | startCancelled | refuseScope => exact gated.ofParent rfl rfl .inl id nofun nofun
  | startLive starts =>
    exact gated.ofParent rfl rfl .inl id (fun _ => by rw [starts]; rfl) fun _ _ awaits => by cases awaits
  | create creates =>
    refine gated.ofParent rfl rfl .inl id (fun _ => by rw [creates]; rfl) fun _ _ awaits => ?_
    dsimp only at awaits
    split_ifs at awaits <;> cases awaits
  | @spawn side spawns =>
    have isAbsent : pair.branch side = .absent := queued.absent side (by rw [spawns]; cases side <;> rfl)
    have spawned : Gated (pair.setBranch side .preparing) := gated.setBranch nofun (by rw [isAbsent]; rfl) nofun
    have live : pair.parent.undecided := by rw [spawns]; rfl
    refine ⟨spawned.count, fun isAborted => ?_, spawned.passed, fun other _ awaits => ?_⟩
    · have stopped := gated.kept isAborted
      rw [live] at stopped
      cases stopped
    · by_cases same : other = side
      · simp [setBranch, same]
      · refine spawned.present other live ?_
        cases side <;> cases other <;> simp_all [PairParent.awaits, setBranch]
  | refuseTask error => exact gated.ofParent rfl rfl (fun _ => .inr rfl) (fun before => by simp [stop, before]) nofun nofun
  | prepare outcome prepares =>
    exact gated.setBranch nofun (by rw [prepares]; rfl) nofun
  | @arrive side outcome prepared =>
    have count := gateCount_update pair.branch side (.waiting outcome)
    rw [prepared] at count
    refine ⟨(congrArg (· + 1) gated.count).trans count.symm, gated.kept, fun other passed => ?_, fun other live awaits => ?_⟩
    · by_cases same : other = side
      · simp [setBranch, same, Branch.passed] at passed
      · simp only [setBranch, Function.update_of_ne same] at passed
        -- A branch that has passed has met this one, which would have arrived before.
        refine (gated.passed other passed).imp_right fun both => ?_
        have ofSide := gateCount_of_side pair.branch side
        rw [prepared, ← gated.count, both] at ofSide
        have atMost := Bool.toNat_le (pair.branch side.other).arrived
        have none : (Branch.prepared outcome : Branch α).arrived.toNat = 0 := rfl
        omega
    · by_cases same : other = side
      · simp [setBranch, same]
      · simp only [setBranch, Function.update_of_ne same]
        exact gated.present other live awaits
  | passAborted waits aborted => exact gated.setBranch nofun (by rw [waits]; rfl) fun _ => .inr (.inl aborted)
  | passReady waits open_ | passFailed waits open_ => exact gated.setBranch nofun (by rw [waits]; rfl) fun _ => .inr (.inr open_)
  | finish result runs => exact gated.setBranch nofun (by rw [runs]; rfl) fun _ => .inl (by rw [runs]; rfl)
  | @send side result finished =>
    have sent : Gated (pair.setBranch side .sent) :=
      gated.setBranch nofun (by rw [finished]; rfl) fun _ => .inl (by rw [finished]; rfl)
    exact ⟨sent.count, sent.kept, sent.passed, sent.present⟩
  | checkCancelled | disconnect => exact gated.ofParent rfl rfl .inl id nofun nofun
  | checkLive receives | giveUp receives =>
    exact gated.ofParent rfl rfl .inl id (fun _ => by rw [receives]; rfl) fun _ _ _ => by rw [receives]; rfl
  | receiveFirst receives =>
    exact gated.ofParent (by simp) (by simp) (by simpa using .inl) (by simp) (fun _ => by rw [receives]; rfl)
      fun _ _ _ => by rw [receives]; rfl
  | receiveError receives | receiveBoth receives => exact gated.ofParent rfl rfl .inl id nofun nofun
  | close => exact gated.ofParent (by simp) (by simp) (fun _ => .inr rfl) (by simp) nofun nofun
  | leave => exact gated.ofParent rfl rfl .inl id nofun nofun

/-- The invariants of every run. -/
structure Sound (pair : Pair α) : Prop where
  queued : pair.Queued
  scopes : pair.Scopes
  gated : pair.Gated
  decided : pair.Decided

theorem initial_sound (mode : PairMode) (enclosing : Bool) : Sound (initial mode enclosing : Pair α) :=
  ⟨initial_queued mode enclosing, initial_scopes mode enclosing, initial_gated mode enclosing,
    initial_decided mode enclosing⟩

theorem Step.sound (step : Step stalledCleanupIsError pair act next_) (sound : pair.Sound) : next_.Sound :=
  ⟨step.queued sound.queued, step.scopes sound.scopes, step.gated sound.queued sound.gated,
    step.decided sound.queued sound.decided⟩

/-- What the runtime does by itself: no action makes progress, and nothing happens outside. -/
def OfRuntime : PairAct α → Prop
  | .cancelEnclosing | .closeAbove _ | .refuse _ | .prepare _ _ | .finish _ _ => False
  | _ => True

/-- A branch is ready and has not left the gate, while the other one is not ready. -/
structure Held (side : Side) (pair : Pair α) : Prop where
  kept : pair.aborted = false
  other : (pair.branch side.other).ready = false
  ready : (pair.branch side).ready = true
  before : (pair.branch side).passed = false

theorem side_cases (side other : Side) : other = side ∨ other = side.other := by
  cases side <;> cases other <;> simp [Side.other]

/-- Then the gate is closed. -/
theorem Held.arrived_ne_two {side : Side} (held : pair.Held side) (gated : pair.Gated) : pair.arrived ≠ 2 := by
  have count := gateCount_of_side pair.branch side
  have none : (pair.branch side.other).arrived = false := by
    have other := held.other
    revert other
    cases pair.branch side.other <;> simp [Branch.ready, Branch.arrived]
  have atMost := Bool.toNat_le (pair.branch side).arrived
  rw [none, ← gated.count, Bool.toNat_false] at count
  omega

/-- The runtime alone does not let such a branch go. -/
theorem Held.step {side : Side} (held : pair.Held side) (sound : pair.Sound) (runtime : OfRuntime act)
    (step : Step stalledCleanupIsError pair act next_) :
    next_.Held side ∧ ((pair.branch side).arrived = true → (next_.branch side).arrived = true) := by
  have frame : ∀ {next_ : Pair α}, next_.branch = pair.branch → next_.aborted = pair.aborted →
      next_.Held side ∧ ((pair.branch side).arrived = true → (next_.branch side).arrived = true) := by
    intro next_ branch aborted
    exact ⟨⟨aborted ▸ held.kept, branch ▸ held.other, branch ▸ held.ready, branch ▸ held.before⟩, fun here => branch ▸ here⟩
  cases step with
  | cancelEnclosing | closeAbove | refuseScope | refuseTask | prepare | finish => cases runtime
  | startCancelled | startLive | create | checkCancelled | checkLive | receiveError | receiveBoth | giveUp | disconnect
  | leave => exact frame rfl rfl
  | receiveFirst => exact frame (by simp) (by simp)
  | close => exact frame (by simp) (by simp)
  | @spawn other spawns =>
    have isAbsent : pair.branch other = .absent := sound.queued.absent other (by rw [spawns]; cases other <;> rfl)
    have apart : other ≠ side := by
      rintro rfl
      have ready := held.ready
      rw [isAbsent] at ready
      cases ready
    refine ⟨⟨held.kept, ?_, ?_, ?_⟩, fun here => ?_⟩
    · rw [← (side_cases side other).resolve_left apart]
      simp [setBranch, Branch.ready]
    · simpa [setBranch, Function.update_of_ne apart.symm] using held.ready
    · simpa [setBranch, Function.update_of_ne apart.symm] using held.before
    · simpa [setBranch, Function.update_of_ne apart.symm] using here
  | @arrive other outcome prepared =>
    obtain rfl : other = side := by
      refine (side_cases side other).resolve_right fun isOther => ?_
      have unready := held.other
      rw [← isOther, prepared] at unready
      cases unready
    have apart : other.other ≠ other := by cases other <;> nofun
    refine ⟨⟨held.kept, ?_, ?_, ?_⟩, fun _ => ?_⟩
    · simpa [setBranch, Function.update_of_ne apart] using held.other
    · simp [setBranch, Branch.ready]
    · simp [setBranch, Branch.passed]
    · simp [setBranch, Branch.arrived]
  | passAborted waits aborted =>
    rw [held.kept] at aborted
    cases aborted
  | passReady waits open_ | passFailed waits open_ => exact absurd open_ (held.arrived_ne_two sound.gated)
  | @send other result finished =>
    rcases side_cases side other with rfl | rfl
    · have before := held.before
      rw [finished] at before
      cases before
    · have unready := held.other
      rw [finished] at unready
      cases unready

/-- Both branches have been at the gate. -/
theorem Gated.arrived_two (gated : pair.Gated) {side : Side} (here : (pair.branch side).arrived = true)
    (other : (pair.branch side.other).arrived = true) : pair.arrived = 2 := by
  rw [gated.count, gateCount_of_side pair.branch side, here, other]
  rfl

/-- A branch that has left an open gate has met the other one. -/
theorem Gated.ready_of_passed (gated : pair.Gated) {side : Side} (kept : pair.aborted = false)
    (passed : (pair.branch side).passed = true) : (pair.branch side.other).ready = true := by
  have both := (gated.passed side passed).resolve_left (by simp [kept])
  have count := gateCount_of_side pair.branch side
  have atMost := Bool.toNat_le (pair.branch side).arrived
  rw [← gated.count, both] at count
  have other : (pair.branch side.other).arrived = true := by
    by_contra absent
    rw [Bool.not_eq_true] at absent
    rw [absent, Bool.toNat_false] at count
    omega
  revert other
  cases pair.branch side.other <;> simp [Branch.arrived, Branch.ready]

/-- At an open gate a branch leaves. -/
theorem exists_pass (stalledCleanupIsError : Bool) {side : Side} {outcome : Except Failure Unit}
    (waits : pair.branch side = .waiting outcome) (both : pair.arrived = 2) (kept : pair.aborted = false) :
    ∃ branch, branch.passed = true ∧ Step stalledCleanupIsError pair (.pass side) (pair.setBranch side branch) ∧
      (outcome.isOk = false → ∃ result, branch = .finished result) := by
  cases outcome with
  | ok => exact ⟨.running, rfl, .passReady waits both kept, nofun⟩
  | error error => exact ⟨.finished (.error error), rfl, .passFailed waits both kept, fun _ => ⟨_, rfl⟩⟩

/-- A branch at the gate can leave it if and only if the other one is ready. -/
theorem Sound.leaves_iff (stalledCleanupIsError : Bool) (sound : pair.Sound) {side : Side} {outcome : Except Failure Unit}
    (waits : pair.branch side = .waiting outcome) (kept : pair.aborted = false) :
    (∃ last, Runs (Step stalledCleanupIsError) (fun act _ => OfRuntime act) pair last ∧
        (last.branch side).passed = true) ↔ (pair.branch side.other).ready = true := by
  constructor
  · rintro ⟨last, runs, passed⟩
    by_contra unready
    rw [Bool.not_eq_true] at unready
    have held : last.Sound ∧ last.Held side := runs.invariant (fun pair => pair.Sound ∧ pair.Held side)
      (fun _ _ _ holds runtime step => ⟨step.sound holds.1, (holds.2.step holds.1 runtime step).1⟩)
      ⟨sound, kept, unready, by rw [waits]; rfl, by rw [waits]; rfl⟩
    rw [held.2.before] at passed
    cases passed
  · intro ready
    have passes : ∀ pair : Pair α, pair.branch side = .waiting outcome → pair.aborted = false → pair.arrived = 2 →
        ∃ last, Runs (Step stalledCleanupIsError) (fun act _ => OfRuntime act) pair last ∧
          (last.branch side).passed = true := by
      intro pair waits kept both
      obtain ⟨branch, passed, step, -⟩ := exists_pass stalledCleanupIsError waits both kept
      exact ⟨_, (Runs.refl pair).tail step trivial, by simpa [setBranch] using passed⟩
    have here : (pair.branch side).arrived = true := by rw [waits]; rfl
    cases other : pair.branch side.other with
    | absent | preparing =>
      rw [other] at ready
      cases ready
    | prepared outcome' =>
      have step : Step stalledCleanupIsError pair (.arrive side.other) _ := .arrive other
      have apart : side ≠ side.other := by cases side <;> nofun
      have count := gateCount_of_side pair.branch side
      rw [← sound.gated.count, here, other] at count
      obtain ⟨last, runs, passed⟩ := passes { pair.setBranch side.other (.waiting outcome') with arrived := pair.arrived + 1 }
        (by simpa [setBranch, Function.update_of_ne apart] using waits) kept (congrArg (· + 1) count)
      exact ⟨last, runs.head step trivial, passed⟩
    | waiting | running | finished | sent => exact passes pair waits kept (sound.gated.arrived_two here (by rw [other]; rfl))

/-- The parent has returned, or has the success of this branch. -/
def Settled (side : Side) (pair : Pair α) : Prop :=
  (∃ cleanup why decision result, pair.parent = .returned cleanup why decision result) ∨
    ∃ value checked, pair.parent = .receiving (some (side, value)) checked

/-- A branch has failed or finished, and the other one is ready. -/
structure Progressing (side : Side) (pair : Pair α) : Prop where
  sound : pair.Sound
  live : pair.enclosing = false
  known : (pair.branch side).known = true
  ready : (pair.branch side.other).ready = true
  spawned : pair.parent.undecided → ∃ first checked, pair.parent = .receiving first checked

/-- How far a branch that has failed or finished is from its message. -/
def branchRank : Branch α → ℕ
  | .prepared _ => 6
  | .waiting _ => 5
  | .sent => 0
  | _ => 4

def parentRank (pair : Pair α) : ℕ :=
  match pair.parent with
  | .receiving _ checked => 20 + 3 * pair.queue.length + if checked then 0 else 1
  | .closing rest _ _ _ _ => rest.length + 1
  | .returned _ _ _ _ => 0
  | _ => 0

def rank (side : Side) (pair : Pair α) : ℕ :=
  parentRank pair + branchRank (pair.branch side) + (pair.branch side.other).arrived.not.toNat

/-- A scope tree that is closed or not, with nothing in it. -/
def bareTree (closed : Bool) : ScopeTree := .mk 0 false closed [] ⟨[], []⟩ [] []

/-- The parent takes a result, which ends its wait or leaves a shorter channel. -/
theorem Progressing.receives {side : Side} (progressing : pair.Progressing side) {first : Option (Side × α)}
    {entry : Side × Except Failure α} {queue : List (Side × Except Failure α)}
    (receives : pair.parent = .receiving first true) (arrived : pair.queue = entry :: queue) :
    ∃ next_, Step stalledCleanupIsError pair .receive next_ ∧ next_.branch = pair.branch ∧
      next_.enclosing = pair.enclosing ∧ parentRank next_ < parentRank pair ∧
      (next_.parent.undecided → ∃ first checked, next_.parent = .receiving first checked) := by
  have queued := progressing.sound.queued
  have before : parentRank pair = 20 + 3 * (queue.length + 1) := by simp [parentRank, receives, arrived]
  obtain ⟨source, result⟩ := entry
  cases first with
  | none =>
    refine ⟨_, .receiveFirst receives arrived, by simp, ?_, ?_, fun undecided => ?_⟩
    · unfold receiveFirst
      split <;> rfl
    · rw [before]
      unfold receiveFirst
      split
      · simp [parentRank, stop, cancel, closingOrder]
        omega
      · simp [parentRank, stop, cancel, closingOrder]
        omega
      · simp [parentRank]
        omega
    · obtain ⟨value, -, -, parent⟩ := receiveFirst_undecided undecided
      exact ⟨_, _, parent⟩
  | some first =>
    cases result with
    | error error =>
      refine ⟨_, .receiveError receives arrived, rfl, rfl, ?_, nofun⟩
      rw [before]
      simp [parentRank, stop, closingOrder]
      omega
    | ok value =>
      have history : pair.history = (first.1, .ok first.2) :: (source, .ok value) :: queue := by
        simpa [receives, arrived, PairParent.received] using queued.received (by rw [receives]; rfl)
      have apart : first.1 ≠ source := by
        have once := queued.once
        simp only [history, List.map_cons, List.nodup_cons, List.mem_cons, not_or] at once
        exact once.1.1
      obtain ⟨both, isBoth⟩ : ∃ both, joint first (source, value) = some both := by
        obtain ⟨firstSide, firstValue⟩ := first
        cases firstSide <;> cases source <;> simp [joint] at apart ⊢
      refine ⟨_, .receiveBoth receives arrived isBoth, rfl, rfl, ?_, nofun⟩
      rw [before]
      simp [parentRank, stop, closingOrder]
      omega

/-- While the channel is empty, the two branches go through the gate and send. -/
theorem progressing_empty (stalledCleanupIsError : Bool) {side : Side} (progressing : pair.Progressing side)
    {first : Option (Side × α)} (receives : pair.parent = .receiving first true) (empty : pair.queue = []) :
    pair.Settled side ∨ ∃ act next_, OfRuntime act ∧ Step stalledCleanupIsError pair act next_ ∧
      next_.Progressing side ∧ rank side next_ < rank side pair := by
  obtain ⟨sound, live, known, ready, spawned⟩ := progressing
  have kept : pair.aborted = false := by
    by_contra aborted
    rw [Bool.not_eq_false] at aborted
    have stopped := sound.gated.kept aborted
    rw [receives] at stopped
    cases stopped
  have apart : side.other ≠ side := by cases side <;> nofun
  cases here : pair.branch side with
  | absent | preparing | running =>
    rw [here] at known
    cases known
  | prepared outcome =>
    rw [here] at known
    have step : Step stalledCleanupIsError pair (.arrive side) _ := .arrive here
    refine .inr ⟨.arrive side, _, trivial, step, ⟨step.sound sound, live, ?_, ?_, fun _ => ⟨_, _, receives⟩⟩, ?_⟩
    · simpa [setBranch, Branch.known] using known
    · simpa [setBranch, Function.update_of_ne apart] using ready
    · simp [rank, parentRank, receives, empty, setBranch, Function.update_of_ne apart, here, branchRank]
  | waiting outcome =>
    cases other : pair.branch side.other with
    | absent | preparing =>
      rw [other] at ready
      cases ready
    | prepared outcome' =>
      have step : Step stalledCleanupIsError pair (.arrive side.other) _ := .arrive other
      refine .inr ⟨.arrive side.other, _, trivial, step, ⟨step.sound sound, live, ?_, ?_, fun _ => ⟨_, _, receives⟩⟩, ?_⟩
      · simpa [setBranch, Function.update_of_ne apart.symm] using known
      · simp [setBranch, Branch.ready]
      · simp [rank, parentRank, receives, empty, setBranch, Function.update_of_ne apart.symm, other, Branch.arrived]
    | waiting | running | finished | sent =>
      have both := sound.gated.arrived_two (by rw [here]; rfl) (by rw [other]; rfl : (pair.branch side.other).arrived = true)
      obtain ⟨branch, -, step, follows⟩ := exists_pass stalledCleanupIsError here both kept
      rw [here] at known
      obtain ⟨result, rfl⟩ := follows (by simpa [Branch.known] using known)
      refine .inr ⟨.pass side, _, trivial, step, ⟨step.sound sound, live, ?_, ?_, fun _ => ⟨_, _, receives⟩⟩, ?_⟩
      · simp [setBranch, Branch.known]
      · simpa [setBranch, Function.update_of_ne apart] using ready
      · simp [rank, parentRank, receives, empty, setBranch, Function.update_of_ne apart, here, branchRank]
  | finished result =>
    have step : Step stalledCleanupIsError pair (.send side) _ := .send here
    refine .inr ⟨.send side, _, trivial, step, ⟨step.sound sound, live, ?_, ?_, fun _ => ⟨_, _, receives⟩⟩, ?_⟩
    · simp [setBranch, Branch.known]
    · simpa [setBranch, Function.update_of_ne apart] using ready
    · simp [rank, parentRank, receives, empty, setBranch, Function.update_of_ne apart, here, branchRank]
  | sent =>
    obtain ⟨result, member⟩ := sound.queued.kept side here
    rw [sound.queued.received (by rw [receives]; rfl), receives, empty, List.append_nil] at member
    cases first with
    | none => cases member
    | some first =>
      obtain rfl : side = first.1 := congrArg Prod.fst (List.mem_singleton.mp member)
      exact .inl (.inr ⟨first.2, true, receives⟩)

theorem Progressing.advances (stalledCleanupIsError : Bool) {side : Side} (progressing : pair.Progressing side) :
    pair.Settled side ∨ ∃ act next_, OfRuntime act ∧ Step stalledCleanupIsError pair act next_ ∧
      next_.Progressing side ∧ rank side next_ < rank side pair := by
  obtain ⟨sound, live, known, ready, spawned⟩ := progressing
  cases here : pair.parent with
  | returned => exact .inl (.inl ⟨_, _, _, _, here⟩)
  | closing rest cleanup drops why decision =>
    cases rest with
    | nil =>
      have step : Step stalledCleanupIsError pair .leave _ := .leave here
      exact .inr ⟨.leave, _, trivial, step, ⟨step.sound sound, live, known, ready, nofun⟩, by simp [rank, parentRank, here]⟩
    | cons scope rest =>
      have step : Step stalledCleanupIsError pair (.close (bareTree (decide (scope ∈ pair.closed)))) _ :=
        .close (bareTree (decide (scope ∈ pair.closed))) here rfl
      exact .inr ⟨.close _, _, trivial, step, ⟨step.sound sound, by simpa using live, by simpa using known,
        by simpa using ready, nofun⟩, by simp [rank, parentRank, here]⟩
  | starting | creating | spawning =>
    obtain ⟨first, checked, receives⟩ := spawned (by rw [here]; rfl)
    rw [here] at receives
    cases receives
  | receiving first checked =>
    cases checked with
    | false =>
      have step : Step stalledCleanupIsError pair .check _ := .checkLive here live
      exact .inr ⟨.check, _, trivial, step, ⟨step.sound sound, live, known, ready, fun _ => ⟨_, _, rfl⟩⟩,
        by simp [rank, parentRank, here]⟩
    | true =>
      cases arrived : pair.queue with
      | cons entry queue =>
        have progressing : pair.Progressing side := ⟨sound, live, known, ready, spawned⟩
        obtain ⟨next_, step, branch, enclosing, lower, spawned'⟩ := progressing.receives here arrived
        refine .inr ⟨.receive, next_, trivial, step, ⟨step.sound sound, enclosing ▸ live, branch ▸ known, branch ▸ ready,
          spawned'⟩, ?_⟩
        simp only [rank, branch]
        omega
      | nil => exact progressing_empty stalledCleanupIsError ⟨sound, live, known, ready, spawned⟩ here arrived

/-- While a branch is held, no branch has sent anything. -/
theorem Held.unsent {side : Side} (held : pair.Held side) (other : Side) : pair.branch other ≠ .sent := by
  intro isSent
  rcases side_cases side other with rfl | rfl
  · have before := held.before
    rw [isSent] at before
    cases before
  · have unready := held.other
    rw [isSent] at unready
    cases unready

/-- The parent has nothing to receive then, and the runtime alone does not change that. -/
theorem Held.waits {side : Side} (held : pair.Held side) (sound : pair.Sound) (live : pair.enclosing = false)
    {checked : Bool} (receives : pair.parent = .receiving none checked) (runtime : OfRuntime act)
    (step : Step stalledCleanupIsError pair act next_) :
    next_.enclosing = false ∧ ∃ checked, next_.parent = .receiving none checked := by
  cases step with
  | cancelEnclosing | closeAbove | refuseScope | refuseTask | prepare | finish => cases runtime
  | startCancelled other | startLive other | create other | spawn other | receiveError other | receiveBoth other
  | close _ other | leave other =>
    rw [receives] at other
    cases other
  | arrive | passAborted | passReady | passFailed | send => exact ⟨live, checked, receives⟩
  | checkCancelled _ cancelled =>
    rw [live] at cancelled
    cases cancelled
  | checkLive other | giveUp other =>
    rw [receives] at other
    cases other
    exact ⟨live, _, rfl⟩
  | @receiveFirst other result queue _ arrived =>
    have received := sound.queued.received (by rw [receives]; rfl)
    rw [receives, arrived] at received
    exact absurd (sound.queued.sent other result (received ▸ List.mem_cons_self ..)) (held.unsent other)
  | disconnect _ _ gone => exact absurd (gone side) (held.unsent side)

/-- A branch that has failed or finished is received, or the parent decides and returns, if and only if the other branch is
ready. -/
theorem Sound.settles_iff (stalledCleanupIsError : Bool) (sound : pair.Sound) {side : Side}
    {first : Option (Side × α)} {checked : Bool} (receives : pair.parent = .receiving first checked)
    (live : pair.enclosing = false) (known : (pair.branch side).known = true) :
    (∃ last, Runs (Step stalledCleanupIsError) (fun act _ => OfRuntime act) pair last ∧ last.Settled side) ↔
      (pair.branch side.other).ready = true := by
  constructor
  · rintro ⟨last, runs, settled⟩
    by_contra unready
    rw [Bool.not_eq_true] at unready
    have kept : pair.aborted = false := by
      by_contra aborted
      rw [Bool.not_eq_false] at aborted
      have stopped := sound.gated.kept aborted
      rw [receives] at stopped
      cases stopped
    have before : (pair.branch side).passed = false := by
      by_contra passed
      rw [Bool.not_eq_false] at passed
      rw [sound.gated.ready_of_passed kept passed] at unready
      cases unready
    have ready : (pair.branch side).ready = true := by
      revert known
      cases pair.branch side <;> simp [Branch.known, Branch.ready]
    have held : pair.Held side := ⟨kept, unready, ready, before⟩
    obtain rfl : first = none := by
      rw [Option.eq_none_iff_forall_not_mem]
      rintro ⟨source, value⟩ isFirst
      refine held.unsent source (sound.queued.sent source (.ok value) ?_)
      rw [sound.queued.received (by rw [receives]; rfl), receives, Option.mem_def.mp isFirst]
      exact List.mem_cons_self ..
    have stuck := runs.invariant
      (fun pair => pair.Sound ∧ pair.Held side ∧ pair.enclosing = false ∧ ∃ checked, pair.parent = .receiving none checked)
      (fun _ _ _ ⟨sound, held, live, _, receives⟩ runtime step =>
        ⟨step.sound sound, (held.step sound runtime step).1, held.waits sound live receives runtime step⟩)
      ⟨sound, held, live, checked, receives⟩
    obtain ⟨-, -, -, checked', receives'⟩ := stuck
    rcases settled with ⟨_, _, _, _, returned⟩ | ⟨_, _, received⟩
    · rw [receives'] at returned
      cases returned
    · rw [receives'] at received
      cases received
  · intro ready
    exact exists_end (rank side) (fun _ progressing => Progressing.advances stalledCleanupIsError progressing)
      ⟨sound, live, known, ready, fun _ => ⟨first, checked, receives⟩⟩

theorem Step.mode (step : Step stalledCleanupIsError pair act next_) : next_.mode = pair.mode := by
  cases step <;> simp [stop, setBranch, cancel]

theorem Sound.ofRuns {mode : PairMode} {enclosing : Bool} (runs : Reaches (Step stalledCleanupIsError) (initial mode enclosing) pair) :
    pair.Sound :=
  runs.invariant Sound (fun _ _ _ sound _ step => Step.sound step sound) (initial_sound mode enclosing)

/-- The error of a preparation that fails. -/
def boom : Failure := .mk ⟨"H0901", .userError, "boom"⟩ []

/-- The left preparation has failed and the right one still goes on. -/
def leftFailed : Pair Unit :=
  ⟨.both, false, fun _ => none, allScopes, [], 1, false,
    Function.update (Function.update (Function.update (Function.update (fun _ => .absent) .left .preparing) .right
      .preparing) .left (.prepared (.error boom))) .left (.waiting (.error boom)),
    [], [], .receiving none false⟩

theorem leftFailed_reaches : Reaches (Step true) (initial .both false) leftFailed := by
  have creating : Reaches (Step true) (initial .both false : Pair Unit)
      { (initial .both false : Pair Unit) with parent := .creating } := (Runs.refl _).tail (.startLive rfl rfl) trivial
  have created := ((creating.tail (.create rfl rfl) trivial).tail (.create rfl rfl) trivial).tail (.create rfl rfl) trivial
  have spawned := (created.tail (.spawn rfl) trivial).tail (.spawn rfl) trivial
  exact (spawned.tail (.prepare (.error boom) rfl) trivial).tail (.arrive rfl) trivial

end Gate

end Pair

end HellRs.Concurrency
