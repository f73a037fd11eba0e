import HellRs.Lib.Chase

/-! # Cancellation tokens

Any number of threads over a forest of cancellation tokens. A token refers to its parent weakly, so
it follows the parent only while someone keeps the parent's state. An action lets one thread take one
atomic step: a read of one reason, a section under the `changed` mutex of one token, or one under the
list of its children.
-/

namespace HellRs.Scope

abbrev TokenId := ℕ
abbrev ThreadId := ℕ

inductive CancelReason where
  | timeout
  | raceLost
  | siblingFailed
  | parentCancelled
  | userInterrupt
  | budgetExceeded
  | scopeClosed
deriving DecidableEq, Repr

/-- `CancellationState`, and the number of tokens that refer to it. -/
structure Token where
  reason : Option CancelReason
  parent : Option TokenId
  children : List TokenId
  handles : ℕ
deriving DecidableEq, Repr

/-- Where `wait_timeout` checks for cancellation: before it waits, in the loop of
`wait_timeout_while`, or for its result. -/
inductive Stage where
  | first
  | loop
  | last
deriving DecidableEq, Repr

/-- What a call of `cancel_once` that has set the reason has yet to do: wake the threads that wait on
a token, notify the descendants of a token, or let go of its state. -/
inductive Pending where
  | wake (token : TokenId)
  | gather (token : TokenId)
  | release (token : TokenId)
deriving DecidableEq, Repr

/-- Where a thread is. -/
inductive Program where
  | idle
  /-- In `reason` of the last token of the path, at the first: the parents between were upgraded. -/
  | observe (path : List TokenId)
  | observed (token : TokenId) (result : Option CancelReason)
  /-- In `wait_timeout`, before the mutex of the token. -/
  | lock (token : TokenId)
  /-- In `is_cancelled` under the mutex of the token. -/
  | check (token : TokenId) (path : List TokenId) (stage : Stage)
  | asleep (token : TokenId)
  /-- Notified or timed out, before the mutex of the token. -/
  | woken (token : TokenId)
  | waited (token : TokenId) (result : Bool)
  /-- In `cancel_once`, before the mutex of the token. -/
  | cancel (token : TokenId) (reason : CancelReason)
  | notify (work : List Pending)
  /-- In `drop` of the last handle, before the list of the parent. -/
  | detach (token : TokenId)
deriving DecidableEq, Repr

structure TokenSystem where
  tokens : List Token
  threads : List Program
deriving DecidableEq, Repr

def Pending.token : Pending → TokenId
  | wake token => token
  | gather token => token
  | release token => token

namespace Program

/-- The states that the thread keeps. -/
def refs : Program → List TokenId
  | observe path => path
  | lock token => [token]
  | check token path _ => token :: path
  | asleep token => [token]
  | woken token => [token]
  | cancel token _ => [token]
  | notify work => work.map Pending.token
  | detach token => [token]
  | _ => []

/-- The token whose handle the thread borrows for its call. -/
def subject : Program → Option TokenId
  | observe path => path.getLast?
  | lock token => some token
  | check token _ _ => some token
  | asleep token => some token
  | woken token => some token
  | cancel token _ => some token
  | notify work => work.getLast?.map Pending.token
  | _ => none

/-- The token whose mutex the thread holds between two steps. -/
def locked : Program → Option TokenId
  | check token _ _ => some token
  | _ => none

/-- The thread is in no call. -/
def resting : Program → Bool
  | idle => true
  | observed _ _ => true
  | waited _ _ => true
  | _ => false

/-- `notify_all` on the condition variable of a token. -/
def notified (token : TokenId) : Program → Program
  | asleep other => if other = token then woken token else asleep other
  | program => program

end Program

namespace TokenSystem

def reason (system : TokenSystem) (token : TokenId) : Option CancelReason :=
  system.tokens[token]?.bind Token.reason

def parent (system : TokenSystem) (token : TokenId) : Option TokenId :=
  system.tokens[token]?.bind Token.parent

def children (system : TokenSystem) (token : TokenId) : List TokenId :=
  ((system.tokens[token]?).map Token.children).getD []

def handles (system : TokenSystem) (token : TokenId) : ℕ :=
  ((system.tokens[token]?).map Token.handles).getD 0

/-- A thread keeps the state of the token. -/
def kept (system : TokenSystem) (token : TokenId) : Bool :=
  system.threads.any fun program => decide (token ∈ program.refs)

/-- Someone keeps the state of the token: it can be upgraded. -/
def alive (system : TokenSystem) (token : TokenId) : Bool :=
  0 < system.handles token || system.kept token

/-- A thread borrows a handle of the token for its call. -/
def borrowed (system : TokenSystem) (token : TokenId) : Bool :=
  system.threads.any fun program => decide (program.subject = some token)

/-- No thread is in a section under the mutex of the token. -/
def unlocked (system : TokenSystem) (token : TokenId) : Bool :=
  system.threads.all fun program => decide (program.locked ≠ some token)

def modify (system : TokenSystem) (token : TokenId) (change : Token → Token) : TokenSystem :=
  { system with tokens := system.tokens.modify token change }

def become (system : TokenSystem) (thread : ThreadId) (program : Program) : TokenSystem :=
  { system with threads := system.threads.set thread program }

/-- `notify_all` on the condition variable of a token. -/
def notifyAll (system : TokenSystem) (token : TokenId) : TokenSystem :=
  { system with threads := system.threads.map (Program.notified token) }

/-- The next parent on the walk of `reason`, if it can be upgraded. -/
def upgradeParent (system : TokenSystem) (token : TokenId) : Option TokenId :=
  (system.parent token).filter system.alive

/-- One read of `reason`: its result, or the longer path. -/
def read (system : TokenSystem) : List TokenId → Option CancelReason ⊕ List TokenId
  | [] => .inl none
  | current :: path =>
      match system.reason current with
      | some reason => .inl (some (if path = [] then reason else .parentCancelled))
      | none =>
          match system.upgradeParent current with
          | some parent => .inr (parent :: current :: path)
          | none => .inl none

/-- The end of `is_cancelled` under the mutex. A check in the loop that fails is followed by a sleep,
or by the result when the time is over. -/
def checked (token : TokenId) (stage : Stage) (expired cancelled : Bool) : Program :=
  match stage, cancelled with
  | .first, true => .waited token true
  | .first, false => .check token [token] .loop
  | .loop, true => .check token [token] .last
  | .loop, false => if expired then .check token [token] .last else .asleep token
  | .last, result => .waited token result

/-- The children that can be upgraded. -/
def liveChildren (system : TokenSystem) (token : TokenId) : List TokenId :=
  (system.children token).filter system.alive

/-- One step of `notify_descendants`. -/
def notifyStep (system : TokenSystem) (thread : ThreadId) : List Pending → Option TokenSystem
  | [] => some (system.become thread .idle)
  | .wake token :: rest =>
      if system.unlocked token then
        some ((system.notifyAll token).become thread (.notify (.gather token :: .release token :: rest)))
      else none
  | .gather token :: rest =>
      let live := system.liveChildren token
      some ((system.modify token fun state => { state with children := live }).become thread
        (.notify (live.map .wake ++ rest)))
  | .release _ :: rest => some (system.become thread (.notify rest))

/-- One step of a thread; `expired` tells whether the time of its wait is over. -/
def step (system : TokenSystem) (thread : ThreadId) (expired : Bool) :
    Program → Option TokenSystem
  | .observe path =>
      match system.read path with
      | .inl result => some (system.become thread (.observed (path.getLast?.getD 0) result))
      | .inr path => some (system.become thread (.observe path))
  | .lock token =>
      if system.unlocked token then some (system.become thread (.check token [token] .first)) else none
  | .check token path stage =>
      match system.read path with
      | .inl result => some (system.become thread (checked token stage expired result.isSome))
      | .inr path => some (system.become thread (.check token path stage))
  | .asleep token => some (system.become thread (.woken token))
  | .woken token =>
      if system.unlocked token then some (system.become thread (.check token [token] .loop)) else none
  | .cancel token reason =>
      if system.unlocked token then
        match system.reason token with
        | some _ => some (system.become thread .idle)
        | none =>
            some (((system.modify token fun state => { state with reason := some reason }).notifyAll
              token).become thread (.notify [.gather token, .release token]))
      else none
  | .notify work => system.notifyStep thread work
  | .detach token =>
      some (match system.upgradeParent token with
        | some parent => (system.modify parent fun state =>
            { state with children := state.children.filter fun child =>
              child ≠ token && system.alive child }).become thread .idle
        | none => system.become thread .idle)
  | _ => none

end TokenSystem

inductive TokenAction where
  /-- `CancellationToken::new`. -/
  | create
  | clone (token : TokenId)
  | drop (thread : ThreadId) (token : TokenId)
  | observe (thread : ThreadId) (token : TokenId)
  | wait (thread : ThreadId) (token : TokenId)
  | cancel (thread : ThreadId) (token : TokenId) (reason : CancelReason)
  | child (thread : ThreadId) (token : TokenId)
  | step (thread : ThreadId) (expired : Bool)
deriving DecidableEq, Repr

namespace TokenSystem

/-- Start a call on a token that has a handle, in a thread that is in no call. -/
def call (system : TokenSystem) (thread : ThreadId) (token : TokenId) (program : Program) :
    Option TokenSystem := do
  let resting ← system.threads[thread]?
  if resting.resting && 0 < system.handles token then some (system.become thread program) else none

def act (system : TokenSystem) : TokenAction → Option TokenSystem
  | .create => some { system with tokens := system.tokens ++ [⟨none, none, [], 1⟩] }
  | .clone token =>
      if 0 < system.handles token then
        some (system.modify token fun state => { state with handles := state.handles + 1 })
      else none
  | .drop thread token => do
      -- The drop of the last handle looks at the strong count before it lets go of the state.
      if system.handles token = 1 && system.borrowed token then none
      else
        let last := system.handles token = 1 && !system.kept token
        let system ← system.call thread token (if last then .detach token else .idle)
        some (system.modify token fun state => { state with handles := state.handles - 1 })
  | .observe thread token => system.call thread token (.observe [token])
  | .wait thread token => system.call thread token (.lock token)
  | .cancel thread token reason => system.call thread token (.cancel token reason)
  | .child thread token => do
      -- The new state is private until the parent lists it.
      let resting ← system.threads[thread]?
      let live := system.liveChildren token
      if resting.resting && 0 < system.handles token then
        let listed := system.modify token fun state =>
          { state with children := live ++ [system.tokens.length] }
        some { listed with tokens := listed.tokens ++ [⟨none, some token, [], 1⟩] }
      else none
  | .step thread expired => do
      let program ← system.threads[thread]?
      system.step thread expired program

end TokenSystem

end HellRs.Scope
