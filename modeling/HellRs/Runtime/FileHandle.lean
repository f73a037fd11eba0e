import Mathlib

/-! # File handles

A handle keeps the bytes that are not yet due and gives them to the host later. The bytes that have reached
the file are kept beside the state. `File::flush` does nothing on a `File`, and mutexes are never poisoned.
-/

namespace HellRs.Runtime

abbrev IoError := String

def closedHandle : IoError := "handle is closed"

/-- The block size of a mode that the evaluator builds is positive. -/
inductive BufferMode where
  | none
  | line
  | block (size : Option ℕ+)
deriving DecidableEq

def blockBufferBytes : ℕ := 8 * 1024

structure FileState where
  /-- `state.file` is there. -/
  isOpen : Bool
  pending : List UInt8
  written : List UInt8
deriving DecidableEq

structure FileHandle where
  state : FileState
  buffering : BufferMode
  permit : Bool
deriving DecidableEq

/-- What the host does with the bytes of one `file.write_all`. -/
inductive HostWrite where
  | done
  | failed (count : ℕ) (error : IoError)
deriving DecidableEq

section Flushing

/-- `file.write_all(bytes)`. -/
def hostWrite (host : HostWrite) (bytes : List UInt8) (state : FileState) : FileState × Except IoError Unit :=
  match host with
  | .done => ({ state with written := state.written ++ bytes }, .ok ())
  | .failed count error => ({ state with written := state.written ++ bytes.take count }, .error error)

def flushPending (host : HostWrite) (state : FileState) : FileState × Except IoError Unit :=
  if state.pending = [] then (state, .ok ())
  else if !state.isOpen then (state, .error closedHandle)
  else match hostWrite host state.pending state with
    | (state, .error error) => (state, .error error)
    | (state, .ok ()) => ({ state with pending := [] }, .ok ())

def completeBytes (pending : List UInt8) (blockBytes : ℕ) : ℕ := pending.length / blockBytes * blockBytes

def flushCompleteBlocks (host : HostWrite) (blockBytes : ℕ) (state : FileState) : FileState × Except IoError Unit :=
  let complete := completeBytes state.pending blockBytes
  if complete = 0 then (state, .ok ())
  else if !state.isOpen then (state, .error closedHandle)
  else match hostWrite host (state.pending.take complete) state with
    | (state, .error error) => (state, .error error)
    | (state, .ok ()) => ({ state with pending := state.pending.drop complete }, .ok ())

end Flushing

namespace FileHandle

def fromFile (permit : Bool) : FileHandle := ⟨⟨true, [], []⟩, .block none, permit⟩

def newline : UInt8 := 10

def writeAll (host : HostWrite) (bytes : List UInt8) (handle : FileHandle) : FileHandle × Except IoError Unit :=
  if !handle.state.isOpen then (handle, .error closedHandle)
  else
    let state := { handle.state with pending := handle.state.pending ++ bytes }
    let (state, result) := match handle.buffering with
      | .none => flushPending host state
      | .line => if newline ∈ bytes then flushPending host state else (state, .ok ())
      | .block size => flushCompleteBlocks host ((size.map PNat.val).getD blockBufferBytes) state
    ({ handle with state }, result)

/-- `found` is what the file gives up to the amount. -/
def readUpTo (host : HostWrite) (found : Except IoError (List UInt8)) (handle : FileHandle) :
    FileHandle × Except IoError (List UInt8) :=
  match flushPending host handle.state with
  | (state, .error error) => ({ handle with state }, .error error)
  | (state, .ok ()) => ({ handle with state }, if state.isOpen then found else .error closedHandle)

def close (host : HostWrite) (handle : FileHandle) : FileHandle × Except IoError Unit :=
  match flushPending host handle.state with
  | (state, .error error) => ({ handle with state }, .error error)
  | (state, .ok ()) => ({ handle with state := { state with isOpen := false }, permit := false }, .ok ())

/-- `cloned` is whether the host duplicates the file. -/
def tryCloneFile (host : HostWrite) (cloned : Except IoError Unit) (handle : FileHandle) :
    FileHandle × Except IoError Unit :=
  match flushPending host handle.state with
  | (state, .error error) => ({ handle with state }, .error error)
  | (state, .ok ()) => ({ handle with state }, if state.isOpen then cloned else .error closedHandle)

def setBuffering (host : HostWrite) (mode : BufferMode) (handle : FileHandle) : FileHandle × Except IoError Unit :=
  if handle.buffering = mode then (handle, .ok ())
  else match flushPending host handle.state with
    | (state, .error error) => ({ handle with state }, .error error)
    | (state, .ok ()) => ({ handle with state, buffering := mode }, .ok ())

end FileHandle

/-- A call on a handle, with the answers of the host other than to the write. -/
inductive HandleCall where
  | writeAll (bytes : List UInt8)
  | readUpTo (found : Except IoError (List UInt8))
  | close
  | tryCloneFile (cloned : Except IoError Unit)
  | setBuffering (mode : BufferMode)

namespace HandleCall

def apply (call : HandleCall) (host : HostWrite) (handle : FileHandle) : FileHandle :=
  match call with
  | writeAll bytes => (handle.writeAll host bytes).1
  | readUpTo found => (handle.readUpTo host found).1
  | close => (handle.close host).1
  | tryCloneFile cloned => (handle.tryCloneFile host cloned).1
  | setBuffering mode => (handle.setBuffering host mode).1

/-- The bytes of a write that finds the handle open. -/
def accepted (call : HandleCall) (handle : FileHandle) : List UInt8 :=
  match call with
  | writeAll bytes => if handle.state.isOpen then bytes else []
  | _ => []

/-- The bytes that the call gives to the host. -/
def handed (call : HandleCall) (handle : FileHandle) : List UInt8 :=
  let pending := handle.state.pending
  match call with
  | writeAll bytes =>
      if !handle.state.isOpen then []
      else match handle.buffering with
        | .none => pending ++ bytes
        | .line => if FileHandle.newline ∈ bytes then pending ++ bytes else []
        | .block size => (pending ++ bytes).take
            (completeBytes (pending ++ bytes) ((size.map PNat.val).getD blockBufferBytes))
  | readUpTo _ => pending
  | close => pending
  | tryCloneFile _ => pending
  | setBuffering mode => if handle.buffering = mode then [] else pending

end HandleCall

section Accounting

/-- The bytes that a write which fails has written. -/
def HostWrite.partly (host : HostWrite) (bytes : List UInt8) : List UInt8 :=
  match host with
  | .done => []
  | .failed count _ => bytes.take count

/-- The bytes that have reached the file and those still pending. -/
def FileState.total (state : FileState) : List UInt8 := state.written ++ state.pending

/-- A closed handle has nothing pending. -/
def FileState.Settled (state : FileState) : Prop := state.isOpen = false → state.pending = []

variable {host : HostWrite} {state : FileState}

@[simp] theorem HostWrite.partly_nil : host.partly [] = [] := by
  cases host <;> simp [partly]

/-- What a write leaves: the bytes are taken from what is pending only where the write succeeds. -/
theorem hostWrite_total {first rest : List UInt8} (split : state.pending = first ++ rest) :
    (∃ state', hostWrite host first state = (state', .ok ()) ∧ state'.isOpen = state.isOpen ∧
        state'.pending = state.pending ∧ host.partly first = [] ∧
          state'.written ++ rest = state.written ++ state.pending) ∨
      ∃ state' error, hostWrite host first state = (state', .error error) ∧ state'.isOpen = state.isOpen ∧
        state'.total = state.written ++ host.partly first ++ state.pending := by
  cases host with
  | done => exact .inl ⟨_, rfl, rfl, rfl, rfl, by simp [split]⟩
  | failed count error => exact .inr ⟨_, error, rfl, rfl, rfl⟩

theorem flushPending_total (settled : state.Settled) : (flushPending host state).1.Settled ∧
    (flushPending host state).1.total = state.written ++ host.partly state.pending ++ state.pending ∧
      ((flushPending host state).2 = .ok () → (flushPending host state).1.pending = []) := by
  rw [flushPending]
  split_ifs with isEmpty isClosed
  · exact ⟨settled, by simp [FileState.total, isEmpty], fun _ => isEmpty⟩
  · exact absurd (settled (by simpa using isClosed)) isEmpty
  · have isOpen : state.isOpen = true := by simpa using isClosed
    rcases @hostWrite_total host _ _ _ (state.pending.append_nil).symm with
      ⟨state', written, _, _, none, total⟩ | ⟨state', error, written, sameOpen, total⟩
    · rw [written]
      refine ⟨fun _ => rfl, ?_, fun _ => rfl⟩
      simpa [FileState.total, none] using total
    · rw [written]
      refine ⟨fun closed => ?_, total, nofun⟩
      rw [sameOpen, isOpen] at closed
      cases closed

theorem flushCompleteBlocks_total {blockBytes : ℕ} (isOpen : state.isOpen = true) :
    (flushCompleteBlocks host blockBytes state).1.isOpen = true ∧
      (flushCompleteBlocks host blockBytes state).1.total = state.written ++
        host.partly (state.pending.take (completeBytes state.pending blockBytes)) ++ state.pending := by
  rw [flushCompleteBlocks]
  split_ifs with isZero isClosed
  · exact ⟨isOpen, by simp [FileState.total, isZero]⟩
  · simp [isOpen] at isClosed
  · have split := (List.take_append_drop (completeBytes state.pending blockBytes) state.pending).symm
    rcases @hostWrite_total host _ _ _ split with
      ⟨state', written, sameOpen, samePending, none, total⟩ | ⟨state', error, written, sameOpen, total⟩
    · rw [written]
      refine ⟨sameOpen.trans isOpen, ?_⟩
      simpa [FileState.total, none, samePending] using total
    · rw [written]
      exact ⟨sameOpen.trans isOpen, total⟩

variable {handle : FileHandle}

theorem writeAll_total {bytes : List UInt8} (isOpen : handle.state.isOpen = true) :
    (handle.writeAll host bytes).1.state.Settled ∧ (handle.writeAll host bytes).1.state.total =
      handle.state.written ++ host.partly ((HandleCall.writeAll bytes).handed handle) ++ (handle.state.pending ++ bytes) := by
  obtain ⟨⟨opened, pending, written⟩, buffering, permit⟩ := handle
  obtain rfl : opened = true := isOpen
  have settled : (⟨true, pending ++ bytes, written⟩ : FileState).Settled := nofun
  obtain ⟨flushed, total, _⟩ := @flushPending_total host _ settled
  cases buffering with
  | none => exact ⟨flushed, total⟩
  | line =>
    by_cases ends : FileHandle.newline ∈ bytes
    · simp only [FileHandle.writeAll, HandleCall.handed, ends, if_true]
      exact ⟨flushed, total⟩
    · simp only [FileHandle.writeAll, HandleCall.handed, ends, if_false]
      exact ⟨settled, by simp [FileState.total]⟩
  | block size =>
    obtain ⟨isOpen', total⟩ := @flushCompleteBlocks_total host ⟨true, pending ++ bytes, written⟩
      ((size.map PNat.val).getD blockBufferBytes) rfl
    refine ⟨fun closed => ?_, total⟩
    cases isOpen'.symm.trans closed

/-- A call adds the bytes that it accepts, and once more those that a failing write has written. -/
theorem HandleCall.apply_total (call : HandleCall) (settled : handle.state.Settled) :
    (call.apply host handle).state.Settled ∧ (call.apply host handle).state.total =
      handle.state.written ++ host.partly (call.handed handle) ++ (handle.state.pending ++ call.accepted handle) := by
  obtain ⟨flushed, total, emptied⟩ := @flushPending_total host _ settled
  cases call with
  | writeAll bytes =>
    by_cases isOpen : handle.state.isOpen = true
    · simpa [apply, accepted, isOpen] using writeAll_total isOpen
    · refine ⟨?_, ?_⟩ <;> simp [apply, accepted, handed, FileHandle.writeAll, isOpen, settled, FileState.total]
  | readUpTo found =>
    simp only [apply, accepted, handed, FileHandle.readUpTo, List.append_nil]
    split
    next state error flush =>
      rw [flush] at flushed total
      exact ⟨flushed, total⟩
    next state flush =>
      rw [flush] at flushed total
      exact ⟨flushed, total⟩
  | close =>
    simp only [apply, accepted, handed, FileHandle.close, List.append_nil]
    split
    next state error flush =>
      rw [flush] at flushed total
      exact ⟨flushed, total⟩
    next state flush =>
      rw [flush] at emptied total
      exact ⟨fun _ => emptied rfl, total⟩
  | tryCloneFile cloned =>
    simp only [apply, accepted, handed, FileHandle.tryCloneFile, List.append_nil]
    split
    next state error flush =>
      rw [flush] at flushed total
      exact ⟨flushed, total⟩
    next state flush =>
      rw [flush] at flushed total
      exact ⟨flushed, total⟩
  | setBuffering mode =>
    simp only [apply, accepted, handed, FileHandle.setBuffering, List.append_nil]
    split_ifs
    · exact ⟨settled, by simp [FileState.total]⟩
    · split
      next state error flush =>
        rw [flush] at flushed total
        exact ⟨flushed, total⟩
      next state flush =>
        rw [flush] at flushed total
        exact ⟨flushed, total⟩

end Accounting

section Runs

/-- The handle after some calls, each with what the host does with its write. -/
def runCalls (handle : FileHandle) (calls : List (HandleCall × HostWrite)) : FileHandle :=
  calls.foldl (fun handle (call, host) => call.apply host handle) handle

/-- The bytes of the writes that found the handle open. -/
def acceptedBytes : FileHandle → List (HandleCall × HostWrite) → List UInt8
  | _, [] => []
  | handle, (call, host) :: calls => call.accepted handle ++ acceptedBytes (call.apply host handle) calls

/-- No write that fails has written anything. -/
def WholeWrites (handle : FileHandle) (calls : List (HandleCall × HostWrite)) : Prop :=
  ∀ earlier call host, earlier ++ [(call, host)] <+: calls → host.partly (call.handed (runCalls handle earlier)) = []

theorem acceptedBytes_append (handle : FileHandle) (first rest : List (HandleCall × HostWrite)) :
    acceptedBytes handle (first ++ rest) = acceptedBytes handle first ++ acceptedBytes (runCalls handle first) rest := by
  induction first generalizing handle with
  | nil => rfl
  | cons step first ih =>
    obtain ⟨call, host⟩ := step
    rw [List.cons_append, acceptedBytes, acceptedBytes, ih, List.append_assoc]
    rfl

theorem runCalls_snoc (handle : FileHandle) (calls : List (HandleCall × HostWrite)) (call : HandleCall) (host : HostWrite) :
    runCalls handle (calls ++ [(call, host)]) = call.apply host (runCalls handle calls) := by
  rw [runCalls, List.foldl_append]
  rfl

theorem runCalls_settled (permit : Bool) (calls : List (HandleCall × HostWrite)) :
    (runCalls (.fromFile permit) calls).state.Settled := by
  induction calls using List.reverseRecOn with
  | nil => exact fun _ => rfl
  | append_singleton calls step ih =>
    rw [runCalls_snoc]
    exact (step.1.apply_total ih).1

/-- In every run the file and what is pending hold exactly the accepted bytes, in every state, if and only if no
write of the run that fails has written anything. -/
theorem runCalls_exact_iff (permit : Bool) (calls : List (HandleCall × HostWrite)) :
    (∀ earlier, earlier <+: calls →
      (runCalls (.fromFile permit) earlier).state.total = acceptedBytes (.fromFile permit) earlier) ↔
        WholeWrites (.fromFile permit) calls := by
  constructor
  · intro exact earlier call host isEarlier
    have before := exact earlier ((List.prefix_append _ _).trans isEarlier)
    have after := exact _ isEarlier
    rw [runCalls_snoc, (call.apply_total (runCalls_settled permit earlier)).2, acceptedBytes_append, ← before] at after
    have lengths := congrArg List.length after
    simp only [FileState.total, acceptedBytes, List.append_nil, List.length_append] at lengths
    exact List.eq_nil_of_length_eq_zero (by omega)
  · intro whole earlier
    induction earlier using List.reverseRecOn with
    | nil => exact fun _ => rfl
    | append_singleton earlier step ih =>
      obtain ⟨call, host⟩ := step
      intro isEarlier
      have before := ih ((List.prefix_append _ _).trans isEarlier)
      rw [runCalls_snoc, (call.apply_total (runCalls_settled permit earlier)).2, acceptedBytes_append, ← before,
        whole earlier call host isEarlier]
      simp [FileState.total, acceptedBytes]

/-- The host is out of space after the first byte, and not any more when the handle is closed. -/
def repeatedCalls : List (HandleCall × HostWrite) := [(.setBuffering .none, .done),
  (.writeAll [97, 98], .failed 1 "no space left on device"), (.close, .done)]

theorem repeatedCalls_total : (runCalls (.fromFile false) repeatedCalls).state.total = [97, 97, 98] ∧
    acceptedBytes (.fromFile false) repeatedCalls = [97, 98] := by decide

end Runs

end HellRs.Runtime
