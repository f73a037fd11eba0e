import Mathlib
import HellRs.Lib.Labelled

/-! # A supervised child process

`run_child_process` from the spawn on, next to everything that acts at the same time: the process tree of the child, its
pipes, the threads that read and write them, and the scope, which may be cancelled or closed and then terminates the process
through the registered resource. What the evaluator is told of an operating-system error is left out, and no thread panics.
-/

namespace HellRs.Process

open Labelled

abbrev ExitStatus := ℕ

inductive ProcessError where
  | cancelled
  | io
  /-- The output exceeded the configured capture budget. -/
  | resourceLimit
  | resourceClosed
  | internal
deriving DecidableEq, Repr

/-- Where an output of the child goes. -/
inductive HostHandle where
  | stdin
  | stdout
  | stderr
  | null
  | file (handle : ℕ) (closeAfterProcess : Bool)
deriving DecidableEq, Repr

/-- The handle, if it is to be closed after the process. -/
def HostHandle.marked : HostHandle → List ℕ
  | file handle true => [handle]
  | _ => []

inductive Stream where
  | stdout
  | stderr
deriving DecidableEq, Repr

/-- `ProcessSpec` and the other arguments that the supervision reads, and the status of a child that is killed. -/
structure ProcessSpec where
  stdinBytes : Option (List UInt8)
  stdout : HostHandle
  stderr : HostHandle
  capture : Bool
  processCaptureBytes : Option ℕ
  killed : ExitStatus
deriving DecidableEq, Repr

structure Output where
  status : ExitStatus
  stdout : List UInt8
  stderr : List UInt8
deriving DecidableEq, Repr

namespace ProcessSpec

variable (spec : ProcessSpec)

/-- The output is a pipe: it is captured, or forwarded to the other standard stream. -/
def piped : Stream → Bool
  | .stdout => spec.capture || spec.stdout = .stderr
  | .stderr => spec.capture || spec.stderr = .stdout

/-- The handles that `close_process_handles` closes, each once. -/
def closedHandles : List ℕ :=
  spec.stdout.marked ++ spec.stderr.marked.filter fun handle => handle ∉ spec.stdout.marked

end ProcessSpec

/-- A thread that reads a pipe. -/
structure Reader where
  /-- What it has captured or forwarded. -/
  bytes : List UInt8
  exceeded : Bool
  result : Option (Except ProcessError (List UInt8))
  joined : Bool

structure Pipe where
  /-- The pipe is there to be taken. -/
  untaken : Bool
  written : List UInt8
  /-- How many of the bytes have been read. -/
  read : ℕ
  /-- Some process can still write. -/
  writable : Bool
  reader : Option Reader

/-- The thread that writes the standard input. -/
structure Writer where
  result : Option Bool
  joined : Bool

/-- Where `run_child_process` is. -/
inductive Supervisor where
  | registering
  | takingStdout
  | takingStderr
  | takingStdin
  /-- Before it looks at its token. -/
  | polling
  /-- Before `try_wait`. -/
  | waiting
  /-- Before `terminate`, after it has found its token cancelled or the leader exited. -/
  | terminating (status : Option ExitStatus)
  | joiningStdout (status : ExitStatus) (wasCancelled : Bool)
  | joiningStderr (status : ExitStatus) (wasCancelled : Bool) (stdout : List UInt8)
  | joiningStdin (status : ExitStatus) (wasCancelled : Bool) (stdout stderr : List UInt8)
  /-- Before `close_process_handles`. -/
  | closing (body : Except ProcessError Output)
  | returned (result : Except ProcessError Output)

structure ChildRun where
  supervisor : Supervisor
  /-- The token is cancelled. -/
  cancelled : Bool
  scopeClosed : Bool
  registered : Bool
  /-- The child is in `ScopedProcessResource`. -/
  held : Bool
  /-- The status of the leader, if it has exited. -/
  leader : Option ExitStatus
  pipes : Stream → Pipe
  writer : Option Writer
  closed : List ℕ
  /-- For the specification: `try_wait` has found the leader exited. -/
  observed : Bool
  /-- For the specification: the token was cancelled before that. -/
  inTime : Bool

inductive Act where
  /-- A process of the tree writes, closes the pipe, or is the leader and exits. -/
  | write (stream : Stream) (bytes : List UInt8)
  | closePipe (stream : Stream)
  | exit (status : ExitStatus)
  /-- The token is cancelled, the scope stops to register, or it terminates the registered process. -/
  | cancel
  | closeScope
  | requestCancel
  /-- A reader reads, finds the end, or fails. -/
  | read (stream : Stream) (count : ℕ)
  | endOfFile (stream : Stream)
  | failRead (stream : Stream)
  | finishInput (success : Bool)
  /-- The next step of `run_child_process`, with what the operating system answers. -/
  | supervise (success : Bool)
deriving DecidableEq, Repr

namespace Reader

def new : Reader := ⟨[], false, none, false⟩

/-- A chunk arrives, in `read_process_capture` or in `forward_process_reader`. -/
def receive (spec : ProcessSpec) (reader : Reader) (chunk : List UInt8) : Reader :=
  if spec.capture && spec.processCaptureBytes.any (· < reader.bytes.length + chunk.length) then
    { reader with exceeded := true }
  else if reader.exceeded then reader
  else { reader with bytes := reader.bytes ++ chunk }

/-- What the reader returns at the end of the file. -/
def finish (spec : ProcessSpec) (reader : Reader) : Reader :=
  { reader with
    result := some (if reader.exceeded then .error .resourceLimit else .ok (if spec.capture then reader.bytes else [])) }

end Reader

namespace ChildRun

/-- The state after the spawn. -/
def spawned (spec : ProcessSpec) (cancelled : Bool) : ChildRun where
  supervisor := .registering
  cancelled := cancelled
  scopeClosed := false
  registered := false
  held := true
  leader := none
  pipes stream := ⟨spec.piped stream, [], 0, true, none⟩
  writer := none
  closed := []
  observed := false
  inTime := cancelled

def setPipe (run : ChildRun) (stream : Stream) (pipe : Pipe) : ChildRun :=
  { run with pipes := Function.update run.pipes stream pipe }

/-- The running reader of a pipe does something. -/
def withReader (run : ChildRun) (stream : Stream) (act : Pipe → Reader → Option Pipe) : Option ChildRun := do
  let reader ← (run.pipes stream).reader
  if reader.result.isSome then none
  else return run.setPipe stream (← act (run.pipes stream) reader)

/-- `SupervisedChild::terminate`: the whole process tree is gone. -/
def terminate (spec : ProcessSpec) (run : ChildRun) : ChildRun :=
  { run with
    held := false
    leader := some (run.leader.getD spec.killed)
    pipes := fun stream => { run.pipes stream with writable := false } }

/-- `take_stdout` or `take_stderr`, and the thread for the pipe. -/
def startReader (run : ChildRun) (stream : Stream) : ChildRun :=
  if run.held && (run.pipes stream).untaken then
    run.setPipe stream { run.pipes stream with untaken := false, reader := some .new }
  else run

/-- `join_process_reader`, with what follows a result of the thread; without a result it waits. -/
def joinReader (run : ChildRun) (stream : Stream) (next : List UInt8 → Supervisor) : Option ChildRun :=
  match (run.pipes stream).reader with
  | none => some { run with supervisor := next [] }
  | some reader => do
    let result ← reader.result
    let joined := run.setPipe stream { run.pipes stream with reader := some { reader with joined := true } }
    return { joined with
      supervisor := match result with
        | .ok bytes => next bytes
        | .error error => .closing (.error error) }

/-- The result when all threads have succeeded. -/
def outcome (status : ExitStatus) (wasCancelled : Bool) (stdout stderr : List UInt8) : Except ProcessError Output :=
  if wasCancelled then .error .cancelled else .ok ⟨status, stdout, stderr⟩

/-- The next step of `run_child_process`, where it does not have to wait. -/
def supervise (spec : ProcessSpec) (run : ChildRun) (success : Bool) : Option ChildRun :=
  match run.supervisor with
  | .registering =>
    if run.scopeClosed then some { run.terminate spec with supervisor := .closing (.error .resourceClosed) }
    else some { run with registered := true, supervisor := .takingStdout }
  | .takingStdout => some { run.startReader .stdout with supervisor := .takingStderr }
  | .takingStderr => some { run.startReader .stderr with supervisor := .takingStdin }
  | .takingStdin =>
    if spec.stdinBytes.isNone then some { run with supervisor := .polling }
    else if run.held then some { run with writer := some ⟨none, false⟩, supervisor := .polling }
    else some { run with supervisor := .closing (.error .internal) }
  | .polling => some { run with supervisor := if run.cancelled then .terminating none else .waiting }
  | .waiting =>
    if run.held && success then
      match run.leader with
      | none => some { run with supervisor := .polling }
      | some status => some { run with supervisor := .terminating (some status), observed := true }
    else some { run with supervisor := .closing (.error .io) }
  | .terminating status =>
    if run.held && success then
      some { run.terminate spec with
        supervisor := .joiningStdout (status.getD (run.leader.getD spec.killed)) status.isNone }
    else some { run with held := false, supervisor := .closing (.error .io) }
  | .joiningStdout status wasCancelled => run.joinReader .stdout (.joiningStderr status wasCancelled)
  | .joiningStderr status wasCancelled stdout => run.joinReader .stderr (.joiningStdin status wasCancelled stdout)
  | .joiningStdin status wasCancelled stdout stderr =>
    match run.writer with
    | none => some { run with supervisor := .closing (outcome status wasCancelled stdout stderr) }
    | some writer => do
      let written ← writer.result
      return { run with
        writer := some { writer with joined := true }
        supervisor := .closing (if written then outcome status wasCancelled stdout stderr else .error .io) }
  | .closing body =>
    some { run with
      closed := spec.closedHandles
      supervisor := .returned (if success then body else body.bind fun _ => .error .io) }
  | .returned _ => none

/-- One step of a process, the scope, a thread or `run_child_process`. -/
def step (spec : ProcessSpec) (run : ChildRun) : Act → Option ChildRun
  | .write stream bytes =>
    if (run.pipes stream).writable then
      some (run.setPipe stream { run.pipes stream with written := (run.pipes stream).written ++ bytes })
    else none
  | .closePipe stream => some (run.setPipe stream { run.pipes stream with writable := false })
  | .exit status => if run.leader.isNone then some { run with leader := some status } else none
  | .cancel => some { run with cancelled := true, inTime := run.inTime || !run.observed }
  | .closeScope => some { run with scopeClosed := true }
  | .requestCancel =>
    if run.cancelled && run.registered then some (if run.held then run.terminate spec else run) else none
  | .read stream count => run.withReader stream fun pipe reader =>
    if 0 < count ∧ pipe.read + count ≤ pipe.written.length then
      let chunk := (pipe.written.drop pipe.read).take count
      some { pipe with read := pipe.read + count, reader := some (reader.receive spec chunk) }
    else none
  | .endOfFile stream => run.withReader stream fun pipe reader =>
    if pipe.writable = false ∧ pipe.read = pipe.written.length then
      some { pipe with reader := some (reader.finish spec) }
    else none
  | .failRead stream => run.withReader stream fun pipe reader =>
    some { pipe with reader := some { reader with result := some (.error .io) } }
  | .finishInput success => do
    let writer ← run.writer
    if writer.result.isSome then none
    else return { run with writer := some { writer with result := some success } }
  | .supervise success => run.supervise spec success

/-- The steps as a relation. -/
abbrev Step (spec : ProcessSpec) (run : ChildRun) (act : Act) (next : ChildRun) : Prop := run.step spec act = some next

end ChildRun

end HellRs.Process
