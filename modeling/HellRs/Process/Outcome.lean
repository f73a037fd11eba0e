import HellRs.Process.Child

/-! # The outcome of a child process

`Right` is what a run of a child process should come to. It holds in every run in which the process stays in its resource
until `run_child_process` terminates it, no operation on the process, its pipes, its input and its handles fails, no
cancellation comes between a look at the token and the exit that `try_wait` then finds, and no output is over its limit whose
reader is joined before another thread or after a cancellation.
-/

namespace HellRs.Process

open Labelled

namespace ChildRun

/-- If the output is a pipe, it has been read to its end, and what is captured is complete. -/
def Complete (spec : ProcessSpec) (run : ChildRun) (stream : Stream) (output : List UInt8) : Prop :=
  spec.piped stream = true → ∃ reader, (run.pipes stream).reader = some reader ∧
    reader.bytes = (run.pipes stream).written ∧ (spec.capture = true → output = (run.pipes stream).written)

/-- The output of the pipe is longer than the limit. -/
def OverLimit (spec : ProcessSpec) (pipe : Pipe) : Prop :=
  spec.capture = true ∧ ∃ limit, spec.processCaptureBytes = some limit ∧ limit < pipe.written.length

/-- What the run should have come to when it returns. -/
structure Right (spec : ProcessSpec) (run : ChildRun) (result : Except ProcessError Output) : Prop where
  cancelled : run.inTime = true → result = .error .cancelled
  finished : run.inTime = false →
    (∃ output, result = .ok output ∧ run.leader = some output.status ∧ Complete spec run .stdout output.stdout ∧
      Complete spec run .stderr output.stderr) ∨
    (result = .error .resourceLimit ∧ ∃ stream, OverLimit spec (run.pipes stream))
  readers : ∀ stream reader, (run.pipes stream).reader = some reader → reader.joined = true
  writer : ∀ writer, run.writer = some writer → writer.joined = true
  handles : ∀ handle, spec.stdout = .file handle true ∨ spec.stderr = .file handle true → handle ∈ run.closed

/-- The reader of the pipe has met the limit. -/
def exceeded (pipe : Pipe) : Bool := pipe.reader.any Reader.exceeded

/-- The supervision goes on undisturbed. -/
def Undisturbed (run : ChildRun) : Prop :=
  match run.supervisor with
  | .registering => run.scopeClosed = false
  | .waiting => run.leader.isSome = true → run.cancelled = false
  | .joiningStdout _ wasCancelled => exceeded (run.pipes .stdout) = true →
      (run.pipes .stderr).reader = none ∧ run.writer = none ∧ wasCancelled = false
  | .joiningStderr _ wasCancelled _ => exceeded (run.pipes .stderr) = true → run.writer = none ∧ wasCancelled = false
  | _ => True

/-- No step takes the process away, fails, or disturbs the supervision. -/
def Fits : Act → ChildRun → Prop
  | .requestCancel, run => run.held = false
  | .failRead _, _ => False
  | .finishInput success, _ => success = true
  | .supervise success, run => success = true ∧ run.Undisturbed
  | _, _ => True

/-- What holds of a pipe: the reader has what it has read, and its result says whether this is over the limit. -/
structure PipeFacts (spec : ProcessSpec) (pipe : Pipe) : Prop where
  read : pipe.read ≤ pipe.written.length
  bytes : ∀ reader, pipe.reader = some reader → reader.exceeded = false → reader.bytes = pipe.written.take pipe.read
  exceeded : ∀ reader, pipe.reader = some reader → reader.exceeded = true → OverLimit spec pipe
  ended : ∀ reader result, pipe.reader = some reader → reader.result = some result →
    pipe.writable = false ∧ pipe.read = pipe.written.length ∧
      result = if reader.exceeded then .error .resourceLimit else .ok (if spec.capture then reader.bytes else [])
  unread : pipe.reader = none → pipe.read = 0

/-- The pipe has not been taken. -/
def NotStarted (spec : ProcessSpec) (run : ChildRun) (stream : Stream) : Prop :=
  (run.pipes stream).untaken = spec.piped stream ∧ (run.pipes stream).reader = none

/-- If the output is a pipe, it has a reader. -/
def Started (spec : ProcessSpec) (run : ChildRun) (stream : Stream) : Prop :=
  spec.piped stream = true → (run.pipes stream).reader.isSome = true

/-- The reader of a pipe is joined, and this is what it has returned. -/
structure Joined (spec : ProcessSpec) (run : ChildRun) (stream : Stream) (output : List UInt8) : Prop where
  joined : ∀ reader, (run.pipes stream).reader = some reader → reader.joined = true ∧ reader.result.isSome = true
  complete : Complete spec run stream output

/-- What holds of the cancellation and the leader while the threads are joined. -/
structure Ended (run : ChildRun) (status : ExitStatus) (wasCancelled : Bool) : Prop where
  inTime : run.inTime = wasCancelled
  observed : wasCancelled = false → run.observed = true
  leader : wasCancelled = false → run.leader = some status

/-- The process is there, and its exit has not been found. -/
structure Alive (run : ChildRun) : Prop where
  held : run.held = true
  observed : run.observed = false

/-- All threads are joined and the result is right; the handles may be open. -/
structure Settled (spec : ProcessSpec) (run : ChildRun) (result : Except ProcessError Output) : Prop where
  cancelled : run.inTime = true → result = .error .cancelled
  observed : run.inTime = false → run.observed = true
  finished : run.inTime = false →
    (∃ output, result = .ok output ∧ run.leader = some output.status ∧ Complete spec run .stdout output.stdout ∧
      Complete spec run .stderr output.stderr) ∨
    (result = .error .resourceLimit ∧ ∃ stream, OverLimit spec (run.pipes stream))
  readers : ∀ stream reader, (run.pipes stream).reader = some reader → reader.joined = true ∧ reader.result.isSome = true
  writer : ∀ writer, run.writer = some writer → writer.joined = true

/-- What holds at each place of the supervision. -/
def Stage (spec : ProcessSpec) (run : ChildRun) : Prop :=
  match run.supervisor with
  | .registering | .takingStdout => run.Alive ∧ (∀ stream, NotStarted spec run stream) ∧ run.writer = none
  | .takingStderr => run.Alive ∧ Started spec run .stdout ∧ NotStarted spec run .stderr ∧ run.writer = none
  | .takingStdin => run.Alive ∧ (∀ stream, Started spec run stream) ∧ run.writer = none
  | .polling | .waiting => run.Alive ∧ ∀ stream, Started spec run stream
  | .terminating none => run.held = true ∧ run.inTime = true ∧ ∀ stream, Started spec run stream
  | .terminating (some status) => run.held = true ∧ run.Ended status false ∧ ∀ stream, Started spec run stream
  | .joiningStdout status wasCancelled => run.Ended status wasCancelled ∧ ∀ stream, Started spec run stream
  | .joiningStderr status wasCancelled stdout =>
    run.Ended status wasCancelled ∧ Joined spec run .stdout stdout ∧ Started spec run .stderr
  | .joiningStdin status wasCancelled stdout stderr =>
    run.Ended status wasCancelled ∧ Joined spec run .stdout stdout ∧ Joined spec run .stderr stderr
  | .closing body => Settled spec run body
  | .returned result => Settled spec run result ∧ run.closed = spec.closedHandles

/-- The invariant of an undisturbed run. -/
structure Invariant (spec : ProcessSpec) (run : ChildRun) : Prop where
  pipes : ∀ stream, PipeFacts spec (run.pipes stream)
  timing : run.observed = false → run.inTime = run.cancelled
  input : ∀ writer, run.writer = some writer → writer.result ≠ some false
  stage : Stage spec run

/-! ### What others do to a run -/

/-- A pipe may be written, closed and read. -/
structure PipeFollows (pipe next : Pipe) : Prop where
  untaken : next.untaken = pipe.untaken
  absent : pipe.reader = none → next.reader = none
  present : ∀ reader, pipe.reader = some reader → ∃ reader', next.reader = some reader' ∧ reader'.joined = reader.joined ∧
    (reader.result.isSome = true → reader' = reader)
  ended : pipe.writable = false → next.written = pipe.written ∧ next.writable = false
  overLimit : ∀ spec, OverLimit spec pipe → OverLimit spec next

/-- What the processes, the scope and the threads leave as it is. -/
structure Follows (run next : ChildRun) : Prop where
  supervisor : next.supervisor = run.supervisor
  held : next.held = run.held
  observed : next.observed = run.observed
  closed : next.closed = run.closed
  leader : ∀ status, run.leader = some status → next.leader = some status
  inTime : run.inTime = true ∨ run.observed = true → next.inTime = run.inTime
  noWriter : run.writer = none → next.writer = none
  writer : ∀ writer', next.writer = some writer' → ∃ writer, run.writer = some writer ∧ writer'.joined = writer.joined
  pipes : ∀ stream, PipeFollows (run.pipes stream) (next.pipes stream)

theorem PipeFollows.refl (pipe : Pipe) : PipeFollows pipe pipe where
  untaken := rfl
  absent := id
  present reader found := ⟨reader, found, rfl, fun _ => rfl⟩
  ended closed := ⟨rfl, closed⟩
  overLimit _ := id

theorem setPipe_pipes (run : ChildRun) (stream other : Stream) (pipe : Pipe) :
    (run.setPipe stream pipe).pipes other = if other = stream then pipe else run.pipes other := by
  simp only [setPipe, Function.update_apply]

theorem Follows.setPipe {run : ChildRun} {stream : Stream} {pipe : Pipe} (follows : PipeFollows (run.pipes stream) pipe) :
    Follows run (run.setPipe stream pipe) where
  supervisor := rfl
  held := rfl
  observed := rfl
  closed := rfl
  leader _ := id
  inTime _ := rfl
  noWriter := id
  writer writer' found := ⟨writer', found, rfl⟩
  pipes other := by
    rw [setPipe_pipes]
    split
    next same => exact same ▸ follows
    next => exact .refl _

variable {spec : ProcessSpec} {run next : ChildRun} {stream : Stream}

/-- A running reader that takes a step. -/
theorem withReader_eq_some {act : Pipe → Reader → Option Pipe} (stepped : run.withReader stream act = some next) :
    ∃ reader pipe, (run.pipes stream).reader = some reader ∧ reader.result = none ∧
      act (run.pipes stream) reader = some pipe ∧ next = run.setPipe stream pipe := by
  simp only [withReader, Option.bind_eq_bind, Option.bind_eq_some_iff] at stepped
  obtain ⟨reader, found, stepped⟩ := stepped
  split at stepped
  next => cases stepped
  next running =>
    obtain ⟨pipe, acted, equal⟩ := Option.bind_eq_some_iff.mp stepped
    cases equal
    exact ⟨reader, pipe, found, by simpa using running, acted, rfl⟩

theorem OverLimit.append {pipe : Pipe} (exceeds : OverLimit spec pipe) (bytes : List UInt8) :
    OverLimit spec { pipe with written := pipe.written ++ bytes } := by
  obtain ⟨capture, limit, isLimit, longer⟩ := exceeds
  refine ⟨capture, limit, isLimit, ?_⟩
  simp only [List.length_append]
  omega

theorem write_facts (facts : PipeFacts spec (run.pipes stream)) (bytes : List UInt8)
    (writable : (run.pipes stream).writable = true) :
    let pipe := { run.pipes stream with written := (run.pipes stream).written ++ bytes }
    PipeFollows (run.pipes stream) pipe ∧ PipeFacts spec pipe := by
  generalize run.pipes stream = pipe at *
  refine ⟨⟨rfl, id, fun reader found => ⟨reader, found, rfl, fun _ => rfl⟩, fun closed => ?_, fun _ exceeds => exceeds.append bytes⟩,
    ?_, fun reader found fits => ?_, fun reader found exceeds => ?_, fun reader result found finished => ?_, facts.unread⟩
  · rw [writable] at closed
    cases closed
  · simp only [List.length_append]
    exact facts.read.trans (Nat.le_add_right _ _)
  · rw [facts.bytes reader found fits]
    exact (List.take_append_of_le_length facts.read).symm
  · exact (facts.exceeded reader found exceeds).append bytes
  · have closed := (facts.ended reader result found finished).1
    rw [writable] at closed
    cases closed

theorem closePipe_facts (facts : PipeFacts spec (run.pipes stream)) :
    let pipe := { run.pipes stream with writable := false }
    PipeFollows (run.pipes stream) pipe ∧ PipeFacts spec pipe := by
  refine ⟨⟨rfl, id, fun reader found => ⟨reader, found, rfl, fun _ => rfl⟩, fun _ => ⟨rfl, rfl⟩, fun _ => id⟩,
    facts.read, facts.bytes, facts.exceeded, fun reader result found finished => ?_, facts.unread⟩
  exact ⟨rfl, (facts.ended reader result found finished).2⟩

/-- A reader that has not finished may be replaced by one that has the right facts. -/
theorem PipeFollows.reader {pipe : Pipe} {reader reader' : Reader} (found : pipe.reader = some reader)
    (running : reader.result = none) (joined : reader'.joined = reader.joined) (read : ℕ) :
    PipeFollows pipe { pipe with read := read, reader := some reader' } where
  untaken := rfl
  absent absent := by
    rw [absent] at found
    cases found
  present reader'' found' := by
    obtain rfl := Option.some.inj (found.symm.trans found')
    refine ⟨reader', rfl, joined, fun finished => ?_⟩
    rw [running] at finished
    cases finished
  ended closed := ⟨rfl, closed⟩
  overLimit _ := id

theorem receive_facts {pipe : Pipe} (facts : PipeFacts spec pipe) {reader : Reader} (found : pipe.reader = some reader)
    (running : reader.result = none) {count : ℕ} (there : pipe.read + count ≤ pipe.written.length) :
    PipeFacts spec { pipe with
      read := pipe.read + count
      reader := some (reader.receive spec ((pipe.written.drop pipe.read).take count)) } := by
  have chunk : ((pipe.written.drop pipe.read).take count).length = count := by
    rw [List.length_take, List.length_drop]
    omega
  have notFinished : (reader.receive spec ((pipe.written.drop pipe.read).take count)).result = none := by
    unfold Reader.receive
    split
    · exact running
    · split <;> exact running
  refine ⟨there, fun reader' found' fits => ?_, fun reader' found' exceeds => ?_, fun reader' result found' finished => ?_, nofun⟩
  · obtain rfl := Option.some.inj found'
    unfold Reader.receive at fits ⊢
    split at fits
    next => cases fits
    next within =>
      rw [if_neg within]
      split at fits
      next exceeds =>
        rw [exceeds] at fits
        cases fits
      next fits' =>
        rw [if_neg fits']
        rw [Bool.not_eq_true] at fits'
        show reader.bytes ++ _ = _
        rw [facts.bytes reader found fits', ← List.take_add]
  · obtain rfl := Option.some.inj found'
    by_cases already : reader.exceeded = true
    · exact facts.exceeded reader found already
    · rw [Bool.not_eq_true] at already
      unfold Reader.receive at exceeds
      split at exceeds
      next beyond =>
        rw [Bool.and_eq_true, Option.any_eq_true] at beyond
        obtain ⟨capture, limit, isLimit, longer⟩ := beyond
        refine ⟨capture, limit, isLimit, ?_⟩
        have length := congrArg List.length (facts.bytes reader found already)
        rw [List.length_take, min_eq_left facts.read] at length
        rw [decide_eq_true_eq, chunk] at longer
        show limit < pipe.written.length
        omega
      next =>
        simp only [already, Bool.false_eq_true, if_false] at exceeds
  · obtain rfl := Option.some.inj found'
    rw [notFinished] at finished
    cases finished

theorem finish_facts {pipe : Pipe} (facts : PipeFacts spec pipe) {reader : Reader} (found : pipe.reader = some reader)
    (closed : pipe.writable = false) (atEnd : pipe.read = pipe.written.length) :
    PipeFacts spec { pipe with reader := some (reader.finish spec) } := by
  refine ⟨facts.read, fun reader' found' => ?_, fun reader' found' => ?_, fun reader' result found' finished => ?_, nofun⟩
  · obtain rfl := Option.some.inj found'
    exact facts.bytes reader found
  · obtain rfl := Option.some.inj found'
    exact facts.exceeded reader found
  · obtain rfl := Option.some.inj found'
    cases finished
    exact ⟨closed, atEnd, rfl⟩

/-- What others do keeps the facts of the pipes and the cancellation, and all that `Follows` says. -/
theorem others_follow (invariant : Invariant spec run) {act : Act} (fits : Fits act run)
    (other : ∀ success, act ≠ .supervise success) (stepped : run.step spec act = some next) :
    Follows run next ∧ (∀ stream, PipeFacts spec (next.pipes stream)) ∧ (next.observed = false → next.inTime = next.cancelled) ∧
      ∀ writer, next.writer = some writer → writer.result ≠ some false := by
  obtain ⟨pipes, timing, input, -⟩ := invariant
  have framed (stream : Stream) (pipe : Pipe) (follows : PipeFollows (run.pipes stream) pipe) (facts : PipeFacts spec pipe) :
      Follows run (run.setPipe stream pipe) ∧ (∀ stream', PipeFacts spec ((run.setPipe stream pipe).pipes stream')) ∧
        ((run.setPipe stream pipe).observed = false → (run.setPipe stream pipe).inTime = (run.setPipe stream pipe).cancelled) ∧
        ∀ writer, (run.setPipe stream pipe).writer = some writer → writer.result ≠ some false := by
    refine ⟨.setPipe follows, fun stream' => ?_, timing, input⟩
    rw [setPipe_pipes]
    split
    next => exact facts
    next => exact pipes stream'
  cases act with
  | write stream bytes =>
    simp only [step] at stepped
    split at stepped
    next writable =>
      cases stepped
      exact framed stream _ (write_facts (pipes stream) bytes writable).1 (write_facts (pipes stream) bytes writable).2
    next => cases stepped
  | closePipe stream =>
    cases stepped
    exact framed stream _ (closePipe_facts (pipes stream)).1 (closePipe_facts (pipes stream)).2
  | exit status =>
    simp only [step] at stepped
    split at stepped
    next running =>
      cases stepped
      refine ⟨⟨rfl, rfl, rfl, rfl, fun status' exited => ?_, fun _ => rfl, id, fun writer found => ⟨writer, found, rfl⟩,
        fun _ => .refl _⟩, pipes, timing, input⟩
      rw [exited] at running
      cases running
    next => cases stepped
  | cancel =>
    cases stepped
    refine ⟨⟨rfl, rfl, rfl, rfl, fun _ => id, fun settled => ?_, id, fun writer found => ⟨writer, found, rfl⟩,
      fun _ => .refl _⟩, pipes, fun unobserved => ?_, input⟩
    · rcases settled with inTime | observed
      · simp [inTime]
      · simp [observed]
    · have unobserved : run.observed = false := unobserved
      simp [unobserved]
  | closeScope =>
    cases stepped
    exact ⟨⟨rfl, rfl, rfl, rfl, fun _ => id, fun _ => rfl, id, fun writer found => ⟨writer, found, rfl⟩, fun _ => .refl _⟩,
      pipes, timing, input⟩
  | requestCancel =>
    have gone : run.held = false := fits
    simp only [step, gone, Bool.false_eq_true, if_false] at stepped
    split at stepped
    next =>
      cases stepped
      exact ⟨⟨rfl, rfl, rfl, rfl, fun _ => id, fun _ => rfl, id, fun writer found => ⟨writer, found, rfl⟩, fun _ => .refl _⟩,
        pipes, timing, input⟩
    next => cases stepped
  | read stream count =>
    simp only [step] at stepped
    obtain ⟨reader, pipe, found, running, acted, rfl⟩ := withReader_eq_some stepped
    split at acted
    next there =>
      cases acted
      refine framed stream _ (.reader found running ?_ _) (receive_facts (pipes stream) found running there.2)
      unfold Reader.receive
      split
      · rfl
      · split <;> rfl
    next => cases acted
  | endOfFile stream =>
    simp only [step] at stepped
    obtain ⟨reader, pipe, found, running, acted, rfl⟩ := withReader_eq_some stepped
    split at acted
    next atEnd =>
      cases acted
      exact framed stream _ (@PipeFollows.reader _ reader (reader.finish spec) found running rfl _)
        (finish_facts (pipes stream) found atEnd.1 atEnd.2)
    next => cases acted
  | failRead stream => exact fits.elim
  | finishInput success =>
    obtain rfl : success = true := fits
    simp only [step, Option.bind_eq_bind, Option.bind_eq_some_iff] at stepped
    obtain ⟨writer, found, stepped⟩ := stepped
    split at stepped
    next => cases stepped
    next =>
      cases stepped
      refine ⟨⟨rfl, rfl, rfl, rfl, fun _ => id, fun _ => rfl, fun absent => ?_, fun writer' found' => ?_, fun _ => .refl _⟩,
        pipes, timing, fun writer' found' => ?_⟩
      · rw [absent] at found
        cases found
      · obtain rfl := Option.some.inj found'
        exact ⟨writer, found, rfl⟩
      · obtain rfl := Option.some.inj found'
        nofun
  | supervise success => exact absurd rfl (other success)

section Follows

variable (follows : Follows run next)
include follows

theorem NotStarted.frame (fresh : NotStarted spec run stream) : NotStarted spec next stream :=
  ⟨(follows.pipes stream).untaken.trans fresh.1, (follows.pipes stream).absent fresh.2⟩

theorem Started.frame (started : Started spec run stream) : Started spec next stream := by
  intro piped
  obtain ⟨reader, found⟩ := Option.isSome_iff_exists.mp (started piped)
  obtain ⟨reader', found', -⟩ := (follows.pipes stream).present reader found
  rw [found']
  rfl

theorem Alive.frame (alive : run.Alive) : next.Alive :=
  ⟨follows.held.trans alive.held, follows.observed.trans alive.observed⟩

theorem Ended.frame {status : ExitStatus} {wasCancelled : Bool} (ended : run.Ended status wasCancelled) :
    next.Ended status wasCancelled := by
  refine ⟨?_, fun finished => follows.observed.trans (ended.observed finished),
    fun finished => follows.leader status (ended.leader finished)⟩
  rw [follows.inTime, ended.inTime]
  cases wasCancelled with
  | true => exact .inl ended.inTime
  | false => exact .inr (ended.observed rfl)

/-- A pipe whose reader has finished does not change any more. -/
theorem finished_follows (facts : PipeFacts spec (run.pipes stream))
    (finished : ∀ reader, (run.pipes stream).reader = some reader → reader.joined = true ∧ reader.result.isSome = true) :
    (∀ reader, (next.pipes stream).reader = some reader → reader.joined = true ∧ reader.result.isSome = true) ∧
      ∀ output, Complete spec run stream output → Complete spec next stream output := by
  have pipe := follows.pipes stream
  cases found : (run.pipes stream).reader with
  | none =>
    have absent := pipe.absent found
    refine ⟨fun reader found' => ?_, fun output complete piped => ?_⟩
    · rw [absent] at found'
      cases found'
    · obtain ⟨reader, found', -⟩ := complete piped
      rw [found] at found'
      cases found'
  | some reader =>
    obtain ⟨joined, ended⟩ := finished reader found
    obtain ⟨result, isResult⟩ := Option.isSome_iff_exists.mp ended
    obtain ⟨reader', found', -, same⟩ := pipe.present reader found
    obtain rfl := same ended
    have written := (pipe.ended (facts.ended reader' result found isResult).1).1
    refine ⟨fun reader found'' => ?_, fun output complete piped => ?_⟩
    · obtain rfl := Option.some.inj (found'.symm.trans found'')
      exact ⟨joined, ended⟩
    · obtain ⟨reader, found'', bytes, captured⟩ := complete piped
      obtain rfl := Option.some.inj (found.symm.trans found'')
      exact ⟨reader', found', written ▸ bytes, fun capture => written ▸ captured capture⟩

theorem Joined.frame {output : List UInt8} (facts : PipeFacts spec (run.pipes stream))
    (joined : Joined spec run stream output) : Joined spec next stream output :=
  have finished := finished_follows follows facts joined.joined
  ⟨finished.1, finished.2 output joined.complete⟩

theorem Settled.frame (facts : ∀ stream, PipeFacts spec (run.pipes stream)) {result : Except ProcessError Output}
    (settled : Settled spec run result) : Settled spec next result := by
  have inTime : next.inTime = run.inTime := by
    refine follows.inTime ?_
    cases timely : run.inTime with
    | true => exact .inl rfl
    | false => exact .inr (settled.observed timely)
  have finished stream := finished_follows follows (facts stream) (settled.readers stream)
  refine ⟨fun timely => settled.cancelled (inTime ▸ timely), fun late => ?_, fun late => ?_, fun stream => (finished stream).1,
    fun writer' found' => ?_⟩
  · exact follows.observed.trans (settled.observed (inTime ▸ late))
  · rcases settled.finished (inTime ▸ late) with ⟨output, isOutput, leader, stdout, stderr⟩ | ⟨isLimit, stream, exceeds⟩
    · exact .inl ⟨output, isOutput, follows.leader _ leader, (finished .stdout).2 _ stdout, (finished .stderr).2 _ stderr⟩
    · exact .inr ⟨isLimit, stream, (follows.pipes stream).overLimit spec exceeds⟩
  · obtain ⟨writer, found, joined⟩ := follows.writer writer' found'
    exact joined.trans (settled.writer writer found)

theorem Stage.frame (facts : ∀ stream, PipeFacts spec (run.pipes stream)) (stage : Stage spec run) : Stage spec next := by
  have alive := @Alive.frame run next follows
  have started := fun stream => @Started.frame spec run next stream follows
  have fresh := fun stream => @NotStarted.frame spec run next stream follows
  have joined := fun stream output => @Joined.frame spec run next stream follows output (facts stream)
  unfold Stage at stage ⊢
  rw [follows.supervisor]
  split at stage
  · exact ⟨alive stage.1, fun stream => fresh stream (stage.2.1 stream), follows.noWriter stage.2.2⟩
  · exact ⟨alive stage.1, fun stream => fresh stream (stage.2.1 stream), follows.noWriter stage.2.2⟩
  · exact ⟨alive stage.1, started _ stage.2.1, fresh _ stage.2.2.1, follows.noWriter stage.2.2.2⟩
  · exact ⟨alive stage.1, fun stream => started stream (stage.2.1 stream), follows.noWriter stage.2.2⟩
  · exact ⟨alive stage.1, fun stream => started stream (stage.2 stream)⟩
  · exact ⟨alive stage.1, fun stream => started stream (stage.2 stream)⟩
  · exact ⟨follows.held.trans stage.1, (follows.inTime (.inl stage.2.1)).trans stage.2.1,
      fun stream => started stream (stage.2.2 stream)⟩
  · exact ⟨follows.held.trans stage.1, stage.2.1.frame follows, fun stream => started stream (stage.2.2 stream)⟩
  · exact ⟨stage.1.frame follows, fun stream => started stream (stage.2 stream)⟩
  · exact ⟨stage.1.frame follows, joined _ _ stage.2.1, started _ stage.2.2⟩
  · exact ⟨stage.1.frame follows, joined _ _ stage.2.1, joined _ _ stage.2.2⟩
  · exact stage.frame follows facts
  · exact ⟨stage.1.frame follows facts, follows.closed.trans stage.2⟩

end Follows

/-! ### What the supervision does -/

theorem Complete.congr {output : List UInt8} (same : next.pipes stream = run.pipes stream)
    (complete : Complete spec run stream output) : Complete spec next stream output := by
  unfold Complete
  rw [same]
  exact complete

theorem pipes_setPipe (facts : ∀ stream, PipeFacts spec (run.pipes stream)) {pipe : Pipe} (fact : PipeFacts spec pipe)
    (other : Stream) : PipeFacts spec ((run.setPipe stream pipe).pipes other) := by
  rw [setPipe_pipes]
  split
  next => exact fact
  next => exact facts other

theorem Joined.congr {output : List UInt8} (same : next.pipes stream = run.pipes stream)
    (joined : Joined spec run stream output) : Joined spec next stream output :=
  ⟨same ▸ joined.joined, joined.complete.congr same⟩

theorem Started.congr (same : next.pipes stream = run.pipes stream) (started : Started spec run stream) :
    Started spec next stream := by
  unfold Started
  rw [same]
  exact started

/-- The pipe of a process that is there gets a reader. -/
theorem startReader_eq (held : run.held = true) (fresh : NotStarted spec run stream)
    (facts : PipeFacts spec (run.pipes stream)) : ∃ pipe, run.startReader stream = run.setPipe stream pipe ∧
      PipeFacts spec pipe ∧ (spec.piped stream = true → pipe.reader.isSome = true) := by
  unfold startReader
  rw [held, fresh.1, Bool.true_and]
  split
  next =>
    refine ⟨_, rfl, ?_, fun _ => rfl⟩
    refine ⟨facts.read, fun reader found _ => ?_, fun reader found exceeds => ?_, fun reader result found finished => ?_, nofun⟩
    · obtain rfl := Option.some.inj found
      show [] = (run.pipes stream).written.take (run.pipes stream).read
      rw [facts.unread fresh.2, List.take_zero]
    · obtain rfl := Option.some.inj found
      cases exceeds
    · obtain rfl := Option.some.inj found
      cases finished
  next direct =>
    have same : run.setPipe stream (run.pipes stream) = run := by simp only [setPipe, Function.update_eq_self]
    exact ⟨run.pipes stream, same.symm, facts, fun piped => absurd piped direct⟩

/-- A reader that is joined has returned the complete output, or the output is over the limit. -/
theorem joinReader_eq_some {goesOn : List UInt8 → Supervisor} (started : Started spec run stream)
    (facts : PipeFacts spec (run.pipes stream)) (stepped : run.joinReader stream goesOn = some next) :
    ∃ pipe, PipeFacts spec pipe ∧ (∀ reader, pipe.reader = some reader → reader.joined = true ∧ reader.result.isSome = true) ∧
      ((∃ output, next = { run.setPipe stream pipe with supervisor := goesOn output } ∧
        Complete spec (run.setPipe stream pipe) stream output) ∨
      (next = { run.setPipe stream pipe with supervisor := .closing (.error .resourceLimit) } ∧
        exceeded (run.pipes stream) = true ∧ OverLimit spec pipe)) := by
  unfold joinReader at stepped
  split at stepped
  next absent =>
    cases stepped
    have same : run.setPipe stream (run.pipes stream) = run := by simp only [setPipe, Function.update_eq_self]
    refine ⟨run.pipes stream, facts, fun reader found => ?_, .inl ⟨[], by rw [same], fun piped => ?_⟩⟩
    · rw [absent] at found
      cases found
    · have present := started piped
      rw [absent] at present
      cases present
  next reader found =>
    simp only [Option.bind_eq_bind, Option.bind_eq_some_iff] at stepped
    obtain ⟨result, finished, equal⟩ := stepped
    cases equal
    obtain ⟨closed, atEnd, isResult⟩ := facts.ended reader result found finished
    have joinedFacts : PipeFacts spec { run.pipes stream with reader := some { reader with joined := true } } := by
      refine ⟨facts.read, fun reader' found' => ?_, fun reader' found' => ?_, fun reader' result' found' finished' => ?_, nofun⟩
      · obtain rfl := Option.some.inj found'
        exact facts.bytes reader found
      · obtain rfl := Option.some.inj found'
        exact facts.exceeded reader found
      · obtain rfl := Option.some.inj found'
        exact facts.ended reader result' found finished'
    refine ⟨_, joinedFacts, fun reader' found' => ?_, ?_⟩
    · obtain rfl := Option.some.inj found'
      exact ⟨rfl, by rw [finished]; rfl⟩
    · cases exceeds : reader.exceeded with
      | true =>
        rw [exceeds, if_pos rfl] at isResult
        subst isResult
        exact .inr ⟨rfl, by rw [exceeded, found]; exact exceeds, facts.exceeded reader found exceeds⟩
      | false =>
        rw [exceeds, if_neg Bool.false_ne_true] at isResult
        subst isResult
        have bytes : reader.bytes = (run.pipes stream).written := by
          rw [facts.bytes reader found exceeds, atEnd, List.take_length]
        refine .inl ⟨_, rfl, fun _ => ⟨{ reader with joined := true }, ?_, ?_, fun capture => ?_⟩⟩
        · rw [setPipe_pipes, if_pos rfl]
          simp only [exceeds]
        · rw [setPipe_pipes, if_pos rfl]
          exact bytes
        · rw [setPipe_pipes, if_pos rfl, if_pos capture]
          exact bytes

theorem stream_cases {motive : Stream → Prop} (stdout : motive .stdout) (stderr : motive .stderr) (stream : Stream) :
    motive stream := by
  cases stream
  · exact stdout
  · exact stderr

/-- Terminating the process closes its pipes and keeps what is known of the readers. -/
theorem terminate_facts (facts : ∀ stream, PipeFacts spec (run.pipes stream)) (stream : Stream) :
    PipeFacts spec ((run.terminate spec).pipes stream) := (closePipe_facts (facts stream)).2

/-- With all readers joined, the outcome is the right one. -/
theorem outcome_settled {status : ExitStatus} {wasCancelled : Bool} {stdout stderr : List UInt8}
    (ended : run.Ended status wasCancelled) (joinedStdout : Joined spec run .stdout stdout)
    (joinedStderr : Joined spec run .stderr stderr) (samePipes : next.pipes = run.pipes) (sameTime : next.inTime = run.inTime)
    (sameObserved : next.observed = run.observed) (sameLeader : next.leader = run.leader)
    (writer : ∀ writer, next.writer = some writer → writer.joined = true) :
    Settled spec next (outcome status wasCancelled stdout stderr) where
  cancelled timely := by
    obtain rfl : wasCancelled = true := ended.inTime.symm.trans (sameTime.symm.trans timely)
    rfl
  observed late := by
    obtain rfl : wasCancelled = false := ended.inTime.symm.trans (sameTime.symm.trans late)
    exact sameObserved.trans (ended.observed rfl)
  finished late := by
    obtain rfl : wasCancelled = false := ended.inTime.symm.trans (sameTime.symm.trans late)
    refine .inl ⟨_, rfl, sameLeader.trans (ended.leader rfl), joinedStdout.complete.congr (by rw [samePipes]), ?_⟩
    exact joinedStderr.complete.congr (by rw [samePipes])
  readers := by
    rw [samePipes]
    exact stream_cases joinedStdout.joined joinedStderr.joined
  writer := writer

/-- One step of the supervision that is not disturbed. -/
theorem supervise_keeps (invariant : Invariant spec run) (undisturbed : run.Undisturbed)
    (stepped : run.supervise spec true = some next) : Invariant spec next := by
  obtain ⟨pipes, timing, input, stage⟩ := invariant
  unfold Stage at stage
  unfold Undisturbed at undisturbed
  unfold supervise at stepped
  cases place : run.supervisor with
  | registering =>
    simp only [place] at stage undisturbed stepped
    rw [undisturbed] at stepped
    cases stepped
    obtain ⟨alive, fresh, noWriter⟩ := stage
    exact ⟨pipes, timing, input, ⟨alive.held, alive.observed⟩, fresh, noWriter⟩
  | takingStdout =>
    simp only [place] at stage stepped
    obtain ⟨alive, fresh, noWriter⟩ := stage
    obtain ⟨pipe, taken, fact, started⟩ := startReader_eq alive.held (fresh .stdout) (pipes .stdout)
    rw [taken] at stepped
    cases stepped
    exact ⟨pipes_setPipe pipes fact, timing, input, ⟨alive.held, alive.observed⟩, started, fresh .stderr, noWriter⟩
  | takingStderr =>
    simp only [place] at stage stepped
    obtain ⟨alive, startedStdout, fresh, noWriter⟩ := stage
    obtain ⟨pipe, taken, fact, started⟩ := startReader_eq alive.held fresh (pipes .stderr)
    rw [taken] at stepped
    cases stepped
    exact ⟨pipes_setPipe pipes fact, timing, input, ⟨alive.held, alive.observed⟩,
      stream_cases startedStdout started, noWriter⟩
  | takingStdin =>
    simp only [place] at stage stepped
    obtain ⟨alive, started, noWriter⟩ := stage
    split at stepped
    next =>
      cases stepped
      exact ⟨pipes, timing, input, ⟨alive.held, alive.observed⟩, started⟩
    next =>
      rw [if_pos alive.held] at stepped
      cases stepped
      refine ⟨pipes, timing, fun writer found => ?_, ⟨alive.held, alive.observed⟩, started⟩
      obtain rfl := Option.some.inj found
      nofun
  | polling =>
    simp only [place] at stage stepped
    obtain ⟨alive, started⟩ := stage
    by_cases cancelled : run.cancelled = true
    · rw [if_pos cancelled] at stepped
      cases stepped
      exact ⟨pipes, timing, input, alive.held, (timing alive.observed).trans cancelled, started⟩
    · rw [if_neg cancelled] at stepped
      cases stepped
      exact ⟨pipes, timing, input, ⟨alive.held, alive.observed⟩, started⟩
  | waiting =>
    simp only [place] at stage undisturbed stepped
    obtain ⟨alive, started⟩ := stage
    rw [if_pos (by rw [alive.held]; rfl)] at stepped
    split at stepped
    next =>
      cases stepped
      exact ⟨pipes, timing, input, ⟨alive.held, alive.observed⟩, started⟩
    next status leader =>
      cases stepped
      have late : run.inTime = false := (timing alive.observed).trans (undisturbed (by rw [leader]; rfl))
      exact ⟨pipes, nofun, input, alive.held, ⟨late, fun _ => rfl, fun _ => leader⟩, started⟩
  | terminating status =>
    simp only [place] at stage stepped
    cases status with
    | none =>
      obtain ⟨held, inTime, started⟩ := stage
      rw [if_pos (by rw [held]; rfl)] at stepped
      cases stepped
      exact ⟨terminate_facts pipes, timing, input, ⟨inTime, nofun, nofun⟩, started⟩
    | some status =>
      obtain ⟨held, ended, started⟩ := stage
      rw [if_pos (by rw [held]; rfl)] at stepped
      cases stepped
      refine ⟨terminate_facts pipes, timing, input, ⟨ended.inTime, ended.observed, fun _ => ?_⟩, started⟩
      show some (run.leader.getD spec.killed) = some status
      rw [ended.leader rfl]
      rfl
  | joiningStdout status wasCancelled =>
    simp only [place] at stage undisturbed stepped
    obtain ⟨ended, started⟩ := stage
    obtain ⟨pipe, fact, joined, outcome⟩ := joinReader_eq_some (started .stdout) (pipes .stdout) stepped
    rcases outcome with ⟨output, rfl, complete⟩ | ⟨rfl, exceeds, limit⟩
    · exact ⟨pipes_setPipe pipes fact, timing, input, ⟨ended.inTime, ended.observed, ended.leader⟩, ⟨joined, complete⟩,
        started .stderr⟩
    · obtain ⟨noReader, noWriter, rfl⟩ := undisturbed exceeds
      refine ⟨pipes_setPipe pipes fact, timing, input, ?_⟩
      refine ⟨fun timely => ?_, fun _ => ended.observed rfl, fun _ => .inr ⟨rfl, .stdout, limit⟩, ?_, fun writer found => ?_⟩
      · exact absurd (timely.symm.trans ended.inTime) (by decide)
      · refine stream_cases joined fun reader found => ?_
        exact absurd (noReader.symm.trans found) (by nofun)
      · exact absurd (noWriter.symm.trans found) (by nofun)
  | joiningStderr status wasCancelled stdout =>
    simp only [place] at stage undisturbed stepped
    obtain ⟨ended, joinedStdout, started⟩ := stage
    obtain ⟨pipe, fact, joined, outcome⟩ := joinReader_eq_some started (pipes .stderr) stepped
    rcases outcome with ⟨output, rfl, complete⟩ | ⟨rfl, exceeds, limit⟩
    · exact ⟨pipes_setPipe pipes fact, timing, input, ⟨ended.inTime, ended.observed, ended.leader⟩, @Joined.congr spec run _ .stdout stdout rfl joinedStdout,
        ⟨joined, complete⟩⟩
    · obtain ⟨noWriter, rfl⟩ := undisturbed exceeds
      refine ⟨pipes_setPipe pipes fact, timing, input, ?_⟩
      refine ⟨fun timely => ?_, fun _ => ended.observed rfl, fun _ => .inr ⟨rfl, .stderr, limit⟩,
        stream_cases joinedStdout.joined joined, fun writer found => ?_⟩
      · exact absurd (timely.symm.trans ended.inTime) (by decide)
      · exact absurd (noWriter.symm.trans found) (by nofun)
  | joiningStdin status wasCancelled stdout stderr =>
    simp only [place] at stage stepped
    obtain ⟨ended, joinedStdout, joinedStderr⟩ := stage
    split at stepped
    next noWriter =>
      cases stepped
      refine ⟨pipes, timing, input, outcome_settled ended joinedStdout joinedStderr rfl rfl rfl rfl fun writer found => ?_⟩
      exact absurd (noWriter.symm.trans found) (by nofun)
    next writer found =>
      simp only [Option.bind_eq_bind, Option.bind_eq_some_iff] at stepped
      obtain ⟨written, finished, equal⟩ := stepped
      cases equal
      have success : written = true := by
        cases written
        · exact absurd finished (input writer found)
        · rfl
      subst success
      refine ⟨pipes, timing, fun writer' found' => ?_,
        outcome_settled ended joinedStdout joinedStderr rfl rfl rfl rfl fun writer' found' => ?_⟩
      · obtain rfl := Option.some.inj found'
        exact input writer found
      · obtain rfl := Option.some.inj found'
        rfl
  | closing body =>
    simp only [place] at stage stepped
    cases stepped
    exact ⟨pipes, timing, input, ⟨stage.cancelled, stage.observed, stage.finished, stage.readers, stage.writer⟩, rfl⟩
  | returned result =>
    simp only [place] at stepped
    cases stepped

theorem mem_closedHandles {handle : ℕ} (marked : spec.stdout = .file handle true ∨ spec.stderr = .file handle true) :
    handle ∈ spec.closedHandles := by
  unfold ProcessSpec.closedHandles
  by_cases first : handle ∈ spec.stdout.marked
  · exact List.mem_append_left _ first
  · refine List.mem_append_right _ (List.mem_filter.mpr ⟨?_, by simpa using first⟩)
    rcases marked with stdout | stderr
    · rw [stdout] at first
      exact absurd (List.mem_singleton_self handle) first
    · rw [stderr]
      exact List.mem_singleton_self handle

theorem invariant_spawned (cancelled : Bool) : Invariant spec (spawned spec cancelled) where
  pipes _ := ⟨Nat.zero_le _, nofun, nofun, nofun, fun _ => rfl⟩
  timing _ := rfl
  input := nofun
  stage := ⟨⟨rfl, rfl⟩, fun _ => ⟨rfl, rfl⟩, rfl⟩

/-- Every undisturbed step keeps the invariant. -/
theorem invariant_step (run : ChildRun) (act : Act) (next : ChildRun) (invariant : Invariant spec run) (fits : Fits act run)
    (stepped : Step spec run act next) : Invariant spec next := by
  by_cases own : ∃ success, act = .supervise success
  · obtain ⟨success, rfl⟩ := own
    obtain ⟨rfl, undisturbed⟩ := fits
    exact supervise_keeps invariant undisturbed stepped
  · obtain ⟨follows, pipes, timing, input⟩ := others_follow invariant fits (fun success same => own ⟨success, same⟩) stepped
    exact ⟨pipes, timing, input, invariant.stage.frame follows invariant.pipes⟩

/-- A process without pipes that runs to its end. -/
def plainSpec : ProcessSpec := ⟨none, .stdout, .stderr, false, none, 9⟩

end ChildRun

end HellRs.Process
