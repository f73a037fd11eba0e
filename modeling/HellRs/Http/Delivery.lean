import HellRs.Http.Ingress

/-! # What the engine receives

The bytes of the client are split into requests, a head and a body each. Every turn of `poll_read` keeps the split: what
the engine has received, with what is ready for it, is the sanitized head and the body of each request in order, and
the body of a request has the length that was announced for it.
-/

namespace HellRs.Http

open Loop

section HeaderEnd

theorem isPrefixOf_append_singleton {pattern bytes : Bytes} {byte : UInt8} (absent : ¬ pattern.isPrefixOf bytes)
    (present : pattern.isPrefixOf (bytes ++ [byte])) : pattern.length = bytes.length + 1 := by
  rw [List.isPrefixOf_iff_prefix] at absent present
  have atMost := present.length_le
  rw [List.length_append, List.length_singleton] at atMost
  by_contra shorter
  exact absent (List.prefix_of_prefix_length_le present (List.prefix_append bytes [byte]) (by omega))

/-- One more byte completes a head at its end, if at all. -/
theorem findHeaderEnd_push {head : Bytes} (absent : findHeaderEnd head = none) (byte : UInt8) :
    findHeaderEnd (head ++ [byte]) = none ∨ findHeaderEnd (head ++ [byte]) = some (head.length + 1) := by
  induction head with
  | nil => exact .inl (by simp [findHeaderEnd, cr, lf])
  | cons first head ih =>
    simp only [findHeaderEnd] at absent
    split at absent
    next => cases absent
    next notHere =>
      rw [Option.map_eq_none_iff] at absent
      simp only [List.cons_append, findHeaderEnd]
      split
      next present =>
        have length := isPrefixOf_append_singleton notHere present
        exact .inr (by simpa using length)
      next =>
        rcases ih absent with rest | rest
        · exact .inl (by rw [rest]; rfl)
        · exact .inr (by rw [rest]; rfl)

/-- A head that is complete ends with its empty line. -/
def Ended (head : Bytes) : Prop := findHeaderEnd head = none ∨ findHeaderEnd head = some head.length

/-- What the loop that moves raw bytes to the head keeps. -/
structure Collects (head raw : Bytes) (result : SanitizedIo.Collected × Bytes × Bytes) : Prop where
  bytes : result.2.1 ++ result.2.2 = head ++ raw
  ended : Ended result.2.1
  complete : ∀ stop, result.1 = .complete stop → findHeaderEnd result.2.1 = some stop

theorem collect_collects (headLimit : Option ℕ) {head : Bytes} (incomplete : findHeaderEnd head = none) (raw : Bytes) :
    Collects head raw (SanitizedIo.collect headLimit head raw) := by
  induction raw generalizing head with
  | nil => exact ⟨rfl, .inl incomplete, nofun⟩
  | cons byte raw ih =>
    have ended : Ended (head ++ [byte]) := by
      rcases findHeaderEnd_push incomplete byte with absent | full
      · exact .inl absent
      · exact .inr (by rw [full, List.length_append, List.length_singleton])
    have bytes : head ++ [byte] ++ raw = head ++ byte :: raw := by rw [List.append_assoc, List.singleton_append]
    simp only [SanitizedIo.collect]
    split
    next => exact ⟨bytes, ended, nofun⟩
    next =>
      split
      next stop found =>
        refine ⟨bytes, ended, fun stop' same => ?_⟩
        rw [found, SanitizedIo.Collected.complete.inj same]
      next absent =>
        have rest := ih absent
        exact ⟨rest.bytes.trans bytes, rest.ended, rest.complete⟩

end HeaderEnd

/-- One request as it came from the client. -/
structure Request where
  head : Bytes
  body : Bytes
  /-- The length of the body that was announced for it. -/
  declared : Option ℕ

namespace Request

def received (request : Request) : Bytes := request.head ++ request.body

def sanitized (request : Request) : Bytes := sanitizeRequestHead request.head ++ request.body

/-- A body of the announced length. -/
def Whole (request : Request) : Prop := ∀ length ∈ request.declared, request.body.length = length

end Request

/-- The state of the last request in a phase other than `Head`. -/
def Current (request : Request) : Phase → Prop
  | .head => request.Whole
  | .awaitBody => request.body = []
  | .body none => request.declared = none
  | .body (some remaining) => 0 < remaining ∧ request.declared = some (request.body.length + remaining)
  | .awaitNext => request.declared = some request.body.length

/-- All requests are whole, but for the one that is still being received. -/
def Ledger (phase : Phase) (requests : List Request) : Prop :=
  if phase = .head then ∀ request ∈ requests, request.Whole
  else ∃ done last, requests = done ++ [last] ∧ (∀ request ∈ done, request.Whole) ∧ Current last phase

/-- The bytes of the client are those of the requests and those that are not used yet; the engine has received the
sanitized requests, up to what is ready for it. -/
structure Exact (client delivered : Bytes) (io : SanitizedIo) (requests : List Request) : Prop where
  received : client = requests.flatMap Request.received ++ io.head ++ io.raw ++ io.stream
  delivered : delivered ++ io.output = requests.flatMap Request.sanitized
  heads : ∀ request ∈ requests, findHeaderEnd request.head = some request.head.length
  ledger : Ledger io.phase requests
  ended : Ended io.head
  idle : io.phase ≠ .head → io.head = []

/-- The split of the bytes into requests exists. -/
def Delivers (client delivered : Bytes) (io : SanitizedIo) : Prop := ∃ requests, Exact client delivered io requests

variable {client delivered : Bytes} {io : SanitizedIo}

theorem Ledger.head {requests : List Request} (ledger : Ledger .head requests) : ∀ request ∈ requests, request.Whole := by
  rwa [Ledger, if_pos rfl] at ledger

theorem Ledger.last {phase : Phase} {requests : List Request} (ledger : Ledger phase requests) (other : phase ≠ .head) :
    ∃ done last, requests = done ++ [last] ∧ (∀ request ∈ done, request.Whole) ∧ Current last phase := by
  rwa [Ledger, if_neg other] at ledger

theorem Ledger.of_last {phase : Phase} {done : List Request} {last : Request} (whole : ∀ request ∈ done, request.Whole)
    (current : Current last phase) : Ledger phase (done ++ [last]) := by
  rw [Ledger]
  split
  next isHead =>
    subst isHead
    intro request member
    rcases List.mem_append.mp member with old | isLast
    · exact whole request old
    · obtain rfl := List.mem_singleton.mp isLast
      exact current
  next => exact ⟨done, last, rfl, whole, current⟩

section Turn

/-- A complete head becomes a request, or is refused and stays. -/
theorem Exact.finishHead {requests : List Request} (inv : Exact client delivered io requests)
    (inHead : io.phase = .head) {stop : ℕ} (found : findHeaderEnd io.head = some stop) :
    Delivers client delivered (io.finishHead stop).2 := by
  have whole : stop = io.head.length := by
    rcases inv.ended with absent | full
    · rw [absent] at found; cases found
    · exact (Option.some.inj (full.symm.trans found)).symm
  subst whole
  simp only [SanitizedIo.finishHead, List.take_length, List.drop_length, List.append_nil]
  split
  next => exact ⟨requests, inv.received, inv.delivered, inv.heads, inv.ledger, inv.ended, inv.idle⟩
  next =>
    refine ⟨requests ++ [⟨io.head, [], none⟩], ?_, ?_, ?_, ?_, .inl rfl, fun _ => rfl⟩
    · simp [inv.received, Request.received]
    · simp [← inv.delivered, Request.sanitized]
    · intro request member
      rcases List.mem_append.mp member with old | isNew
      · exact inv.heads request old
      · obtain rfl := List.mem_singleton.mp isNew
        exact found
    · exact .of_last (inHead ▸ inv.ledger).head rfl

/-- What one turn means for the bytes. -/
def Effect (client delivered : Bytes) : Turn SanitizedIo (Poll × SanitizedIo) → Prop
  | .again after => Delivers client delivered after
  | .leave (result, after) => Delivers client (delivered ++ result.bytes) after

theorem Delivers.silent (delivers : Delivers client delivered io) {result : Poll} (silent : result.bytes = []) :
    Effect client delivered (.leave (result, io)) := by
  simpa only [Effect, silent, List.append_nil] using delivers

theorem Exact.readHead {requests : List Request} (inv : Exact client delivered io requests) (socket : SocketAnswer) :
    Effect client delivered (io.readHead socket) := by
  have same : Delivers client delivered io := ⟨requests, inv⟩
  cases socket with
  | pending => exact same.silent rfl
  | failed message => exact same.silent rfl
  | ready more =>
    have stream : (io.takeStream scratchLength more).1 ++ (io.takeStream scratchLength more).2.stream = io.stream :=
      List.take_append_drop ..
    simp only [SanitizedIo.readHead]
    split
    next empty =>
      rw [empty, List.nil_append] at stream
      have read : Delivers client delivered (io.takeStream scratchLength more).2 := by
        refine ⟨requests, ?_, inv.delivered, inv.heads, inv.ledger, inv.ended, inv.idle⟩
        rw [stream]
        exact inv.received
      exact read.silent rfl
    next =>
      refine ⟨requests, ?_, inv.delivered, inv.heads, inv.ledger, inv.ended, inv.idle⟩
      have received := inv.received
      rw [← stream, ← List.append_assoc, List.append_assoc _ io.raw] at received
      exact received

theorem Exact.turnHead {requests : List Request} (inv : Exact client delivered io requests) (inHead : io.phase = .head)
    (socket : SocketAnswer) : Effect client delivered (io.turnHead socket) := by
  have finished (io : SanitizedIo) (requests : List Request) (inv : Exact client delivered io requests)
      (inHead : io.phase = .head) (stop : ℕ) (found : findHeaderEnd io.head = some stop) :
      (∃ message after, io.finishHead stop = (some message, after) ∧ Delivers client delivered after) ∨
        ∃ after, io.finishHead stop = (none, after) ∧ Delivers client delivered after := by
    have delivers := inv.finishHead inHead found
    rcases outcome : io.finishHead stop with ⟨_ | message, after⟩
    · exact .inr ⟨after, rfl, by simpa only [outcome] using delivers⟩
    · exact .inl ⟨message, after, rfl, by simpa only [outcome] using delivers⟩
  simp only [SanitizedIo.turnHead]
  split
  next stop found =>
    rcases finished io requests inv inHead stop found with
      ⟨message, after, outcome, delivers⟩ | ⟨after, outcome, delivers⟩
    · rw [outcome]
      exact delivers.silent rfl
    · rw [outcome]
      exact delivers
  next incomplete =>
    split
    next => exact Delivers.silent ⟨requests, inv⟩ rfl
    next =>
      have collects := collect_collects io.headLimit incomplete io.raw
      rcases collected : SanitizedIo.collect io.headLimit io.head io.raw with ⟨outcome, head, raw⟩
      rw [collected] at collects
      have moved : Exact client delivered { io with head, raw } requests := by
        refine ⟨?_, inv.delivered, inv.heads, inv.ledger, collects.ended, fun other => absurd inHead other⟩
        rw [inv.received, List.append_assoc _ head raw, collects.bytes, ← List.append_assoc]
      simp only
      cases outcome with
      | tooLarge => exact Delivers.silent ⟨requests, moved⟩ rfl
      | exhausted =>
        simp only
        split
        · exact ⟨requests, moved⟩
        · exact moved.readHead socket
      | complete stop =>
        simp only
        rcases finished _ requests moved inHead stop (collects.complete stop rfl) with
          ⟨message, after, outcome, delivers⟩ | ⟨after, outcome, delivers⟩
        · rw [outcome]
          exact delivers.silent rfl
        · rw [outcome]
          simp only
          obtain ⟨requests', inv'⟩ := delivers
          split
          · exact ⟨requests', inv'⟩
          · exact inv'.readHead socket

/-- Some bytes of the body pass through to the engine. -/
theorem Exact.pass {requests : List Request} (inv : Exact client delivered io requests) {rawRemaining : Option ℕ}
    (inBody : io.phase = .body rawRemaining) {bytes raw stream : Bytes}
    (taken : io.raw ++ io.stream = bytes ++ (raw ++ stream))
    (allowed : ∀ remaining ∈ rawRemaining, bytes.length ≤ remaining) (ready : io.output = []) :
    Delivers client (delivered ++ bytes) (SanitizedIo.reduceRemaining { io with raw, stream } bytes.length) := by
  have outside : io.phase ≠ .head := by rw [inBody]; nofun
  obtain ⟨done, last, rfl, whole, current⟩ := inv.ledger.last outside
  rw [inBody] at current
  have noHead := inv.idle outside
  have kept : (SanitizedIo.reduceRemaining { io with raw, stream } bytes.length).head = [] ∧
      (SanitizedIo.reduceRemaining { io with raw, stream } bytes.length).output = [] ∧
      (SanitizedIo.reduceRemaining { io with raw, stream } bytes.length).raw = raw ∧
      (SanitizedIo.reduceRemaining { io with raw, stream } bytes.length).stream = stream := by
    cases rawRemaining with
    | none => simp [SanitizedIo.reduceRemaining, inBody, noHead, ready]
    | some remaining => simp [SanitizedIo.reduceRemaining, inBody, noHead, ready]
  obtain ⟨keptHead, keptOutput, keptRaw, keptStream⟩ := kept
  refine ⟨done ++ [{ last with body := last.body ++ bytes }], ?_, ?_, ?_, ?_, ?_, fun _ => keptHead⟩
  · have received := inv.received
    rw [List.append_assoc _ io.raw, noHead, List.append_nil, taken] at received
    rw [keptHead, keptRaw, keptStream, received]
    simp [Request.received]
  · have sanitized := inv.delivered
    rw [ready, List.append_nil] at sanitized
    rw [keptOutput, sanitized]
    simp [Request.sanitized]
  · intro request member
    rcases List.mem_append.mp member with old | isNew
    · exact inv.heads request (List.mem_append_left _ old)
    · obtain rfl := List.mem_singleton.mp isNew
      exact inv.heads last (by simp)
  · refine .of_last whole ?_
    cases rawRemaining with
    | none =>
      simp only [SanitizedIo.reduceRemaining, inBody]
      exact current
    | some remaining =>
      obtain ⟨positive, declared⟩ := current
      have atMost := allowed remaining rfl
      simp only [SanitizedIo.reduceRemaining, inBody]
      split
      · simp only [Current, declared, List.length_append, Option.some.injEq]
        omega
      · simp only [Current, declared, List.length_append, Option.some.injEq]
        omega
  · rw [keptHead]
    exact .inl rfl

/-- In the phase `Body` some bytes are still allowed. -/
theorem Exact.positive {requests : List Request} (inv : Exact client delivered io requests) {rawRemaining : Option ℕ}
    (inBody : io.phase = .body rawRemaining) : 0 < rawRemaining.getD 1 := by
  cases rawRemaining with
  | none => exact Nat.one_pos
  | some remaining =>
    obtain ⟨done, last, -, -, current⟩ := inv.ledger.last (by rw [inBody]; nofun)
    rw [inBody] at current
    exact current.1

theorem Exact.turnBody {requests : List Request} (inv : Exact client delivered io requests) {rawRemaining : Option ℕ}
    (inBody : io.phase = .body rawRemaining) (ready : io.output = []) {capacity : ℕ} (nonempty : 0 < capacity)
    (socket : SocketAnswer) : Effect client delivered (io.turnBody rawRemaining capacity socket) := by
  have same : Delivers client delivered io := ⟨requests, inv⟩
  have within (room : ℕ) (small : room ≤ min (rawRemaining.getD 1) capacity ∨ room ≤ 1) :
      ∀ remaining ∈ rawRemaining, room ≤ remaining := by
    rintro remaining rfl
    have positive := inv.positive inBody
    simp only [Option.getD_some] at small positive
    omega
  simp only [SanitizedIo.turnBody]
  split
  next buffered =>
    have taken : io.raw ++ io.stream = io.raw.take (min (min (rawRemaining.getD 1) capacity) io.raw.length) ++
        (io.raw.drop (min (min (rawRemaining.getD 1) capacity) io.raw.length) ++ io.stream) := by
      rw [← List.append_assoc, List.take_append_drop]
    have length : (io.raw.take (min (min (rawRemaining.getD 1) capacity) io.raw.length)).length =
        min (min (rawRemaining.getD 1) capacity) io.raw.length := by
      rw [List.length_take]
      omega
    have passed := inv.pass inBody taken (by rw [length]; exact within _ (.inl (by omega))) ready
    rw [length] at passed
    exact passed
  next nothing =>
    -- The allowance is positive, so no raw bytes are left.
    have positive := inv.positive inBody
    have noRaw : io.raw = [] := List.eq_nil_of_length_eq_zero (by omega)
    split
    next => exact same.silent rfl
    next =>
      cases socket with
      | pending => exact same.silent rfl
      | failed message => exact same.silent rfl
      | ready more =>
        have stream : (io.takeStream (max (min (rawRemaining.getD 1) capacity) 1) more).1 ++
            (io.takeStream (max (min (rawRemaining.getD 1) capacity) 1) more).2.stream = io.stream :=
          List.take_append_drop ..
        have length : (io.takeStream (max (min (rawRemaining.getD 1) capacity) 1) more).1.length ≤
            max (min (rawRemaining.getD 1) capacity) 1 := by
          simp only [SanitizedIo.takeStream, List.length_take]
          omega
        simp only
        split
        next empty =>
          rw [empty, List.nil_append] at stream
          have read : Delivers client delivered
              (io.takeStream (max (min (rawRemaining.getD 1) capacity) 1) more).2 := by
            refine ⟨requests, ?_, inv.delivered, inv.heads, inv.ledger, inv.ended, inv.idle⟩
            rw [stream]
            exact inv.received
          exact read.silent rfl
        next =>
          have taken : io.raw ++ io.stream = (io.takeStream (max (min (rawRemaining.getD 1) capacity) 1) more).1 ++
              (io.raw ++ (io.takeStream (max (min (rawRemaining.getD 1) capacity) 1) more).2.stream) := by
            rw [noRaw, List.nil_append, List.nil_append, stream]
          have small : (io.takeStream (max (min (rawRemaining.getD 1) capacity) 1) more).1.length ≤
              min (rawRemaining.getD 1) capacity ∨
              (io.takeStream (max (min (rawRemaining.getD 1) capacity) 1) more).1.length ≤ 1 := by
            omega
          have passed := inv.pass inBody taken (within _ small) ready
          exact passed

theorem Exact.turn {requests : List Request} (inv : Exact client delivered io requests) (capacity : ℕ)
    (answer : Answer) (nonempty : 0 < capacity) : Effect client delivered (SanitizedIo.turn capacity answer io) := by
  have same : Delivers client delivered io := ⟨requests, inv⟩
  simp only [SanitizedIo.turn]
  split
  next => exact same.silent rfl
  next =>
    split
    next =>
      refine ⟨requests, inv.received, ?_, inv.heads, inv.ledger, inv.ended, inv.idle⟩
      simp only [Poll.bytes, List.append_assoc, List.take_append_drop]
      exact inv.delivered
    next nothing =>
      have ready : io.output = [] := List.eq_nil_of_length_eq_zero (by omega)
      split
      next inHead => exact inv.turnHead inHead answer.socket
      next => exact same.silent rfl
      next => exact same.silent rfl
      next rawRemaining inBody => exact inv.turnBody inBody ready nonempty answer.socket

end Turn

/-- The reservation of the local buffer is in range: there is something else to read from, or one of the bounds on the
bytes of the body is within its length. -/
def InRange (capacity : ℕ) (io : SanitizedIo) : Prop :=
  ¬ ∃ remaining, io.phase = .body (some remaining) ∧ io.output = [] ∧ io.raw = [] ∧ scratchLength < min remaining capacity

section Range

theorem finishHead_phase (io : SanitizedIo) (stop : ℕ) :
    (io.finishHead stop).1 = none → (io.finishHead stop).2.phase = .awaitBody := by
  simp only [SanitizedIo.finishHead]
  split
  next => nofun
  next => exact fun _ => rfl

/-- What a turn can end with, for this answer of the socket: only in the phase `Head` the loop goes on. -/
inductive TurnEnd (phase : Phase) (socket : SocketAnswer) : Turn SanitizedIo (Poll × SanitizedIo) → Prop where
  | leave {result : Poll} {after : SanitizedIo} (fits : result ≠ .outOfRange) :
      TurnEnd phase socket (.leave (result, after))
  | complete {after : SanitizedIo} (inHead : phase = .head) (done : after.phase = .awaitBody) :
      TurnEnd phase socket (.again after)
  | more {after : SanitizedIo} (inHead : phase = .head) (still : after.phase = .head) (ready : socket ≠ .pending) :
      TurnEnd phase socket (.again after)

theorem readHead_turnEnd {io : SanitizedIo} (phase : io.phase = .head ∨ io.phase = .awaitBody) (socket : SocketAnswer) :
    TurnEnd .head socket (io.readHead socket) := by
  cases socket with
  | pending => exact .leave nofun
  | failed message => exact .leave nofun
  | ready more =>
    simp only [SanitizedIo.readHead]
    split
    next => exact .leave nofun
    next =>
      rcases phase with inHead | complete
      · exact .more rfl inHead nofun
      · exact .complete rfl complete

theorem turnHead_turnEnd {io : SanitizedIo} (inHead : io.phase = .head) (ready : io.output = [])
    (socket : SocketAnswer) : TurnEnd .head socket (io.turnHead socket) := by
  simp only [SanitizedIo.turnHead]
  split
  next stop found =>
    have phase := finishHead_phase io stop
    generalize io.finishHead stop = outcome at phase ⊢
    rcases outcome with ⟨_ | message, after⟩
    · exact .complete rfl (phase rfl)
    · exact .leave nofun
  next =>
    split
    next => exact .leave nofun
    next =>
      rcases SanitizedIo.collect io.headLimit io.head io.raw with ⟨_ | _ | stop, head, raw⟩
      · simp only
        split
        next full => exact absurd ready full
        next =>
          have moved : ({ io with head, raw } : SanitizedIo).phase = .head := inHead
          exact readHead_turnEnd (.inl moved) socket
      · exact .leave nofun
      · have phase := finishHead_phase { io with head, raw } stop
        simp only
        generalize SanitizedIo.finishHead { io with head, raw } stop = outcome at phase ⊢
        rcases outcome with ⟨_ | message, after⟩
        · simp only
          split
          · exact .complete rfl (phase rfl)
          · exact readHead_turnEnd (.inr (phase rfl)) socket
        · exact .leave nofun

theorem turnBody_leaves (io : SanitizedIo) (rawRemaining : Option ℕ) (capacity : ℕ) (socket : SocketAnswer) :
    ∃ result, io.turnBody rawRemaining capacity socket = .leave result := by
  simp only [SanitizedIo.turnBody]
  split
  next => exact ⟨_, rfl⟩
  next =>
    split
    next => exact ⟨_, rfl⟩
    next =>
      cases socket with
      | pending => exact ⟨_, rfl⟩
      | failed message => exact ⟨_, rfl⟩
      | ready more =>
        simp only
        split <;> exact ⟨_, rfl⟩

theorem turnBody_inRange {io : SanitizedIo} {rawRemaining : Option ℕ} {capacity : ℕ} (inRange : InRange capacity io)
    (inBody : io.phase = .body rawRemaining) (ready : io.output = []) (nonempty : 0 < capacity)
    (positive : 0 < rawRemaining.getD 1) (socket : SocketAnswer) {result : Poll} {after : SanitizedIo}
    (left : io.turnBody rawRemaining capacity socket = .leave (result, after)) : result ≠ .outOfRange := by
  simp only [SanitizedIo.turnBody] at left
  split at left
  next =>
    obtain ⟨rfl, -⟩ := Prod.mk.inj (Turn.leave.inj left)
    nofun
  next nothing =>
    have noRaw : io.raw = [] := List.eq_nil_of_length_eq_zero (by omega)
    split at left
    next tooLong =>
      refine absurd ?_ inRange
      cases rawRemaining with
      | none =>
        simp only [Option.getD_none, scratchLength] at tooLong
        omega
      | some remaining =>
        refine ⟨remaining, inBody, ready, noRaw, ?_⟩
        simp only [Option.getD_some, scratchLength] at tooLong ⊢
        omega
    next =>
      cases socket with
      | pending =>
        obtain ⟨rfl, -⟩ := Prod.mk.inj (Turn.leave.inj left)
        nofun
      | failed message =>
        obtain ⟨rfl, -⟩ := Prod.mk.inj (Turn.leave.inj left)
        nofun
      | ready more =>
        simp only at left
        split at left
        · obtain ⟨rfl, -⟩ := Prod.mk.inj (Turn.leave.inj left)
          nofun
        · obtain ⟨rfl, -⟩ := Prod.mk.inj (Turn.leave.inj left)
          nofun

theorem turn_turnEnd {requests : List Request} (inv : Exact client delivered io requests) {capacity : ℕ}
    (inRange : InRange capacity io) (nonempty : 0 < capacity) (answer : Answer) :
    TurnEnd io.phase answer.socket (SanitizedIo.turn capacity answer io) := by
  simp only [SanitizedIo.turn]
  split
  next => exact .leave nofun
  next =>
    split
    next => exact .leave nofun
    next nothing =>
      have ready : io.output = [] := List.eq_nil_of_length_eq_zero (by omega)
      split
      next inHead =>
        rw [inHead]
        exact turnHead_turnEnd inHead ready answer.socket
      next => exact .leave nofun
      next => exact .leave nofun
      next rawRemaining inBody =>
        have positive := inv.positive inBody
        obtain ⟨⟨result, after⟩, left⟩ := turnBody_leaves io rawRemaining capacity answer.socket
        rw [left]
        exact .leave (turnBody_inRange inRange inBody ready nonempty positive answer.socket left)

theorem inRange_of_phase {capacity : ℕ} (other : io.phase = .head ∨ io.phase = .awaitBody) : InRange capacity io := by
  rintro ⟨remaining, inBody, -⟩
  rw [inBody] at other
  rcases other with same | same <;> cases same

end Range

/-- A poll leaves, without a slice out of range, and the bytes that it delivers go on with the split. -/
theorem pollRead_spec {capacity : ℕ} (nonempty : 0 < capacity) (delivers : Delivers client delivered io)
    (inRange : InRange capacity io) (answers : List Answer) :
    ∃ result, Returns (SanitizedIo.pollTurn capacity) (answers, io) result ∧ result.1 ≠ .outOfRange ∧
      Delivers client (delivered ++ result.1.bytes) result.2 := by
  refine returns_total (SanitizedIo.pollTurn capacity)
    (fun state => Delivers client delivered state.2 ∧ InRange capacity state.2)
    (fun result => result.1 ≠ .outOfRange ∧ Delivers client (delivered ++ result.1.bytes) result.2)
    (fun state => state.1.length + if state.2.phase = .head then 1 else 0) ?_ (answers, io) ⟨delivers, inRange⟩
  rintro ⟨answers, io⟩ ⟨⟨requests, inv⟩, inRange⟩
  have effect := inv.turn capacity (answers.headD ⟨false, .pending⟩) nonempty
  have ends := turn_turnEnd inv inRange nonempty (answers.headD ⟨false, .pending⟩)
  simp only [SanitizedIo.pollTurn]
  generalize SanitizedIo.turn capacity (answers.headD ⟨false, .pending⟩) io = turned at effect ends ⊢
  cases ends with
  | leave fits => exact .inr ⟨_, rfl, fits, effect⟩
  | @complete after inHead done =>
    refine .inl ⟨_, rfl, ⟨effect, inRange_of_phase (.inr done)⟩, ?_⟩
    have tail : answers.tail.length ≤ answers.length := by simp
    have other : after.phase ≠ .head := by rw [done]; nofun
    change answers.tail.length + (if after.phase = .head then 1 else 0) < answers.length + if io.phase = .head then 1 else 0
    rw [if_pos inHead, if_neg other]
    exact Nat.lt_succ_of_le tail
  | @more after inHead still ready =>
    refine .inl ⟨_, rfl, ⟨effect, inRange_of_phase (.inl still)⟩, ?_⟩
    -- Without an answer left the socket is not ready.
    have some_ : answers ≠ [] := by
      rintro rfl
      exact ready rfl
    have shorter : answers.tail.length < answers.length := by
      rw [List.length_tail]
      have := List.length_pos_of_ne_nil some_
      omega
    change answers.tail.length + (if after.phase = .head then 1 else 0) < answers.length + if io.phase = .head then 1 else 0
    rw [if_pos inHead, if_pos still]
    exact Nat.add_lt_add_right shorter 1

namespace Host

/-- An act that the adaptor is made for: a poll keeps its local buffer in range, and a request is finished only after
the bytes that were announced for it. -/
def Act.Fits (io : SanitizedIo) : Act → Prop
  | .poll capacity _ => InRange capacity io
  | .beginBody _ => True
  | .finishRequest => ¬ ∃ remaining, io.phase = .body (some remaining)

/-- The adaptor so far has delivered what it should. -/
structure Faithful (client : Bytes) (host : Host) : Prop where
  delivers : Delivers client host.delivered host.io
  fits : host.panicked = false

theorem initial_faithful (headLimit : Option ℕ) (client : Bytes) : (initial headLimit client).Faithful client := by
  refine ⟨⟨[], ?_, rfl, nofun, ?_, .inl rfl, fun other => absurd rfl other⟩, rfl⟩
  · simp [initial, SanitizedIo.new]
  · rw [Ledger, initial, SanitizedIo.new, if_pos rfl]
    nofun

theorem beginBody_delivers (delivers : Delivers client delivered io) (awaits : io.phase = .awaitBody)
    (declared : Option ℕ) : Delivers client delivered (io.beginBody declared) := by
  obtain ⟨requests, inv⟩ := delivers
  have outside : io.phase ≠ .head := by rw [awaits]; nofun
  obtain ⟨done, last, rfl, whole, current⟩ := inv.ledger.last outside
  rw [awaits] at current
  have noBody : last.body = [] := current
  refine ⟨done ++ [{ last with declared }], ?_, ?_, ?_, ?_, inv.ended, fun _ => inv.idle outside⟩
  · simpa [Request.received, SanitizedIo.beginBody] using inv.received
  · simpa [Request.sanitized, SanitizedIo.beginBody] using inv.delivered
  · intro request member
    rcases List.mem_append.mp member with old | isNew
    · exact inv.heads request (List.mem_append_left _ old)
    · obtain rfl := List.mem_singleton.mp isNew
      exact inv.heads last (by simp)
  · refine .of_last whole ?_
    simp only [SanitizedIo.beginBody]
    split
    next none_ =>
      simp only [Current, none_, noBody, List.length_nil]
    next positive =>
      cases declared with
      | none => rfl
      | some length =>
        have positive : length ≠ 0 := fun zero => positive (by rw [zero])
        simp only [Current, noBody, List.length_nil, Nat.zero_add, and_true]
        omega

theorem finishRequest_delivers (delivers : Delivers client delivered io)
    (begun : io.phase ≠ .head ∧ io.phase ≠ .awaitBody) (complete : ¬ ∃ remaining, io.phase = .body (some remaining)) :
    Delivers client delivered io.finishRequest := by
  obtain ⟨requests, inv⟩ := delivers
  obtain ⟨done, last, rfl, whole, current⟩ := inv.ledger.last begun.1
  refine ⟨done ++ [last], inv.received, inv.delivered, inv.heads, ?_, inv.ended, fun other => absurd rfl other⟩
  refine .of_last whole ?_
  intro length announced
  cases phase : io.phase with
  | head => exact absurd phase begun.1
  | awaitBody => exact absurd phase begun.2
  | body rawRemaining =>
    cases rawRemaining with
    | none =>
      rw [phase] at current
      have unknown : last.declared = none := current
      rw [unknown] at announced
      cases announced
    | some remaining => exact absurd ⟨remaining, phase⟩ complete
  | awaitNext =>
    rw [phase] at current
    have known : last.declared = some last.body.length := current
    rw [known] at announced
    exact Option.some.inj announced

theorem Step.faithful {client : Bytes} {host after : Host} {act : Act} (step : Step host act after)
    (fits : act.Fits host.io) (faithful : host.Faithful client) : after.Faithful client := by
  cases step with
  | @poll fuel capacity answers result io nonempty returned =>
    obtain ⟨expected, returns, inRange, delivers⟩ := pollRead_spec nonempty faithful.delivers fits answers
    obtain rfl := returns.unique ⟨fuel, returned⟩
    refine ⟨delivers, ?_⟩
    simpa [faithful.fits] using inRange
  | beginBody awaits => exact ⟨beginBody_delivers faithful.delivers awaits _, faithful.fits⟩
  | finishRequest begun => exact ⟨finishRequest_delivers faithful.delivers begun fits, faithful.fits⟩

/-- A run in which every act is one that the adaptor is made for. -/
def Runs : Host → Host → Prop :=
  Relation.ReflTransGen fun host after => ∃ act : Act, act.Fits host.io ∧ Step host act after

theorem Runs.faithful {client : Bytes} {host after : Host} (runs : Runs host after)
    (faithful : host.Faithful client) : after.Faithful client := by
  induction runs with
  | refl => exact faithful
  | tail _ step ih =>
    obtain ⟨act, fits, step⟩ := step
    exact step.faithful fits ih

/-- The head of a request with a body that is longer than the local buffer. -/
def longPost : Bytes := ascii "POST / HTTP/1.1\r\nContent-Length: 10000\r\n\r\n"

/-- The adaptor after the engine has polled the head of this request with room for 16384 bytes. -/
def afterHead : Host := ⟨⟨.awaitBody, [], [], [], none, []⟩, longPost, false⟩

theorem runs_afterHead : Runs (initial none longPost) afterHead := by
  refine .single ⟨.poll 16384 [⟨false, .ready 100⟩], ?_, ?_⟩
  · rintro ⟨remaining, inBody, -⟩
    cases inBody
  · exact @Step.poll (initial none longPost) 4 16384 [⟨false, .ready 100⟩] (.ready longPost) afterHead.io (by decide)
      (by decide)

end Host

end HellRs.Http
