import Mathlib
import HellRs.Lib.Loop

/-! # The input adaptor of the HTTP host

`SanitizedIo` stands between the socket and the HTTP engine. It collects the head of a request, hands out the sanitized
head, waits until the engine has announced the body, and passes the body through. The socket is the list of bytes that
the client sends; how it chunks them, when it is not ready, fails or is idle for too long is an answer that the
environment gives for each turn of `poll_read`. Wakers and the output direction are left out.
-/

namespace HellRs.Http

open Loop

abbrev Bytes := List UInt8

def cr : UInt8 := 13
def lf : UInt8 := 10

section Head

/-- `find_header_end`: the length of the shortest beginning that ends with an empty line. -/
def findHeaderEnd : Bytes → Option ℕ
  | [] => none
  | byte :: bytes =>
      if [cr, lf, cr, lf].isPrefixOf (byte :: bytes) then some 4 else (findHeaderEnd bytes).map (· + 1)

def hexDigit (value : UInt8) : UInt8 := if value ≤ 9 then 48 + value else 65 + value - 10

/-- Percent encoding of the bytes of a request target that are not ASCII. -/
def encodeTarget : Bytes → Bytes
  | [] => []
  | byte :: bytes =>
      if byte < 128 then byte :: encodeTarget bytes
      else 37 :: hexDigit (byte >>> 4) :: hexDigit (byte &&& 15) :: encodeTarget bytes

/-- Position of the first line break `\r\n`. -/
def findLineEnd : Bytes → Option ℕ
  | [] => none
  | byte :: bytes => if [cr, lf].isPrefixOf (byte :: bytes) then some 0 else (findLineEnd bytes).map (· + 1)

def sanitizeRequestHead (head : Bytes) : Bytes :=
  match findLineEnd head with
  | none => head
  | some lineEnd =>
      let line := head.take lineEnd
      match line.idxOf? 32 with
      | none => head
      | some methodEnd =>
          match (line.drop (methodEnd + 1)).idxOf? 32 with
          | none => head
          | some offset =>
              let targetEnd := methodEnd + 1 + offset
              head.take (methodEnd + 1) ++ encodeTarget ((head.drop (methodEnd + 1)).take offset) ++ head.drop targetEnd

def isAsciiWhitespace (byte : UInt8) : Bool := byte ∈ [32, 9, 10, 12, 13]

def trimAsciiWhitespace (value : Bytes) : Bytes :=
  ((value.dropWhile isAsciiWhitespace).reverse.dropWhile isAsciiWhitespace).reverse

def toAsciiLowercase (byte : UInt8) : UInt8 := if 65 ≤ byte ∧ byte ≤ 90 then byte + 32 else byte

def eqIgnoreAsciiCase (left right : Bytes) : Bool := left.map toAsciiLowercase = right.map toAsciiLowercase

/-- The bytes of an ASCII text. -/
def ascii (text : String) : Bytes := text.toList.map fun character => UInt8.ofNat character.toNat

/-- `str::parse::<u64>`: an optional plus sign, at least one digit, and no overflow. -/
def parseU64 (field : Bytes) : Option ℕ :=
  let digits := if field.head? = some 43 then field.tail else field
  if digits = [] ∨ ¬ digits.all fun byte => 48 ≤ byte ∧ byte ≤ 57 then none
  else
    let value := digits.foldl (fun value byte => 10 * value + (byte.toNat - 48)) 0
    if value < 2 ^ 64 then some value else none

/-- What the header lines say about the framing of the body: the lengths, and whether there is a transfer encoding. -/
structure Framing where
  contentLengths : List ℕ
  hasTransferEncoding : Bool

/-- One header line of `validate_raw_request_head`. -/
def readHeader (line : Bytes) (framing : Framing) : Except String Framing :=
  match line.idxOf? 58 with
  | none => .ok framing
  | some colon =>
      let name := line.take colon
      let value := trimAsciiWhitespace (line.drop (colon + 1))
      if eqIgnoreAsciiCase name (ascii "transfer-encoding") then .ok { framing with hasTransferEncoding := true }
      else if eqIgnoreAsciiCase name (ascii "content-length") then
        match (value.splitOn 44).mapM fun field => parseU64 (trimAsciiWhitespace field) with
        | none => .error "HTTP Content-Length is invalid"
        | some lengths => .ok { framing with contentLengths := framing.contentLengths ++ lengths }
      else .ok framing

/-- The header lines up to the empty one. -/
def readHeaders (framing : Framing) : List Bytes → Except String Framing
  | [] => .ok framing
  | line :: lines =>
      let line := if line.getLast? = some cr then line.dropLast else line
      if line = [] then .ok framing
      else do
        let framing ← readHeader line framing
        readHeaders framing lines

/-- `validate_raw_request_head`: the message of the error, if there is one. -/
def validateRawRequestHead (head : Bytes) : Option String :=
  match readHeaders ⟨[], false⟩ ((head.splitOn lf).drop 1) with
  | .error message => some message
  | .ok framing =>
      if framing.hasTransferEncoding ∧ framing.contentLengths ≠ [] then
        some "HTTP request cannot contain both Transfer-Encoding and Content-Length"
      else if ∃ first ∈ framing.contentLengths.head?, ∃ length ∈ framing.contentLengths, length ≠ first then
        some "HTTP Content-Length values are conflicting"
      else none

end Head

/-- `IngressPhase`. -/
inductive Phase where
  | head
  | awaitBody
  | body (rawRemaining : Option ℕ)
  | awaitNext
deriving DecidableEq, Repr

structure SanitizedIo where
  phase : Phase
  head : Bytes
  output : Bytes
  raw : Bytes
  headLimit : Option ℕ
  /-- What the client still sends through the socket. -/
  stream : Bytes
deriving DecidableEq, Repr

/-- What one poll of the socket does: it is not ready, it fails, or it has bytes, more than this number. -/
inductive SocketAnswer where
  | pending
  | failed (message : String)
  | ready (more : ℕ)
deriving DecidableEq, Repr

/-- The environment in one turn of `poll_read`. -/
structure Answer where
  /-- The idle timer has run off. -/
  idle : Bool
  socket : SocketAnswer
deriving DecidableEq, Repr

/-- The result of `poll_read`. -/
inductive Poll where
  | ready (bytes : Bytes)
  | pending
  | failed (message : String)
  /-- The panic of a slice index out of range. -/
  | outOfRange
deriving DecidableEq, Repr

/-- What the caller receives. -/
def Poll.bytes : Poll → Bytes
  | .ready bytes => bytes
  | _ => []

/-- The length of the local buffers of `poll_read`. -/
def scratchLength : ℕ := 8 * 1024

def idleMessage : String := "HTTP connection exceeded the configured idle timeout"

def headLimitMessage : String := "HTTP request headers exceeded the configured byte limit"

namespace SanitizedIo

def new (headLimit : Option ℕ) (stream : Bytes) : SanitizedIo := ⟨.head, [], [], [], headLimit, stream⟩

/-- `begin_body`. -/
def beginBody (io : SanitizedIo) (rawRemaining : Option ℕ) : SanitizedIo :=
  { io with phase := if rawRemaining = some 0 then .awaitNext else .body rawRemaining }

/-- `finish_request`. -/
def finishRequest (io : SanitizedIo) : SanitizedIo := { io with phase := .head }

/-- `reduce_ingress_body_remaining`. -/
def reduceRemaining (io : SanitizedIo) (consumed : ℕ) : SanitizedIo :=
  match io.phase with
  | .body (some remaining) =>
      { io with phase := if remaining - consumed = 0 then .awaitNext else .body (some (remaining - consumed)) }
  | _ => io

/-- `finish_head`. On an error the head stays. -/
def finishHead (io : SanitizedIo) (stop : ℕ) : Option String × SanitizedIo :=
  let split := { io with head := io.head.take stop, raw := io.raw ++ io.head.drop stop }
  match validateRawRequestHead split.head with
  | some message => (some message, split)
  | none =>
      (none, { split with
        output := split.output ++ sanitizeRequestHead split.head
        head := []
        phase := .awaitBody })

def overLimit (io : SanitizedIo) : Prop := ∃ limit ∈ io.headLimit, limit < io.head.length

instance (io : SanitizedIo) : Decidable io.overLimit := inferInstanceAs (Decidable (∃ limit ∈ io.headLimit, _))

/-- The end of the loop that moves raw bytes to the head. -/
inductive Collected where
  | exhausted
  | tooLarge
  | complete (stop : ℕ)
deriving DecidableEq, Repr

/-- The loop of `poll_read` that moves raw bytes to the head, up to the end of the head. -/
def collect (headLimit : Option ℕ) (head : Bytes) : Bytes → Collected × Bytes × Bytes
  | [] => (.exhausted, head, [])
  | byte :: raw =>
      let head := head ++ [byte]
      if ∃ limit ∈ headLimit, limit < head.length then (.tooLarge, head, raw)
      else
        match findHeaderEnd head with
        | some stop => (.complete stop, head, raw)
        | none => collect headLimit head raw

/-- A poll of the socket with room for some bytes: nothing at the end of the stream. -/
def takeStream (io : SanitizedIo) (room more : ℕ) : Bytes × SanitizedIo :=
  (io.stream.take (min room (more + 1)), { io with stream := io.stream.drop (min room (more + 1)) })

/-- The end of a turn in the phase `Head`: the socket is polled. -/
def readHead (io : SanitizedIo) : SocketAnswer → Turn SanitizedIo (Poll × SanitizedIo)
  | .pending => .leave (.pending, io)
  | .failed message => .leave (.failed message, io)
  | .ready more =>
      let (bytes, io) := io.takeStream scratchLength more
      if bytes = [] then .leave (.ready [], io) else .again { io with raw := io.raw ++ bytes }

/-- A turn in the phase `Head`. -/
def turnHead (io : SanitizedIo) (socket : SocketAnswer) : Turn SanitizedIo (Poll × SanitizedIo) :=
  match findHeaderEnd io.head with
  | some stop =>
      match io.finishHead stop with
      | (some message, io) => .leave (.failed message, io)
      | (none, io) => .again io
  | none =>
      if io.overLimit then .leave (.failed headLimitMessage, io)
      else
        let (collected, head, raw) := collect io.headLimit io.head io.raw
        let io := { io with head, raw }
        match collected with
        | .tooLarge => .leave (.failed headLimitMessage, io)
        | .exhausted => if io.output ≠ [] then .again io else io.readHead socket
        | .complete stop =>
            match io.finishHead stop with
            | (some message, io) => .leave (.failed message, io)
            | (none, io) => if io.output ≠ [] then .again io else io.readHead socket

/-- A turn in the phase `Body`. -/
def turnBody (io : SanitizedIo) (rawRemaining : Option ℕ) (capacity : ℕ) (socket : SocketAnswer) :
    Turn SanitizedIo (Poll × SanitizedIo) :=
  let allowance := min (rawRemaining.getD 1) capacity
  let buffered := min allowance io.raw.length
  if buffered ≠ 0 then
    .leave (.ready (io.raw.take buffered), { io with raw := io.raw.drop buffered }.reduceRemaining buffered)
  else if scratchLength < max allowance 1 then .leave (.outOfRange, io)
  else
    match socket with
    | .pending => .leave (.pending, io)
    | .failed message => .leave (.failed message, io)
    | .ready more =>
        let (bytes, io) := io.takeStream (max allowance 1) more
        if bytes = [] then .leave (.ready [], io) else .leave (.ready bytes, io.reduceRemaining bytes.length)

/-- One turn of the loop of `poll_read` with a destination of this capacity. -/
def turn (capacity : ℕ) (answer : Answer) (io : SanitizedIo) : Turn SanitizedIo (Poll × SanitizedIo) :=
  if answer.idle then .leave (.failed idleMessage, io)
  else if min capacity io.output.length ≠ 0 then
    let amount := min capacity io.output.length
    .leave (.ready (io.output.take amount), { io with output := io.output.drop amount })
  else
    match io.phase with
    | .head => io.turnHead answer.socket
    | .awaitBody | .awaitNext => .leave (.pending, io)
    | .body rawRemaining => io.turnBody rawRemaining capacity answer.socket

/-- The turn with the next answer of the environment, which is not ready when it has no more answers. -/
def pollTurn (capacity : ℕ) : List Answer × SanitizedIo → Option (Turn (List Answer × SanitizedIo) (Poll × SanitizedIo))
  | (answers, io) =>
      match turn capacity (answers.headD ⟨false, .pending⟩) io with
      | .again io => some (.again (answers.tail, io))
      | .leave result => some (.leave result)

/-- `poll_read`. -/
def pollRead (fuel capacity : ℕ) (answers : List Answer) (io : SanitizedIo) : Option (Poll × SanitizedIo) :=
  run (pollTurn capacity) fuel (answers, io)

end SanitizedIo

/-- The adaptor with what the engine has received from it. -/
structure Host where
  io : SanitizedIo
  delivered : Bytes
  /-- Some poll has sliced its buffer out of range. -/
  panicked : Bool
deriving DecidableEq, Repr

namespace Host

def initial (headLimit : Option ℕ) (client : Bytes) : Host := ⟨.new headLimit client, [], false⟩

/-- What is done with the adaptor. -/
inductive Act where
  /-- The engine polls with some room. -/
  | poll (capacity : ℕ) (answers : List Answer)
  /-- The body of the request whose head the engine has is announced. -/
  | beginBody (declared : Option ℕ)
  /-- The pump of the body is done, at the end of the body or when the request is cancelled. -/
  | finishRequest
deriving DecidableEq, Repr

inductive Step : Host → Act → Host → Prop where
  | poll {host : Host} {fuel capacity : ℕ} {answers : List Answer} {result : Poll} {io : SanitizedIo}
      (nonempty : 0 < capacity) (returned : host.io.pollRead fuel capacity answers = some (result, io)) :
      Step host (.poll capacity answers) ⟨io, host.delivered ++ result.bytes, host.panicked || result = .outOfRange⟩
  | beginBody {host : Host} {declared : Option ℕ} (awaits : host.io.phase = .awaitBody) :
      Step host (.beginBody declared) { host with io := host.io.beginBody declared }
  | finishRequest {host : Host} (begun : host.io.phase ≠ .head ∧ host.io.phase ≠ .awaitBody) :
      Step host .finishRequest { host with io := host.io.finishRequest }

end Host

end HellRs.Http
