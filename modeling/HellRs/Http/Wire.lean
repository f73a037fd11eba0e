import HellRs.Http.Ingress

/-! # The output adaptor of the HTTP host

The engine cannot send informational responses, so such a response is built with another status and announced; the adaptor rewrites
the head that comes next. What the socket does in each poll is an answer that the environment gives. The idle timer is a part of it.
-/

namespace HellRs.Http

structure InformationalHead where
  status : ℕ
  reason : Bytes
deriving DecidableEq

/-- The lines behind the status line, up to the empty one. -/
def rewriteFields : List Bytes → Bytes
  | [] => []
  | line :: lines =>
    let line := if line.getLast? = some cr then line.dropLast else line
    if line = [] then []
    else
      let name := line.takeWhile (· ≠ 58)
      if eqIgnoreAsciiCase name (ascii "content-length") ∨ eqIgnoreAsciiCase name (ascii "transfer-encoding") then rewriteFields lines
      else line ++ [cr, lf] ++ rewriteFields lines

def rewriteInformationalHead (head : Bytes) (informational : InformationalHead) : Bytes :=
  match head.splitOn lf with
  | [] => head
  | statusLine :: lines =>
    let version := statusLine.takeWhile (· ≠ 32)
    version ++ [32] ++ ascii (toString informational.status) ++ [32] ++ informational.reason ++ [cr, lf] ++ rewriteFields lines ++ [cr, lf]

/-- The output direction of `SanitizedIo`, with what the socket has taken and whether it is shut down. -/
structure Wire where
  informational : Option InformationalHead
  wireHead : Bytes
  wireOutput : Bytes
  sent : Bytes
  closed : Bool
deriving DecidableEq

/-- What the socket does with bytes that it is offered. -/
inductive WriteAnswer where
  | pending
  | failed
  /-- It takes this many bytes, or all if there are less. -/
  | ready (written : ℕ)
deriving DecidableEq

/-- What a poll of the adaptor returns. -/
inductive WirePoll where
  | ready (count : ℕ)
  | pending
  | failed
deriving DecidableEq

namespace Wire

def new : Wire := ⟨none, [], [], [], false⟩

def setInformational (wire : Wire) (informational : InformationalHead) : Wire := { wire with informational := some informational }

/-- The loop of `poll_wire_output`. The socket is not ready when there are no more answers. -/
def pollWireOutput : List WriteAnswer → Wire → WirePoll × List WriteAnswer × Wire
  | answers, wire =>
    if wire.wireOutput = [] then (.ready 0, answers, wire)
    else
      match answers with
      | [] => (.pending, [], wire)
      | .pending :: answers => (.pending, answers, wire)
      | .failed :: answers => (.failed, answers, wire)
      | .ready written :: answers =>
        if written = 0 then (.failed, answers, wire)
        else pollWireOutput answers { wire with wireOutput := wire.wireOutput.drop written, sent := wire.sent ++ wire.wireOutput.take written }

/-- The environment of a poll. -/
structure Environment where
  /-- The idle timer has run off. -/
  idle : Bool
  answers : List WriteAnswer

/-- `poll_write` of the socket. -/
def pollSocket (answers : List WriteAnswer) (wire : Wire) (bytes : Bytes) : WirePoll × Wire :=
  match answers with
  | [] | .pending :: _ => (.pending, wire)
  | .failed :: _ => (.failed, wire)
  | .ready written :: _ => (.ready (min written bytes.length), { wire with sent := wire.sent ++ bytes.take written })

def pollWrite (environment : Environment) (wire : Wire) (bytes : Bytes) : WirePoll × Wire :=
  if environment.idle then (.failed, wire)
  else
    match pollWireOutput environment.answers wire with
    | (.pending, _, wire) => (.pending, wire)
    | (.failed, _, wire) => (.failed, wire)
    | (.ready _, answers, wire) =>
      match wire.informational with
      | none => pollSocket answers wire bytes
      | some informational =>
        let wire := { wire with wireHead := wire.wireHead ++ bytes }
        match findHeaderEnd wire.wireHead with
        | none => (.ready bytes.length, wire)
        | some stop =>
          let wire := { wire with
            wireOutput := wire.wireOutput ++ rewriteInformationalHead (wire.wireHead.take stop) informational ++ wire.wireHead.drop stop
            wireHead := []
            informational := none }
          match pollWireOutput answers wire with
          | (.failed, _, wire) => (.failed, wire)
          | (_, _, wire) => (.ready bytes.length, wire)

/-- `poll_flush`; the last answer is that of the socket. -/
def pollFlush (environment : Environment) (wire : Wire) : WirePoll × Wire :=
  match pollWireOutput environment.answers wire with
  | (.pending, _, wire) => (.pending, wire)
  | (.failed, _, wire) => (.failed, wire)
  | (.ready _, answers, wire) =>
    match answers with
    | [] | .pending :: _ => (.pending, wire)
    | .failed :: _ => (.failed, wire)
    | .ready _ :: _ => (.ready 0, wire)

def pollShutdown (answer : WriteAnswer) (wire : Wire) : WirePoll × Wire :=
  match answer with
  | .pending => (.pending, wire)
  | .failed => (.failed, wire)
  | .ready _ => (.ready 0, { wire with closed := true })

end Wire

end HellRs.Http
