import HellRs.Http.Wire

/-! # What the client receives

The engine gives the bytes of the responses in their order. The adaptor passes them on, but for the heads of informational responses.
It takes whatever comes behind an announcement for the head, and a shutdown leaves what is still in its buffers. A run in which an
announcement is made behind all earlier bytes, and a shutdown with nothing in the buffers, is exact.
-/

namespace HellRs.Http

/-- The head of an HTTP response. Its lines are not empty and have no line break. -/
structure ResponseHead where
  version : Bytes
  /-- The rest of the status line, behind the version and a space. -/
  status : Bytes
  fields : List Bytes
  versionPlain : lf ∉ version ∧ 32 ∉ version
  statusPlain : lf ∉ status
  fieldsPlain : ∀ field ∈ fields, lf ∉ field ∧ field ≠ []

/-- The name of a header line. -/
def fieldName (field : Bytes) : Bytes := field.takeWhile (· ≠ 58)

namespace ResponseHead

def lines (fields : List Bytes) : Bytes := fields.flatMap fun field => field ++ [cr, lf]

def text (head : ResponseHead) : Bytes := head.version ++ [32] ++ head.status ++ [cr, lf] ++ lines head.fields ++ [cr, lf]

/-- Neither `Content-Length` nor `Transfer-Encoding`. -/
def keeps (field : Bytes) : Bool :=
  !(eqIgnoreAsciiCase (fieldName field) (ascii "content-length") || eqIgnoreAsciiCase (fieldName field) (ascii "transfer-encoding"))

/-- The head with another status line and without the lines on the length of the body. -/
def informationalText (head : ResponseHead) (informational : InformationalHead) : Bytes :=
  head.version ++ [32] ++ ascii (toString informational.status) ++ [32] ++ informational.reason ++ [cr, lf] ++
    lines (head.fields.filter keeps) ++ [cr, lf]

end ResponseHead

inductive Response where
  | ordinary (bytes : Bytes)
  | informational (announced : InformationalHead) (head : ResponseHead) (body : Bytes)

namespace Response

/-- The bytes that the engine gives. -/
def given : Response → Bytes
  | ordinary bytes => bytes
  | informational _ head body => head.text ++ body

/-- What belongs on the socket for a beginning of these bytes. A head is rewritten when it is complete. -/
def wire : Response → Bytes → Bytes
  | ordinary _, part => part
  | informational announced head _, part =>
    if part.length < head.text.length then [] else head.informationalText announced ++ part.drop head.text.length

end Response

def givenBytes (responses : List Response) : Bytes := responses.flatMap Response.given

/-- What belongs on the socket for a beginning of the bytes of some responses. -/
def wireBytes : List Response → Bytes → Bytes
  | [], _ => []
  | response :: responses, part =>
    if part.length < response.given.length then response.wire part
    else response.wire response.given ++ wireBytes responses (part.drop response.given.length)

/-- The engine, and the adaptor below it. -/
structure Connection where
  responses : List Response
  /-- The bytes that the adaptor has accepted. -/
  given : Bytes
  wire : Wire

def Connection.new : Connection := ⟨[], [], .new⟩

inductive ConnectionAction where
  /-- `build_response`. -/
  | build (response : Response)
  /-- The engine offers the bytes that come next, up to a number of them. -/
  | write (length : ℕ) (environment : Wire.Environment)
  | flush (environment : Wire.Environment)
  | shutdown (answer : WriteAnswer)

namespace Connection

def build (connection : Connection) (response : Response) : Connection :=
  { connection with
    responses := connection.responses ++ [response]
    wire := match response with
      | .ordinary _ => connection.wire
      | .informational announced _ _ => connection.wire.setInformational announced }

/-- A connection ends with an error. There are no actions behind its shutdown. -/
def act (connection : Connection) (action : ConnectionAction) : Option Connection :=
  if connection.wire.closed then none
  else
    match action with
    | .build response => some (connection.build response)
    | .write length environment =>
      let chunk := ((givenBytes connection.responses).drop connection.given.length).take length
      match connection.wire.pollWrite environment chunk with
      | (.ready count, wire) => some { connection with given := connection.given ++ chunk.take count, wire }
      | (.pending, wire) => some { connection with wire }
      | (.failed, _) => none
    | .flush environment =>
      match connection.wire.pollFlush environment with
      | (.failed, _) => none
      | (_, wire) => some { connection with wire }
    | .shutdown answer =>
      match connection.wire.pollShutdown answer with
      | (.failed, _) => none
      | (_, wire) => some { connection with wire }

/-- An announcement comes behind all bytes of the earlier responses, and a shutdown when nothing is left in the buffers. -/
def Calm (connection : Connection) : ConnectionAction → Prop
  | .build (.informational ..) => connection.given = givenBytes connection.responses
  | .shutdown _ => connection.wire.wireHead = [] ∧ connection.wire.wireOutput = []
  | .build (.ordinary _) | .write .. | .flush _ => True

end Connection

/-- A run in which every step is calm. -/
inductive CalmRun : Connection → Prop
  | start : CalmRun .new
  | step {connection next : Connection} (action : ConnectionAction) : CalmRun connection → connection.Calm action →
      connection.act action = some next → CalmRun next

/-! ## Heads -/

section Heads

theorem findHeaderEnd_append {bytes : Bytes} {stop : ℕ} (found : findHeaderEnd bytes = some stop) (more : Bytes) :
    findHeaderEnd (bytes ++ more) = some stop ∧ 4 ≤ stop ∧ stop ≤ bytes.length := by
  induction bytes generalizing stop with
  | nil => cases found
  | cons byte bytes ih =>
    have extended : byte :: bytes <+: byte :: (bytes ++ more) := ⟨more, rfl⟩
    rw [findHeaderEnd] at found
    rw [List.cons_append, findHeaderEnd]
    split at found
    next here =>
      have inside := List.isPrefixOf_iff_prefix.mp here
      have length := inside.length_le
      rw [if_pos (List.isPrefixOf_iff_prefix.mpr (inside.trans extended))]
      cases found
      exact ⟨rfl, Nat.le_refl 4, length⟩
    next notHere =>
      obtain ⟨inner, within, rfl⟩ := Option.map_eq_some_iff.mp found
      obtain ⟨later, four, bound⟩ := ih within
      have notLater : ¬ [cr, lf, cr, lf].isPrefixOf (byte :: (bytes ++ more)) := by
        intro longer
        refine notHere (List.isPrefixOf_iff_prefix.mpr ?_)
        refine List.prefix_of_prefix_length_le (List.isPrefixOf_iff_prefix.mp longer) extended ?_
        simp only [List.length_cons, List.length_nil]
        omega
      rw [if_neg notLater, later, List.length_cons]
      exact ⟨rfl, by omega, by omega⟩

/-- The end of a head is not in a line. -/
theorem findHeaderEnd_line {line : Bytes} (plain : lf ∉ line) (rest : Bytes) :
    findHeaderEnd (line ++ cr :: lf :: rest) = (findHeaderEnd (cr :: lf :: rest)).map (· + line.length) := by
  induction line with
  | nil => simp
  | cons byte line ih =>
    have tail : lf ∉ line := fun member => plain (List.mem_cons_of_mem _ member)
    have notHere : ¬ [cr, lf, cr, lf].isPrefixOf (byte :: (line ++ cr :: lf :: rest)) := by
      cases line with
      | nil => simp [List.isPrefixOf, cr, lf]
      | cons other line =>
        have different : lf ≠ other := fun same => tail (same ▸ List.mem_cons_self ..)
        simp [List.isPrefixOf, different]
    rw [List.cons_append, findHeaderEnd, if_neg notHere, ih tail, Option.map_map]
    congr 1

/-- The empty line is the one behind the fields. -/
theorem findHeaderEnd_lines (fields : List Bytes) (plain : ∀ field ∈ fields, lf ∉ field ∧ field ≠ []) {first : Bytes} (firstPlain : lf ∉ first)
    (more : Bytes) : findHeaderEnd (first ++ [cr, lf] ++ ResponseHead.lines fields ++ [cr, lf] ++ more) =
      some (first ++ [cr, lf] ++ ResponseHead.lines fields ++ [cr, lf]).length := by
  induction fields generalizing first with
  | nil =>
    have ends : findHeaderEnd (cr :: lf :: cr :: lf :: more) = some 4 := if_pos rfl
    simp only [ResponseHead.lines, List.flatMap_nil, List.append_nil, List.append_assoc, List.cons_append, List.nil_append]
    rw [findHeaderEnd_line firstPlain, ends]
    simp [Nat.add_comm]
  | cons field fields ih =>
    obtain ⟨⟨fieldPlain, nonempty⟩, rest⟩ := List.forall_mem_cons.mp plain
    have later := ih rest fieldPlain
    have step : findHeaderEnd (cr :: lf :: (field ++ [cr, lf] ++ ResponseHead.lines fields ++ [cr, lf] ++ more)) =
        (findHeaderEnd (field ++ [cr, lf] ++ ResponseHead.lines fields ++ [cr, lf] ++ more)).map (· + 2) := by
      have notEmpty : ∀ rest', field ++ [cr, lf] ++ ResponseHead.lines fields ++ [cr, lf] ++ more ≠ cr :: lf :: rest' := by
        intro rest' same
        cases field with
        | nil => exact nonempty rfl
        | cons byte field =>
          cases field with
          | nil => simp [cr, lf] at same
          | cons other field =>
            simp only [List.cons_append, List.cons.injEq] at same
            exact fieldPlain (by simp [same.2.1])
      rw [findHeaderEnd, if_neg, findHeaderEnd, if_neg, Option.map_map]
      · rfl
      · simp [List.isPrefixOf, cr, lf]
      · intro isEmpty
        obtain ⟨rest', same⟩ := List.isPrefixOf_iff_prefix.mp isEmpty
        simp only [List.cons_append, List.cons.injEq, true_and, List.nil_append] at same
        exact notEmpty rest' same.symm
    have split : first ++ [cr, lf] ++ ResponseHead.lines (field :: fields) ++ [cr, lf] ++ more =
        first ++ cr :: lf :: (field ++ [cr, lf] ++ ResponseHead.lines fields ++ [cr, lf] ++ more) := by
      simp [ResponseHead.lines]
    rw [split, findHeaderEnd_line firstPlain, step, later]
    simp only [Option.map_some, ResponseHead.lines, List.flatMap_cons, List.length_append, List.length_cons, List.length_nil, Option.some.injEq]
    omega

theorem ResponseHead.findHeaderEnd_text (head : ResponseHead) (more : Bytes) : findHeaderEnd (head.text ++ more) = some head.text.length := by
  have plain : lf ∉ head.version ++ [32] ++ head.status := by
    have space : lf ≠ 32 := by decide
    simp [head.versionPlain.1, head.statusPlain, space]
  exact findHeaderEnd_lines head.fields head.fieldsPlain plain more

/-- No beginning of a head ends a head. -/
theorem ResponseHead.findHeaderEnd_short (head : ResponseHead) {part : Bytes} (isPart : part <+: head.text) (short : part.length < head.text.length) :
    findHeaderEnd part = none := by
  obtain ⟨more, whole⟩ := isPart
  cases found : findHeaderEnd part with
  | none => rfl
  | some stop =>
    obtain ⟨same, -, bound⟩ := findHeaderEnd_append found more
    have text := head.findHeaderEnd_text []
    rw [List.append_nil, ← whole, same, Option.some_inj] at text
    rw [whole] at text
    omega

theorem splitOn_line {line : Bytes} (plain : lf ∉ line) (rest : Bytes) : (line ++ lf :: rest).splitOn lf = line :: rest.splitOn lf := by
  have others : ∀ byte ∈ line, (byte == lf) = false := by
    intro byte member
    exact beq_eq_false_iff_ne.mpr fun same => plain (same ▸ member)
  exact List.splitOnP_append_cons_of_forall_mem others lf (beq_self_eq_true lf) rest

theorem rewriteFields_lines (fields : List Bytes) (plain : ∀ field ∈ fields, lf ∉ field ∧ field ≠ []) :
    rewriteFields ((ResponseHead.lines fields ++ [cr, lf]).splitOn lf) = ResponseHead.lines (fields.filter ResponseHead.keeps) := by
  induction fields with
  | nil =>
    have split : ([cr, lf] : Bytes).splitOn lf = [[cr], []] := by decide
    rw [ResponseHead.lines, List.flatMap_nil, List.nil_append, split]
    rfl
  | cons field fields ih =>
    obtain ⟨⟨fieldPlain, nonempty⟩, rest⟩ := List.forall_mem_cons.mp plain
    have whole : ResponseHead.lines (field :: fields) ++ [cr, lf] = (field ++ [cr]) ++ lf :: (ResponseHead.lines fields ++ [cr, lf]) := by
      simp [ResponseHead.lines]
    have linePlain : lf ∉ field ++ [cr] := by
      have different : lf ≠ cr := by decide
      simp [fieldPlain, different]
    rw [whole, splitOn_line linePlain, rewriteFields]
    simp only [List.getLast?_concat, ↓reduceIte, List.dropLast_concat, nonempty]
    rw [ih rest, List.filter_cons, ResponseHead.keeps, fieldName]
    split
    next dropped =>
      rw [← Bool.or_eq_true] at dropped
      rw [dropped]
      rfl
    next kept =>
      rw [← Bool.or_eq_true, Bool.not_eq_true] at kept
      rw [kept]
      rfl

/-- The adaptor rewrites a head as it should. -/
theorem ResponseHead.rewrite_text (head : ResponseHead) (informational : InformationalHead) :
    rewriteInformationalHead head.text informational = head.informationalText informational := by
  have plain : lf ∉ head.version ++ [32] ++ head.status ++ [cr] := by
    have space : lf ≠ 32 := by decide
    have different : lf ≠ cr := by decide
    simp [head.versionPlain.1, head.statusPlain, space, different]
  have whole : head.text = (head.version ++ [32] ++ head.status ++ [cr]) ++ lf :: (lines head.fields ++ [cr, lf]) := by
    simp [ResponseHead.text]
  have version : (head.version ++ [32] ++ head.status ++ [cr]).takeWhile (· ≠ 32) = head.version := by
    rw [List.append_assoc, List.append_assoc, List.takeWhile_append_of_pos]
    · simp
    · intro byte member
      exact decide_eq_true fun same => head.versionPlain.2 (same ▸ member)
  rw [rewriteInformationalHead, whole, splitOn_line plain]
  dsimp only
  rw [version, rewriteFields_lines head.fields head.fieldsPlain]
  rfl

end Heads

/-! ## Bytes -/

section Expected

variable {responses done later : List Response} {part : Bytes}

@[simp] theorem givenBytes_append (first second : List Response) : givenBytes (first ++ second) = givenBytes first ++ givenBytes second :=
  List.flatMap_append ..

theorem ResponseHead.length_text_pos (head : ResponseHead) : 0 < head.text.length := by
  simp only [ResponseHead.text, List.length_append, List.length_cons]
  omega

theorem Response.wire_nil (response : Response) : response.wire [] = [] := by
  cases response with
  | ordinary bytes => rfl
  | informational announced head body => exact if_pos head.length_text_pos

theorem wireBytes_nil (responses : List Response) : wireBytes responses [] = [] := by
  induction responses with
  | nil => rfl
  | cons response responses ih =>
    rw [wireBytes]
    split
    next => exact response.wire_nil
    next whole =>
      have empty : response.given = [] := List.eq_nil_of_length_eq_zero (by simpa using whole)
      rw [empty, response.wire_nil, List.drop_nil, ih]
      rfl

/-- What follows complete responses is for itself. -/
theorem wireBytes_append (done later : List Response) (part : Bytes) :
    wireBytes (done ++ later) (givenBytes done ++ part) = wireBytes done (givenBytes done) ++ wireBytes later part := by
  induction done with
  | nil => rfl
  | cons response done ih =>
    have whole : givenBytes (response :: done) = response.given ++ givenBytes done := rfl
    have long (more : Bytes) : ¬ (response.given ++ more).length < response.given.length := by
      rw [List.length_append]
      omega
    rw [whole, List.cons_append, List.append_assoc, wireBytes, if_neg (long _), List.drop_left, ih, wireBytes, if_neg (long _),
      List.drop_left, List.append_assoc]

/-- Later responses do not matter for a beginning of the earlier ones. -/
theorem wireBytes_append_left (later : List Response) (isPart : part <+: givenBytes responses) :
    wireBytes (responses ++ later) part = wireBytes responses part := by
  induction responses generalizing part with
  | nil =>
    have empty : part = [] := List.prefix_nil.mp isPart
    rw [empty, wireBytes_nil, wireBytes_nil]
  | cons response responses ih =>
    rw [List.cons_append, wireBytes, wireBytes]
    split
    next => rfl
    next whole =>
      have drops : part.drop response.given.length <+: givenBytes responses := by
        have dropped := List.IsPrefix.drop isPart response.given.length
        have whole : givenBytes (response :: responses) = response.given ++ givenBytes responses := rfl
        rwa [whole, List.drop_left] at dropped
      rw [ih drops]

theorem wireBytes_ordinary (plain : ∀ response ∈ responses, ∃ bytes, response = .ordinary bytes) (isPart : part <+: givenBytes responses) :
    wireBytes responses part = part := by
  induction responses generalizing part with
  | nil =>
    have empty : part = [] := List.prefix_nil.mp isPart
    rw [empty, wireBytes_nil]
  | cons response responses ih =>
    obtain ⟨⟨bytes, rfl⟩, rest⟩ := List.forall_mem_cons.mp plain
    have whole : givenBytes (.ordinary bytes :: responses) = bytes ++ givenBytes responses := rfl
    rw [wireBytes, Response.given, Response.wire, Response.wire]
    split
    next => rfl
    next long =>
      have first : bytes <+: part := by
        rw [whole] at isPart
        exact List.prefix_of_prefix_length_le (List.prefix_append ..) isPart (by omega)
      obtain ⟨more, rfl⟩ := first
      rw [whole, List.prefix_append_right_inj] at isPart
      rw [List.drop_left, ih rest isPart]

theorem wireBytes_informational {announced : InformationalHead} {head : ResponseHead} {body more : Bytes}
    (plain : ∀ response ∈ later, ∃ bytes, response = .ordinary bytes) (isPart : more <+: body ++ givenBytes later) :
    wireBytes (.informational announced head body :: later) (head.text ++ more) = head.informationalText announced ++ more := by
  have long : ¬ (head.text ++ more).length < head.text.length := by
    rw [List.length_append]
    omega
  have whole : ¬ (head.text ++ body).length < head.text.length := by
    rw [List.length_append]
    omega
  rw [wireBytes, Response.given, Response.wire, Response.wire, if_neg long, if_neg whole, List.drop_left, List.drop_left]
  split
  next => rfl
  next full =>
    simp only [List.length_append] at full
    have first : body <+: more := List.prefix_of_prefix_length_le (List.prefix_append ..) isPart (by omega)
    obtain ⟨rest, rfl⟩ := first
    rw [List.prefix_append_right_inj] at isPart
    rw [← List.append_assoc, List.drop_left, wireBytes_ordinary plain isPart, List.append_assoc]

theorem wireBytes_short {announced : InformationalHead} {head : ResponseHead} {body : Bytes} (short : part.length < head.text.length) :
    wireBytes (.informational announced head body :: later) part = [] := by
  have shorter : part.length < (head.text ++ body).length := by
    rw [List.length_append]
    omega
  rw [wireBytes, Response.given, if_pos shorter, Response.wire, if_pos short]

/-- All bytes that come next are passed on. -/
def Plain (responses : List Response) (given : Bytes) : Prop :=
  ∀ more, given ++ more <+: givenBytes responses → wireBytes responses (given ++ more) = wireBytes responses given ++ more

theorem plain_nil : Plain [] [] := by
  intro more isPart
  have empty : more = [] := by simpa [givenBytes] using isPart
  rw [empty, List.append_nil, List.append_nil]

variable {given : Bytes}

theorem Plain.append (plain : Plain responses given) {more : Bytes} (isPart : given ++ more <+: givenBytes responses) :
    Plain responses (given ++ more) := by
  intro rest whole
  rw [plain more isPart, List.append_assoc, plain (more ++ rest) (by rwa [← List.append_assoc]), List.append_assoc]

/-- An ordinary response is passed on, too. -/
theorem Plain.ordinary (plain : Plain responses given) (isPart : given <+: givenBytes responses) (bytes : Bytes) :
    Plain (responses ++ [.ordinary bytes]) given := by
  intro more whole
  rw [wireBytes_append_left _ isPart]
  rw [givenBytes_append] at whole
  rcases Nat.le_total (given ++ more).length (givenBytes responses).length with shorter | longer
  · have inside := List.prefix_of_prefix_length_le whole (List.prefix_append ..) shorter
    rw [wireBytes_append_left _ inside, plain more inside]
  · obtain ⟨rest, same⟩ := List.prefix_of_prefix_length_le (List.prefix_append ..) whole longer
    obtain ⟨missing, complete⟩ := isPart
    have split : more = missing ++ rest := by
      rw [← complete, List.append_assoc] at same
      exact (List.append_cancel_left same).symm
    rw [← same, List.prefix_append_right_inj] at whole
    have ordinary : wireBytes [.ordinary bytes] rest = rest := wireBytes_ordinary (List.forall_mem_singleton.mpr ⟨bytes, rfl⟩) whole
    have exact_ := plain missing (by rw [complete])
    rw [complete] at exact_
    rw [← same, wireBytes_append, ordinary, exact_, split, List.append_assoc]

end Expected

/-! ## The adaptor -/

/-- What writing the output that is ready changes. -/
structure Wire.Drains (wire next : Wire) : Prop where
  bytes : next.sent ++ next.wireOutput = wire.sent ++ wire.wireOutput
  informational : next.informational = wire.informational
  wireHead : next.wireHead = wire.wireHead
  closed : next.closed = wire.closed

theorem Wire.pollWireOutput_drains (answers : List WriteAnswer) (wire : Wire) : wire.Drains (wire.pollWireOutput answers).2.2 := by
  induction answers generalizing wire with
  | nil =>
    rw [pollWireOutput.eq_def]
    dsimp only
    split <;> exact ⟨rfl, rfl, rfl, rfl⟩
  | cons answer answers ih =>
    rw [pollWireOutput.eq_def]
    dsimp only
    split
    next => exact ⟨rfl, rfl, rfl, rfl⟩
    next =>
      cases answer with
      | pending => exact ⟨rfl, rfl, rfl, rfl⟩
      | failed => exact ⟨rfl, rfl, rfl, rfl⟩
      | ready written =>
        dsimp only
        split
        next => exact ⟨rfl, rfl, rfl, rfl⟩
        next =>
          obtain ⟨bytes, informational, wireHead, closed⟩ := ih { wire with
            wireOutput := wire.wireOutput.drop written
            sent := wire.sent ++ wire.wireOutput.take written }
          refine ⟨bytes.trans ?_, informational, wireHead, closed⟩
          rw [List.append_assoc, List.take_append_drop]

theorem Wire.pollWireOutput_ready {answers rest : List WriteAnswer} {wire next : Wire} {count : ℕ}
    (polled : wire.pollWireOutput answers = (.ready count, rest, next)) : next.wireOutput = [] := by
  induction answers generalizing wire with
  | nil =>
    rw [pollWireOutput.eq_def] at polled
    dsimp only at polled
    split at polled
    next empty =>
      cases polled
      exact empty
    next => cases polled
  | cons answer answers ih =>
    rw [pollWireOutput.eq_def] at polled
    dsimp only at polled
    split at polled
    next empty =>
      cases polled
      exact empty
    next =>
      cases answer with
      | pending => cases polled
      | failed => cases polled
      | ready written =>
        dsimp only at polled
        split at polled
        next => cases polled
        next => exact ih polled

/-- What the adaptor waits for. -/
inductive Expecting (responses : List Response) (given : Bytes) (wire : Wire) : Prop where
  | plain (silent : wire.informational = none) (empty : wire.wireHead = []) (plain : Plain responses given)
  /-- The rest of the head that was announced. -/
  | head {announced : InformationalHead} {done later : List Response} {head : ResponseHead} {body : Bytes}
      (announcement : wire.informational = some announced) (split : responses = done ++ .informational announced head body :: later)
      (rest : ∀ response ∈ later, ∃ bytes, response = .ordinary bytes) (given : given = givenBytes done ++ wire.wireHead)
      (short : wire.wireHead.length < head.text.length)

structure Exactly (connection : Connection) : Prop where
  part : connection.given <+: givenBytes connection.responses
  bytes : connection.wire.sent ++ connection.wire.wireOutput = wireBytes connection.responses connection.given
  expecting : Expecting connection.responses connection.given connection.wire
  closed : connection.wire.closed = true → connection.wire.wireHead = [] ∧ connection.wire.wireOutput = []

namespace Exactly

variable {connection next : Connection}

theorem new : Exactly .new := ⟨List.prefix_rfl, rfl, .plain rfl rfl plain_nil, nofun⟩

theorem build (exactly : Exactly connection) (response : Response) (calm : connection.Calm (.build response)) (isOpen : connection.wire.closed = false) :
    Exactly (connection.build response) := by
  obtain ⟨part, bytes, expecting, -⟩ := exactly
  have longer : connection.given <+: givenBytes (connection.responses ++ [response]) := by
    rw [givenBytes_append]
    exact part.trans (List.prefix_append ..)
  have closed (wire : Wire) (same : wire.closed = connection.wire.closed) (isClosed : wire.closed = true) :
      wire.wireHead = [] ∧ wire.wireOutput = [] := by
    rw [same, isOpen] at isClosed
    cases isClosed
  cases response with
  | ordinary more =>
    refine ⟨longer, bytes.trans (wireBytes_append_left _ part).symm, ?_, closed _ rfl⟩
    cases expecting with
    | plain silent empty plain => exact .plain silent empty (plain.ordinary part more)
    | @head announced done later head body announcement split rest given short =>
      refine @Expecting.head _ _ _ announced done (later ++ [.ordinary more]) head body announcement ?_ ?_ given short
      · rw [Connection.build, split, List.append_assoc, List.cons_append]
      · intro response member
        rcases List.mem_append.mp member with before | last
        · exact rest response before
        · exact ⟨more, List.mem_singleton.mp last⟩
  | informational announced head body =>
    refine ⟨longer, bytes.trans (wireBytes_append_left _ part).symm, ?_, closed _ rfl⟩
    have all : connection.given = givenBytes connection.responses := calm
    have empty : connection.wire.wireHead = [] := by
      cases expecting with
      | plain silent empty plain => exact empty
      | @head announced done later head body announcement split rest given short =>
        -- the head would have been given completely
        rw [all, split, givenBytes_append, List.append_cancel_left_eq] at given
        have length := congrArg List.length given
        have whole : givenBytes (.informational announced head body :: later) = head.text ++ body ++ givenBytes later := rfl
        rw [whole, List.length_append, List.length_append] at length
        omega
    refine @Expecting.head _ _ _ announced connection.responses [] head body rfl rfl nofun ?_ ?_
    · change connection.given = _ ++ connection.wire.wireHead
      rw [empty, List.append_nil, all]
    · change connection.wire.wireHead.length < _
      rw [empty]
      exact head.length_text_pos

/-- Only the output that is ready was written. -/
theorem drains (exactly : Exactly connection) {wire : Wire} (drains : connection.wire.Drains wire) (isOpen : connection.wire.closed = false) :
    Exactly { connection with wire } := by
  obtain ⟨part, bytes, expecting, -⟩ := exactly
  obtain ⟨same, informational, wireHead, closed⟩ := drains
  refine ⟨part, same.trans bytes, ?_, fun isClosed => ?_⟩
  · cases expecting with
    | plain silent empty plain => exact .plain (informational.trans silent) (wireHead.trans empty) plain
    | head announcement split rest given short =>
      exact .head (informational.trans announcement) split rest (given.trans (congrArg _ wireHead.symm)) (by rwa [wireHead])
  · rw [show wire.closed = false from closed.trans isOpen] at isClosed
    cases isClosed

/-- Bytes behind all heads that are written to the socket. -/
theorem socket (exactly : Exactly connection) (isOpen : connection.wire.closed = false) (silent : connection.wire.informational = none)
    (empty : connection.wire.wireOutput = []) {more : Bytes} (isNext : connection.given ++ more <+: givenBytes connection.responses) :
    Exactly { connection with given := connection.given ++ more, wire := { connection.wire with sent := connection.wire.sent ++ more } } := by
  obtain ⟨part, bytes, expecting, -⟩ := exactly
  cases expecting with
  | plain _ noHead plain =>
    refine ⟨isNext, ?_, .plain silent noHead (plain.append isNext), fun isClosed => ?_⟩
    · change connection.wire.sent ++ more ++ connection.wire.wireOutput = wireBytes connection.responses (connection.given ++ more)
      rw [plain more isNext, ← bytes, empty, List.append_nil, List.append_nil]
    · exact absurd (isOpen.symm.trans isClosed) (by decide)
  | head announcement split rest given short =>
    rw [silent] at announcement
    cases announcement

/-- Bytes that belong to an announced head, but do not end it. -/
theorem collect (exactly : Exactly connection) (isOpen : connection.wire.closed = false) {announced : InformationalHead}
    (announcement : connection.wire.informational = some announced) {chunk : Bytes}
    (isNext : connection.given ++ chunk <+: givenBytes connection.responses) (incomplete : findHeaderEnd (connection.wire.wireHead ++ chunk) = none) :
    Exactly { connection with given := connection.given ++ chunk, wire := { connection.wire with wireHead := connection.wire.wireHead ++ chunk } } := by
  obtain ⟨part, bytes, expecting, -⟩ := exactly
  cases expecting with
  | plain silent _ _ =>
    rw [silent] at announcement
    cases announcement
  | @head _ done later head body same split rest given short =>
    have within : connection.wire.wireHead ++ chunk <+: head.text ++ (body ++ givenBytes later) := by
      rw [given, split, givenBytes_append, List.append_assoc, List.prefix_append_right_inj] at isNext
      rwa [← List.append_assoc]
    have still : (connection.wire.wireHead ++ chunk).length < head.text.length := by
      by_contra long
      obtain ⟨more, whole⟩ := List.prefix_of_prefix_length_le (List.prefix_append head.text _) within (by omega)
      rw [← whole, head.findHeaderEnd_text] at incomplete
      cases incomplete
    refine ⟨isNext, ?_, @Expecting.head _ _ _ _ done later head body same split rest ?_ still, fun isClosed => ?_⟩
    · change connection.wire.sent ++ connection.wire.wireOutput = wireBytes connection.responses (connection.given ++ chunk)
      rw [bytes, given, split, List.append_assoc, wireBytes_append, wireBytes_append, wireBytes_short short, wireBytes_short still]
    · rw [given, List.append_assoc]
    · exact absurd (isOpen.symm.trans isClosed) (by decide)

/-- The rest of an announced head, and what comes behind it. -/
theorem rewrite (exactly : Exactly connection) (isOpen : connection.wire.closed = false) {announced : InformationalHead}
    (announcement : connection.wire.informational = some announced) {chunk : Bytes} {stop : ℕ}
    (isNext : connection.given ++ chunk <+: givenBytes connection.responses) (complete : findHeaderEnd (connection.wire.wireHead ++ chunk) = some stop) :
    Exactly { connection with
      given := connection.given ++ chunk
      wire := { connection.wire with
        wireOutput := connection.wire.wireOutput ++ rewriteInformationalHead ((connection.wire.wireHead ++ chunk).take stop) announced ++
          (connection.wire.wireHead ++ chunk).drop stop
        wireHead := []
        informational := none } } := by
  obtain ⟨part, bytes, expecting, -⟩ := exactly
  cases expecting with
  | plain silent _ _ =>
    rw [silent] at announcement
    cases announcement
  | @head _ done later head body same split rest given short =>
    cases announcement.symm.trans same
    have within : connection.wire.wireHead ++ chunk <+: head.text ++ (body ++ givenBytes later) := by
      rw [given, split, givenBytes_append, List.append_assoc, List.prefix_append_right_inj] at isNext
      rwa [← List.append_assoc]
    have whole : head.text <+: connection.wire.wireHead ++ chunk := by
      rcases Nat.lt_or_ge (connection.wire.wireHead ++ chunk).length head.text.length with shorter | longer
      · have inside := List.prefix_of_prefix_length_le within (List.prefix_append head.text _) (by omega)
        rw [head.findHeaderEnd_short inside shorter] at complete
        cases complete
      · exact List.prefix_of_prefix_length_le (List.prefix_append head.text _) within longer
    obtain ⟨more, collected⟩ := whole
    rw [← collected, head.findHeaderEnd_text, Option.some_inj] at complete
    rw [← collected, List.prefix_append_right_inj] at within
    have expected : wireBytes connection.responses (connection.given ++ chunk) =
        wireBytes done (givenBytes done) ++ (head.informationalText announced ++ more) := by
      rw [given, List.append_assoc, ← collected, split, wireBytes_append, wireBytes_informational rest within]
    have before : connection.wire.sent ++ connection.wire.wireOutput = wireBytes done (givenBytes done) := by
      rw [bytes, given, split, wireBytes_append, wireBytes_short short, List.append_nil]
    refine ⟨isNext, ?_, .plain rfl rfl ?_, fun isClosed => ?_⟩
    · dsimp only
      rw [expected, ← before, ← collected, ← complete, List.take_left, List.drop_left, head.rewrite_text]
      simp only [List.append_assoc]
    · intro further isPart
      have whole : connection.given ++ chunk ++ further = givenBytes done ++ (head.text ++ (more ++ further)) := by
        rw [given, List.append_assoc, List.append_assoc, ← List.append_assoc connection.wire.wireHead, ← collected, List.append_assoc]
      have inside : more ++ further <+: body ++ givenBytes later := by
        have bytes : givenBytes connection.responses = givenBytes done ++ (head.text ++ (body ++ givenBytes later)) := by
          rw [split, givenBytes_append, ← List.append_assoc head.text]
          rfl
        rwa [whole, bytes, List.prefix_append_right_inj, List.prefix_append_right_inj] at isPart
      rw [expected, whole, split, wireBytes_append, wireBytes_informational rest inside]
      simp only [List.append_assoc]
    · exact absurd (isOpen.symm.trans isClosed) (by decide)

theorem write (exactly : Exactly connection) (isOpen : connection.wire.closed = false) (environment : Wire.Environment) {chunk : Bytes}
    (isNext : connection.given ++ chunk <+: givenBytes connection.responses) {result : WirePoll} {wire : Wire}
    (polled : connection.wire.pollWrite environment chunk = (result, wire)) :
    (∀ count, result = .ready count → Exactly { connection with given := connection.given ++ chunk.take count, wire }) ∧
      (result = .pending → Exactly { connection with wire }) := by
  unfold Wire.pollWrite at polled
  split at polled
  next =>
    cases polled
    exact ⟨nofun, nofun⟩
  next =>
    have drained := Wire.pollWireOutput_drains environment.answers connection.wire
    split at polled
    next rest output first =>
      rw [first] at drained
      cases polled
      exact ⟨nofun, fun _ => exactly.drains drained isOpen⟩
    next rest output first =>
      cases polled
      exact ⟨nofun, nofun⟩
    next none_ rest output first =>
      rw [first] at drained
      have exactly := exactly.drains drained isOpen
      have isOpen : output.closed = false := drained.closed.trans isOpen
      have empty := Wire.pollWireOutput_ready first
      split at polled
      next silent =>
        unfold Wire.pollSocket at polled
        split at polled
        next =>
          cases polled
          exact ⟨nofun, fun _ => exactly⟩
        next =>
          cases polled
          exact ⟨nofun, fun _ => exactly⟩
        next =>
          cases polled
          exact ⟨nofun, nofun⟩
        next written _ =>
          cases polled
          refine ⟨fun count same => ?_, nofun⟩
          cases same
          have some_ : chunk.take (min written chunk.length) = chunk.take written := by
            rw [← List.take_eq_take_iff.mpr]
            omega
          rw [some_]
          refine exactly.socket isOpen silent empty (List.IsPrefix.trans ?_ isNext)
          exact (List.prefix_append_right_inj _).mpr (List.take_prefix ..)
      next announced announcement =>
        have all : chunk.take chunk.length = chunk := List.take_length
        dsimp only at polled
        split at polled
        next incomplete =>
          cases polled
          refine ⟨fun count same => ?_, nofun⟩
          cases same
          rw [all]
          exact exactly.collect isOpen announcement isNext incomplete
        next stop complete =>
          have rewritten := exactly.rewrite isOpen announcement isNext complete
          split at polled
          next =>
            cases polled
            exact ⟨nofun, nofun⟩
          next after rest' wire' _ second =>
            cases polled
            have drained := Wire.pollWireOutput_drains rest { output with
              wireOutput := output.wireOutput ++ rewriteInformationalHead ((output.wireHead ++ chunk).take stop) announced ++
                (output.wireHead ++ chunk).drop stop
              wireHead := []
              informational := none }
            rw [second] at drained
            refine ⟨fun count same => ?_, nofun⟩
            cases same
            rw [all]
            exact rewritten.drains drained isOpen

theorem flush (exactly : Exactly connection) (isOpen : connection.wire.closed = false) (environment : Wire.Environment) {result : WirePoll} {wire : Wire}
    (polled : connection.wire.pollFlush environment = (result, wire)) (ok : result ≠ .failed) : Exactly { connection with wire } := by
  have drained := Wire.pollWireOutput_drains environment.answers connection.wire
  unfold Wire.pollFlush at polled
  split at polled
  next rest output first =>
    rw [first] at drained
    cases polled
    exact exactly.drains drained isOpen
  next =>
    cases polled
    exact absurd rfl ok
  next count rest output first =>
    rw [first] at drained
    split at polled
    all_goals cases polled
    · exact exactly.drains drained isOpen
    · exact exactly.drains drained isOpen
    · exact absurd rfl ok
    · exact exactly.drains drained isOpen

theorem act (exactly : Exactly connection) {action : ConnectionAction} (calm : connection.Calm action) (acted : connection.act action = some next) :
    Exactly next := by
  unfold Connection.act at acted
  split at acted
  next => cases acted
  next isOpen =>
    rw [Bool.not_eq_true] at isOpen
    cases action with
    | build response =>
      cases acted
      exact exactly.build response calm isOpen
    | write length environment =>
      dsimp only at acted
      have isNext : connection.given ++ ((givenBytes connection.responses).drop connection.given.length).take length <+:
          givenBytes connection.responses := by
        obtain ⟨more, whole⟩ := exactly.part
        rw [← whole, List.drop_left, List.prefix_append_right_inj]
        exact List.take_prefix ..
      split at acted
      next count wire polled =>
        cases acted
        exact (exactly.write isOpen environment isNext polled).1 count rfl
      next wire polled =>
        cases acted
        exact (exactly.write isOpen environment isNext polled).2 rfl
      next => cases acted
    | flush environment =>
      dsimp only at acted
      split at acted
      next => cases acted
      next result wire ok polled =>
        cases acted
        exact exactly.flush isOpen environment polled ok
    | shutdown answer =>
      obtain ⟨noHead, noOutput⟩ := calm
      cases answer with
      | failed => cases acted
      | pending =>
        cases acted
        exact exactly
      | ready =>
        cases acted
        obtain ⟨part, bytes, expecting, -⟩ := exactly
        refine ⟨part, bytes, ?_, fun _ => ⟨noHead, noOutput⟩⟩
        cases expecting with
        | plain silent empty plain => exact .plain silent empty plain
        | head announcement split rest given short => exact .head announcement split rest given short

end Exactly

theorem CalmRun.exactly {connection : Connection} (run : CalmRun connection) : Exactly connection := by
  induction run with
  | start => exact .new
  | step action run calm acted ih => exact ih.act calm acted

/-- What belongs on the socket for complete responses. -/
theorem wireBytes_all (responses : List Response) :
    wireBytes responses (givenBytes responses) = responses.flatMap fun response => response.wire response.given := by
  induction responses with
  | nil => rfl
  | cons response responses ih =>
    have whole : givenBytes (response :: responses) = response.given ++ givenBytes responses := rfl
    have long : ¬ (response.given ++ givenBytes responses).length < response.given.length := by
      rw [List.length_append]
      omega
    rw [whole, wireBytes, if_neg long, List.drop_left, ih, List.flatMap_cons]

/-- In every state of a run whose steps are calm, what is on the socket and in the output buffer is what belongs there for the bytes given.
Behind the shutdown all of it is on the socket. -/
theorem wire_exact {connection : Connection} (run : CalmRun connection) :
    connection.wire.sent ++ connection.wire.wireOutput = wireBytes connection.responses connection.given ∧
      (connection.wire.closed = true →
        connection.wire.sent = wireBytes connection.responses connection.given ∧ connection.wire.wireHead = []) ∧
      (connection.wire.closed = true → connection.given = givenBytes connection.responses →
        connection.wire.sent = connection.responses.flatMap fun response => response.wire response.given) := by
  have exactly := run.exactly
  have atClose (isClosed : connection.wire.closed = true) : connection.wire.sent = wireBytes connection.responses connection.given := by
    have bytes := exactly.bytes
    rwa [(exactly.closed isClosed).2, List.append_nil] at bytes
  refine ⟨exactly.bytes, fun isClosed => ⟨atClose isClosed, (exactly.closed isClosed).1⟩, fun isClosed all => ?_⟩
  rw [atClose isClosed, all, wireBytes_all]

/-- The status line `H O` and no fields. -/
def shortHead : ResponseHead := ⟨[72], [79], [], by decide, by decide, nofun⟩

def earlyHints : InformationalHead := ⟨103, [69]⟩

theorem wire_exact_hints : ∃ connection : Connection, connection.wire.closed = true ∧
    connection.wire.sent = [72, 32, 49, 48, 51, 32, 69, 13, 10, 13, 10] := by
  let first := Connection.new.build (.informational earlyHints shortHead [])
  let second : Connection := ⟨first.responses, shortHead.text, ⟨none, [], [], shortHead.informationalText earlyHints, false⟩⟩
  let third : Connection := ⟨first.responses, shortHead.text, ⟨none, [], [], shortHead.informationalText earlyHints, true⟩⟩
  have built : CalmRun first := .step (.build (.informational earlyHints shortHead [])) .start rfl rfl
  have written : CalmRun second := .step (.write 7 ⟨false, [.ready 100]⟩) built trivial rfl
  have closed : CalmRun third := .step (.shutdown (.ready 0)) written ⟨rfl, rfl⟩ rfl
  exact ⟨third, rfl, ((wire_exact closed).2.1 rfl).1.trans rfl⟩

/-- A shutdown leaves the rewritten head in the buffer. An announcement with earlier bytes on the way makes them a part of the head. -/
theorem wire_not_exact :
    (∃ connection, [.build (.informational earlyHints shortHead []), .write 7 ⟨false, []⟩, .shutdown (.ready 0)].foldlM Connection.act .new =
        some connection ∧ connection.wire.closed = true ∧ connection.given = givenBytes connection.responses ∧ connection.wire.sent = []) ∧
      ∃ connection, [.build (.ordinary [1, 13, 10]), .build (.informational earlyHints shortHead []), .write 10 ⟨false, [.ready 100]⟩,
        .shutdown (.ready 0)].foldlM Connection.act .new = some connection ∧ connection.wire.closed = true ∧
        connection.given = givenBytes connection.responses ∧ connection.wire.wireOutput = [] ∧
        connection.wire.sent ≠ connection.responses.flatMap fun response => response.wire response.given := by
  refine ⟨⟨_, rfl, rfl, rfl, rfl⟩, ⟨_, rfl, rfl, rfl, rfl, ?_⟩⟩
  decide

end HellRs.Http
