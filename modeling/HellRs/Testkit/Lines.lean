import HellRs.Testkit.Occurrences

/-! # The passes on a line

Both passes work on lines apart. What they make of a line is what its pieces say, except that a path in front of a line break stays.
-/

namespace HellRs.Testkit.Diagnostics

open Replacing

/-- The program's name does not look like a span that has been replaced. -/
def Quiet (program : Bytes) : Prop := ¬SRC_SPAN ++ WINDOWS ++ [0x22] <:+: program

section Line

variable {platform : Platform} {script program : Bytes} {frame : Prop}

/-! ## Quoted spans -/

theorem ScriptPath.last_mem (path : ScriptPath platform script) {more text : Bytes} (split : script = more ++ text) (nonempty : text ≠ []) :
    0x6c ∈ text := by
  obtain ⟨init, last⟩ := path.last
  rw [last] at split
  rcases List.append_eq_append_iff.mp split with ⟨rest, -, same⟩ | ⟨rest, -, same⟩
  · cases rest with
    | nil =>
      rw [List.nil_append] at same
      rw [← same]
      exact List.mem_singleton_self _
    | cons byte rest =>
      obtain ⟨-, ends⟩ := List.cons.inj same
      exact absurd (List.append_eq_nil_iff.mp ends.symm).2 nonempty
  · rw [same]
    exact List.mem_append_right _ (List.mem_singleton_self _)

/-- A quoted span that begins in front of the end of a path begins in the program's name. -/
theorem span_before (path : ScriptPath platform script) {before earlier text inner rest : Bytes}
    (isBefore : PathBefore program frame before) (split : before ++ script = earlier ++ text) (nonempty : text ≠ [])
    (span : SRC_SPAN ++ inner = text ++ rest) :
    ∃ name, SRC_SPAN ++ name <:+ program ∧ inner = name ++ (ORACLE_PARSE_MARKER ++ (script ++ rest)) := by
  have inside {more text rest : Bytes} (split : script = more ++ text) (nonempty : text ≠ []) (span : SRC_SPAN ++ inner = text ++ rest) :
      False := by
    rcases List.append_eq_append_iff.mp span with ⟨longer, isText, -⟩ | ⟨longer, isSpan, -⟩
    · refine path.noQuote ?_
      rw [split, isText]
      exact List.mem_append_right _ (List.mem_append_left _ (by decide))
    · have member : (0x6c : UInt8) ∈ SRC_SPAN := by
        rw [isSpan]
        exact List.mem_append_left _ (path.last_mem split nonempty)
      exact absurd member (by decide)
  rcases List.append_eq_append_iff.mp split with ⟨more, -, isScript⟩ | ⟨more, isPrefix, rfl⟩
  · exact (inside isScript nonempty span).elim
  cases more with
  | nil => exact (inside (List.nil_append script).symm path.ne_nil span).elim
  | cons byte more =>
    have isFirst : byte = 0x53 := (List.head_eq_of_cons_eq span).symm
    subst isFirst
    have none {text : Bytes} (isText : text = earlier ++ 0x53 :: more) (notMem : 0x53 ∉ text) : False := by
      rw [isText] at notMem
      exact notMem (List.mem_append_right _ (List.mem_cons_self ..))
    rcases isBefore with rfl | rfl | ⟨-, rfl⟩ | ⟨-, rfl⟩
    · exact (none isPrefix List.not_mem_nil).elim
    · exact (none isPrefix (by decide)).elim
    · rcases List.append_eq_append_iff.mp isPrefix with ⟨behind, -, isMarker⟩ | ⟨name, isProgram, isMore⟩
      · have member : (0x53 : UInt8) ∈ ORACLE_PARSE_MARKER := by
          rw [isMarker]
          exact List.mem_append_right _ (List.mem_cons_self ..)
        exact absurd member (by decide)
      · rw [isMore, List.append_assoc, List.append_assoc] at span
        rcases List.append_eq_append_iff.mp span with ⟨inner', isName, isInner⟩ | ⟨longer, isSpan, isMarker⟩
        · refine ⟨inner', ?_, isInner⟩
          rw [isProgram, isName]
          exact List.suffix_append ..
        · cases longer with
          | nil =>
            rw [List.append_nil] at isSpan
            refine ⟨[], ?_, isMarker.symm⟩
            rw [isProgram, isSpan, List.append_nil]
            exact List.suffix_append ..
          | cons byte longer =>
            have isColon : byte = 0x3a := (List.head_eq_of_cons_eq isMarker).symm
            have member : byte ∈ SRC_SPAN := by
              rw [isSpan]
              exact List.mem_append_right _ (List.mem_cons_self ..)
            rw [isColon] at member
            exact absurd member (by decide)
    · exact (none isPrefix (by decide)).elim

/-- A span of bytes without a colon that begins there is a part of the program's name. -/
theorem span_infix (path : ScriptPath platform script) {before earlier text inner more rest : Bytes} (isBefore : PathBefore program frame before)
    (split : before ++ script = earlier ++ text) (nonempty : text ≠ []) (noColon : 0x3a ∉ inner)
    (span : SRC_SPAN ++ (inner ++ more) = text ++ rest) : SRC_SPAN ++ inner <:+: program := by
  obtain ⟨name, isName, same⟩ := span_before path isBefore split nonempty span
  rcases List.append_eq_append_iff.mp same with ⟨longer, rfl, -⟩ | ⟨longer, isInner, isMarker⟩
  · rw [← List.append_assoc] at isName
    exact (List.prefix_append _ longer).isInfix.trans isName.isInfix
  · cases longer with
    | nil =>
      rw [List.append_nil] at isInner
      rw [isInner]
      exact isName.isInfix
    | cons byte longer =>
      have isColon : byte = 0x3a := (List.head_eq_of_cons_eq isMarker).symm
      refine absurd ?_ noColon
      rw [isInner, ← isColon]
      exact List.mem_append_right _ (List.mem_cons_self ..)

/-- No quoted path begins in front of the end of a path. -/
theorem no_quoted (path : ScriptPath platform script) (name : ProgramName platform program) {before earlier text rest : Bytes}
    (isBefore : PathBefore program frame before) (split : before ++ script = earlier ++ text) (nonempty : text ≠ []) :
    ¬quotedScript script <+: text ++ rest := by
  rintro ⟨more, span⟩
  rw [quotedScript, List.append_assoc, List.append_assoc] at span
  obtain ⟨inner, isName, same⟩ := span_before path isBefore split nonempty span
  have separator {shown : Bytes} (isInner : inner = shown) : platform.separator ∉ shown := fun member => by
    subst isInner
    exact name.separator (isName.mem (List.mem_append_right _ member))
  rcases List.append_eq_append_iff.mp same with ⟨longer, isInner, -⟩ | ⟨longer, isShown, isMarker⟩
  · refine separator isInner (List.mem_append_left _ ?_)
    exact mem_haskellShowPath.mpr path.separator_mem
  · rcases slash_or_quote path name with slash | noQuote
    · have first := head?_haskellShowPath slash
      rw [isShown] at first
      cases inner with
      | nil =>
        cases longer with
        | nil => cases first
        | cons byte longer =>
          cases first
          exact absurd (List.head_eq_of_cons_eq isMarker) (by decide)
      | cons byte inner =>
        cases first
        exact name.slash (isName.mem (List.mem_append_right _ (List.mem_cons_self ..)))
    · exact noQuote (isName.mem (List.mem_append_left _ (by decide)))

theorem not_quotedMarker_inside (name : ProgramName platform program) (quiet : Quiet program) : ¬quotedMarker script <:+: program := by
  rw [quotedMarker, marker]
  split_ifs
  · exact quiet
  · intro isInfix
    refine name.slash (isInfix.mem (List.mem_append_left _ (List.mem_append_right _ ?_)))
    decide

theorem quotedMarker_append {rest : Bytes} : quotedMarker script ++ rest = SRC_SPAN ++ (marker script ++ [0x22] ++ rest) := by
  rw [quotedMarker, List.append_assoc, List.append_assoc, List.append_assoc]

/-- The first pass over spans. -/
def scrubSpans (script text : Bytes) : Bytes := replaceAll text (quotedScript script) (quotedMarker script)

theorem scrubSpans_path (path : ScriptPath platform script) (name : ProgramName platform program) {before : Bytes}
    (isBefore : PathBefore program frame before) (suffix : Bytes) :
    scrubSpans script (before ++ script ++ suffix) = before ++ script ++ scrubSpans script suffix :=
  replaceAll_of_none fun _ _ split nonempty => no_quoted path name isBefore split nonempty

/-- A path that is there after the spans are replaced was there before. -/
theorem path_of_scrubSpans (path : ScriptPath platform script) (name : ProgramName platform program) (quiet : Quiet program) {before : Bytes}
    (isBefore : PathBefore program frame before) {line suffix : Bytes} (scrubbed : scrubSpans script line = before ++ script ++ suffix) :
    ∃ suffix', line = before ++ script ++ suffix' ∧ scrubSpans script suffix' = suffix := by
  have behind : ∀ (text earlier line : Bytes), before ++ script = earlier ++ text → scrubSpans script line = text ++ suffix →
      ∃ suffix', line = text ++ suffix' ∧ scrubSpans script suffix' = suffix := by
    intro text
    induction text with
    | nil => exact fun _ line _ scrubbed => ⟨line, rfl, scrubbed⟩
    | cons byte text ih =>
      intro earlier line split scrubbed
      by_cases isSpan : quotedScript script <+: line
      · obtain ⟨more, rfl⟩ := isSpan
        rw [scrubSpans, replaceAll_append quotedScript_ne_nil] at scrubbed
        have span := quotedMarker_append.symm.trans scrubbed
        have noColon : 0x3a ∉ marker script ++ [0x22] := by
          rw [marker]
          split_ifs <;> decide
        have isInfix := span_infix path isBefore split (List.cons_ne_nil _ _) noColon span
        rw [← List.append_assoc] at isInfix
        exact absurd isInfix (not_quotedMarker_inside name quiet)
      · cases line with
        | nil =>
          rw [scrubSpans, replaceAll_nil] at scrubbed
          cases scrubbed
        | cons byte' line =>
          rw [scrubSpans, replaceAll_cons isSpan] at scrubbed
          obtain ⟨rfl, others⟩ := List.cons.inj scrubbed
          obtain ⟨suffix', rfl, same⟩ := ih (earlier ++ [byte']) line (by rw [split, List.append_assoc]; rfl) others
          exact ⟨suffix', rfl, same⟩
  exact behind (before ++ script) [] line (List.nil_append _).symm scrubbed

/-! ## Separators -/

theorem separator_plain {text : Bytes} (noMarker : 0x3c ∉ text) (rest : Bytes) :
    diagnosticPathSeparatorV1 (text ++ rest) = text ++ diagnosticPathSeparatorV1 rest := by
  refine replaceAll_of_none fun earlier after split nonempty isPrefix => noMarker ?_
  obtain ⟨more, same⟩ := isPrefix
  rw [split]
  exact List.mem_append_right _ (mem_of_append_eq nonempty same.symm)

theorem separator_windows (rest : Bytes) : diagnosticPathSeparatorV1 (WINDOWS ++ rest) = PORTABLE ++ diagnosticPathSeparatorV1 rest :=
  replaceAll_append (List.cons_ne_nil _ _) rest

theorem separator_marker (rest : Bytes) : diagnosticPathSeparatorV1 (marker script ++ rest) = PORTABLE ++ diagnosticPathSeparatorV1 rest := by
  rw [marker]
  split_ifs
  · exact separator_windows rest
  · have other : ¬WINDOWS <+: PORTABLE ++ rest := by
      rintro ⟨more, same⟩
      have tenth : some (0x5c : UInt8) = some 0x2f := congrArg (fun text : Bytes => text[9]?) same
      exact absurd tenth (by decide)
    have first := @replaceAll_cons _ _ WINDOWS PORTABLE 0x3c (bytes "SANDBOX>/main.hell" ++ rest) other
    have others := @separator_plain (bytes "SANDBOX>/main.hell") (by decide) rest
    exact first.trans (congrArg (0x3c :: ·) others)

theorem separator_quotedMarker (rest : Bytes) :
    diagnosticPathSeparatorV1 (quotedMarker script ++ rest) = Piece.quoted.normal ++ diagnosticPathSeparatorV1 rest := by
  rw [quotedMarker_append, separator_plain (by decide), List.append_assoc, separator_marker, separator_plain (by decide), Piece.normal,
    List.append_assoc, List.append_assoc]

/-- What a marker has before the rest does not begin a span. -/
theorem not_span_of_windows {earlier after rest : Bytes} (split : WINDOWS = earlier ++ after) (nonempty : after ≠ []) :
    ¬SRC_SPAN <+: after ++ rest := by
  rintro ⟨more, span⟩
  have isTail : after ∈ WINDOWS.tails := by
    rw [List.mem_tails, split]
    exact List.suffix_append ..
  have second : ∀ tail ∈ WINDOWS.tails, tail.head? = some 0x53 → tail.tail.head? = some 0x41 := by decide
  cases after with
  | nil => exact nonempty rfl
  | cons first after =>
    have isFirst : first = 0x53 := (List.head_eq_of_cons_eq span).symm
    have isSecond := second _ isTail (congrArg some isFirst)
    cases after with
    | nil => cases isSecond
    | cons next after =>
      cases isSecond
      exact absurd (List.head_eq_of_cons_eq (List.tail_eq_of_cons_eq span)) (by decide)

theorem scrubSpans_windows (rest : Bytes) : scrubSpans script (WINDOWS ++ rest) = WINDOWS ++ scrubSpans script rest := by
  refine replaceAll_of_none fun earlier after split nonempty isSpan => @not_span_of_windows _ _ rest split nonempty ?_
  refine List.IsPrefix.trans ?_ isSpan
  rw [quotedScript, List.append_assoc]
  exact List.prefix_append ..

/-- A marker that is there after the spans are replaced was there before. -/
theorem windows_of_scrubSpans {text : Bytes} (isPrefix : WINDOWS <+: scrubSpans script text) : WINDOWS <+: text := by
  have behind : ∀ (tail earlier text : Bytes), WINDOWS = earlier ++ tail → tail <+: scrubSpans script text → tail <+: text := by
    intro tail
    induction tail with
    | nil => exact fun _ text _ _ => List.nil_prefix
    | cons byte tail ih =>
      intro earlier text split isPrefix
      by_cases isSpan : quotedScript script <+: text
      · obtain ⟨more, rfl⟩ := isSpan
        rw [scrubSpans, replaceAll_append quotedScript_ne_nil, quotedMarker_append] at isPrefix
        obtain ⟨rest, same⟩ := isPrefix
        refine absurd ?_ (@not_span_of_windows _ _ rest split (List.cons_ne_nil _ _))
        rw [same]
        exact List.prefix_append ..
      · cases text with
        | nil =>
          rw [scrubSpans, replaceAll_nil] at isPrefix
          exact isPrefix
        | cons byte' text =>
          rw [scrubSpans, replaceAll_cons isSpan] at isPrefix
          obtain ⟨rfl, others⟩ := List.cons_prefix_cons.mp isPrefix
          exact List.cons_prefix_cons.mpr ⟨rfl, ih (earlier ++ [byte]) text (by rw [split, List.append_assoc]; rfl) others⟩
  exact behind WINDOWS [] text rfl isPrefix

/-! ## Lines without a path -/

/-- Where no path is read, both passes make of the bytes what the pieces say. -/
theorem Reads.separator_scrubSpans {before rest : Bytes} {pieces : Pieces} (reads : Reads script program frame before rest pieces)
    (noPath : .path ∉ pieces) : diagnosticPathSeparatorV1 (scrubSpans script rest) = Pieces.normal pieces := by
  induction reads with
  | nil => rw [scrubSpans, replaceAll_nil, diagnosticPathSeparatorV1, replaceAll_nil, Pieces.normal, List.flatMap_nil]
  | kept none reads ih =>
    rename_i byte rest pieces
    have noSpan : ¬quotedScript script <+: byte :: rest := fun ⟨after, split⟩ => none .quoted after split.symm trivial
    have noMarker : ¬WINDOWS <+: byte :: rest := fun ⟨after, split⟩ => none .marker after split.symm trivial
    have scrubbed : scrubSpans script (byte :: rest) = byte :: scrubSpans script rest := replaceAll_cons noSpan
    have noMarker' : ¬WINDOWS <+: byte :: scrubSpans script rest := fun isMarker => noMarker (windows_of_scrubSpans (scrubbed ▸ isMarker))
    rw [scrubbed, diagnosticPathSeparatorV1, replaceAll_cons noMarker', Pieces.normal_cons, ← ih (fun member => noPath (List.mem_cons_of_mem _ member))]
    rfl
  | occurrence occurs reads ih =>
    rename_i piece after pieces
    have others := ih fun member => noPath (List.mem_cons_of_mem _ member)
    rw [Pieces.normal_cons, ← others]
    cases piece with
    | kept byte => exact occurs.elim
    | path => exact absurd (List.mem_cons_self ..) noPath
    | quoted =>
      rw [Piece.text, scrubSpans, replaceAll_append quotedScript_ne_nil]
      exact separator_quotedMarker _
    | marker =>
      rw [Piece.text, scrubSpans_windows]
      exact separator_windows _

/-! ## Lines with a path -/

theorem takeWhile_append_of_mem {separator : UInt8} {text : Bytes} (member : separator ∈ text) (rest : Bytes) :
    (text ++ rest).takeWhile (· != separator) = text.takeWhile (· != separator) := by
  induction text with
  | nil => cases member
  | cons byte text ih =>
    rw [List.cons_append, List.takeWhile_cons, List.takeWhile_cons]
    split_ifs with different
    · rcases List.mem_cons.mp member with rfl | others
      · exact absurd rfl (bne_iff_ne.mp different)
      · rw [ih others]
    · rfl

/-- Before the first separator there is one place for a path. -/
theorem ScriptPath.unique (path : ScriptPath platform script) {before before' rest rest' : Bytes} (free : platform.separator ∉ before)
    (free' : platform.separator ∉ before') (same : before ++ script ++ rest = before' ++ script ++ rest') : before = before' ∧ rest = rest' := by
  have first {before rest : Bytes} (free : platform.separator ∉ before) :
      (before ++ script ++ rest).takeWhile (· != platform.separator) = before ++ script.takeWhile (· != platform.separator) := by
    rw [List.append_assoc, List.takeWhile_append_of_pos, takeWhile_append_of_mem path.separator_mem]
    intro byte member
    refine bne_iff_ne.mpr fun equal => free ?_
    rwa [← equal]
  have equal := congrArg (List.takeWhile (· != platform.separator)) same
  rw [first free, first free'] at equal
  have equalBefore := List.append_cancel_right equal
  rw [equalBefore] at same
  exact ⟨equalBefore, List.append_cancel_left same⟩

theorem Occurs.free (name : ProgramName platform program) {before after : Bytes} (occurs : Occurs program frame before .path after) :
    platform.separator ∉ before := (occurs.1.mem name).1

theorem PathBefore.blank_mem (name : ProgramName platform program) {before earlier text : Bytes} (isBefore : PathBefore program frame before)
    (split : before = earlier ++ text) (nonempty : text ≠ []) : 0x20 ∈ text := by
  rcases (isBefore.mem name).2.2 with never | ⟨init, isInit⟩
  · rw [never] at split
    exact absurd (List.append_eq_nil_iff.mp split.symm).2 nonempty
  · rw [isInit] at split
    have last := congrArg List.getLast? split
    rw [List.getLast?_concat, List.getLast?_append_of_ne_nil _ nonempty] at last
    exact List.mem_of_getLast? last.symm

/-- A path that occurs is read. -/
theorem Reads.path_mem (path : ScriptPath platform script) (name : ProgramName platform program) {before suffix : Bytes}
    (isBefore : PathBefore program frame before) (ends : PathEnds suffix) :
    ∀ (pieces : Pieces) (earlier text rest : Bytes), Reads script program frame earlier rest pieces → before = earlier ++ text →
      rest = text ++ script ++ suffix → .path ∈ pieces := by
  intro pieces
  induction pieces with
  | nil =>
    intro earlier text rest reads _ split
    have nothing := reads.text_eq
    rw [nothing] at split
    exact absurd (List.append_eq_nil_iff.mp (List.append_eq_nil_iff.mp split.symm).1).2 path.ne_nil
  | cons piece pieces ih =>
    intro earlier text rest reads isEarlier split
    rcases reads.cases with ⟨-, never⟩ | ⟨byte, rest', others, isRest, same, none, reads⟩ | ⟨piece', after, others, isRest, same, occurs, reads⟩
    · cases never
    · cases same
      cases text with
      | nil =>
        rw [List.append_nil] at isEarlier
        rw [← isEarlier] at none
        exact absurd ⟨isBefore, ends⟩ (none .path suffix (by rw [split]; rfl))
      | cons first text =>
        rw [isRest] at split
        obtain ⟨rfl, isRest'⟩ := List.cons.inj split
        exact List.mem_cons_of_mem _ (ih (earlier ++ [byte]) text rest' reads (by rw [isEarlier, List.append_assoc]; rfl) isRest')
    · cases same
      rw [isRest] at split
      have apart : before ++ script = earlier ++ (text ++ script) := by rw [isEarlier, List.append_assoc]
      have nonempty : text ++ script ≠ [] := List.append_ne_nil_of_right_ne_nil _ path.ne_nil
      cases piece with
      | kept byte => exact occurs.elim
      | path => exact List.mem_cons_self ..
      | quoted => exact absurd ⟨after, split⟩ (no_quoted path name isBefore apart nonempty)
      | marker =>
        rw [List.append_assoc] at split
        rcases List.append_eq_append_iff.mp split with ⟨text', isText, isAfter⟩ | ⟨more, isMarker, isScript⟩
        · refine List.mem_cons_of_mem _ (ih (earlier ++ WINDOWS) text' after reads ?_ ?_)
          · rw [isEarlier, isText, List.append_assoc]
            rfl
          · rw [isAfter, List.append_assoc]
        · cases text with
          | nil => exact absurd (mem_of_append_eq path.ne_nil split.symm) path.noLess
          | cons byte text =>
            have blank := isBefore.blank_mem name isEarlier (List.cons_ne_nil _ _)
            have inMarker : (0x20 : UInt8) ∈ WINDOWS := by
              change WINDOWS = _ at isMarker
              rw [isMarker]
              exact List.mem_append_left _ blank
            exact absurd inMarker (by decide)

/-- A line with a path: what is before it, and behind it. -/
theorem Reads.path_split (path : ScriptPath platform script) (name : ProgramName platform program) {line : Bytes} {pieces : Pieces}
    (reads : Reads script program frame [] line pieces) (member : .path ∈ pieces) : ∃ earlier later : Pieces,
      pieces = earlier ++ .path :: later ∧ .path ∉ earlier ∧ .path ∉ later ∧
      line = Pieces.text script earlier ++ script ++ Pieces.text script later ∧
      Occurs program frame (Pieces.text script earlier) .path (Pieces.text script later) ∧
      Reads script program frame (Pieces.text script earlier ++ script) (Pieces.text script later) later := by
  obtain ⟨earlier, later, rfl, first⟩ := List.eq_append_cons_of_mem member
  have occursAt {before rest : Bytes} {others : Pieces} (reads : Reads script program frame before rest (.path :: others)) :
      Occurs program frame before .path (Pieces.text script others) ∧
        Reads script program frame (before ++ script) (Pieces.text script others) others := by
    rcases reads.cases with ⟨-, never⟩ | ⟨_, _, _, -, never, -⟩ | ⟨piece, after, _, -, same, occurs, reads⟩
    · cases never
    · cases never
    · cases same
      have isAfter := reads.text_eq
      subst isAfter
      exact ⟨occurs, reads⟩
  obtain ⟨occurs, others⟩ := occursAt reads.split
  refine ⟨earlier, later, rfl, first, fun second => ?_, ?_, occurs, others⟩
  · obtain ⟨between, rest, rfl⟩ := List.append_of_mem second
    obtain ⟨occurs', -⟩ := occursAt others.split
    refine Occurs.free name occurs' (List.mem_append_left _ (List.mem_append_right _ path.separator_mem))
  · rw [reads.text_eq, Pieces.text_append, Pieces.text_cons, List.append_assoc]
    rfl

theorem pathBehind_eq_some_iff {before line before' suffix : Bytes} : pathBehind before line script = some (before', suffix) ↔
    before' = before ∧ line = before ++ script ++ suffix ∧ diagnosticPathSuffix suffix := by
  simp only [pathBehind, Option.map_eq_some_iff, Option.filter_eq_some_iff, Option.bind_eq_some_iff, stripPrefix_eq_some_iff, Prod.mk.injEq]
  constructor
  · rintro ⟨suffix', ⟨⟨rest, rfl, rfl⟩, ends⟩, rfl, rfl⟩
    exact ⟨rfl, (List.append_assoc ..).symm, ends⟩
  · rintro ⟨rfl, rfl, ends⟩
    exact ⟨suffix, ⟨⟨script ++ suffix, List.append_assoc .., rfl⟩, ends⟩, rfl, rfl⟩

/-- What the loop finds in a line. -/
def recognise (script program : Bytes) (frame : ParseFrame) (line : Bytes) : Option (Bytes × Bytes) :=
  structuredDiagnosticPath line script program <|> if frame = .blank then separateOracleParsePath line script else none

theorem orElse_eq_some {α : Type} {first second : Option α} {value : α} (found : (first <|> second) = some value) :
    first = some value ∨ second = some value := by
  cases first with
  | none => exact .inr found
  | some other => exact .inl found

theorem orElse_isSome {α : Type} {first second : Option α} (found : first.isSome ∨ second.isSome) : (first <|> second).isSome := by
  cases first with
  | none => exact found.resolve_left nofun
  | some other => rfl

theorem recognise_sound {frame : ParseFrame} {line before suffix : Bytes} (found : recognise script program frame line = some (before, suffix)) :
    line = before ++ script ++ suffix ∧ PathBefore program (frame = .blank) before ∧ diagnosticPathSuffix suffix := by
  have behind {prefix_ : Bytes} (isFound : pathBehind prefix_ line script = some (before, suffix))
      (isPrefix : PathBefore program (frame = .blank) prefix_) :
      line = before ++ script ++ suffix ∧ PathBefore program (frame = .blank) before ∧ diagnosticPathSuffix suffix := by
    obtain ⟨rfl, split, ends⟩ := pathBehind_eq_some_iff.mp isFound
    exact ⟨split, isPrefix, ends⟩
  rcases orElse_eq_some found with structured | separate
  · rcases orElse_eq_some structured with alone | others
    · exact behind alone (.inl rfl)
    rcases orElse_eq_some others with helper | oracle
    · exact behind helper (.inr (.inl rfl))
    split_ifs at oracle with nonempty
    exact behind oracle (.inr (.inr (.inl ⟨nonempty, rfl⟩)))
  · split_ifs at separate with isFrame
    exact behind separate (.inr (.inr (.inr ⟨isFrame, rfl⟩)))

theorem recognise_complete (path : ScriptPath platform script) (name : ProgramName platform program) {frame : ParseFrame}
    {before suffix : Bytes} (isBefore : PathBefore program (frame = .blank) before) (ends : diagnosticPathSuffix suffix) :
    recognise script program frame (before ++ script ++ suffix) = some (before, suffix) := by
  have behind : (pathBehind before (before ++ script ++ suffix) script).isSome := by
    rw [pathBehind_eq_some_iff.mpr ⟨rfl, rfl, ends⟩]
    rfl
  have isSome : (recognise script program frame (before ++ script ++ suffix)).isSome := by
    rcases isBefore with rfl | rfl | ⟨nonempty, rfl⟩ | ⟨isFrame, rfl⟩
    · exact orElse_isSome (.inl (orElse_isSome (.inl behind)))
    · exact orElse_isSome (.inl (orElse_isSome (.inr (orElse_isSome (.inl behind)))))
    · refine orElse_isSome (.inl (orElse_isSome (.inr (orElse_isSome (.inr ?_)))))
      rwa [if_neg nonempty]
    · refine orElse_isSome (.inr ?_)
      rwa [if_pos isFrame]
  obtain ⟨⟨before', suffix'⟩, found⟩ := Option.isSome_iff_exists.mp isSome
  obtain ⟨split, isBefore', -⟩ := recognise_sound found
  obtain ⟨rfl, rfl⟩ := path.unique (isBefore.mem name).1 (isBefore'.mem name).1 split
  exact found

/-! ## Both passes on a line -/

/-- A line of the output of the loop. -/
def scrubLine (script program : Bytes) (frame : ParseFrame) (line : Bytes) : Bytes :=
  match recognise script program frame line with
  | some (before, suffix) => before ++ marker script ++ suffix
  | none => line

/-- A path in front of the end of a line. -/
def PathBreak (pieces : Pieces) : Prop := ∃ earlier : Pieces, ∃ lineEnd ∈ LINE_ENDS, pieces = earlier ++ .path :: lineEnd.map .kept

/-- The second pass takes what is before a path apart from what is behind. -/
theorem Reads.separator_before (path : ScriptPath platform script) (name : ProgramName platform program) {before after : Bytes} {later : Pieces}
    (isBefore : PathBefore program frame before) : ∀ (pieces : Pieces) (earlier rest : Bytes),
      Reads script program frame earlier rest (pieces ++ later) → .path ∉ pieces → before = earlier ++ Pieces.text script pieces →
      diagnosticPathSeparatorV1 (Pieces.text script pieces ++ after) = Pieces.normal pieces ++ diagnosticPathSeparatorV1 after := by
  intro pieces
  induction pieces with
  | nil => exact fun _ _ _ _ _ => rfl
  | cons piece pieces ih =>
    intro earlier rest reads noPath isEarlier
    have noPath' : .path ∉ pieces := fun member => noPath (List.mem_cons_of_mem _ member)
    have blank := isBefore.blank_mem name isEarlier (List.append_ne_nil_of_left_ne_nil (piece.text_ne_nil path) _)
    rw [Pieces.text_cons, ← List.append_assoc] at isEarlier
    rw [Pieces.text_cons, Pieces.normal_cons, List.append_assoc, List.append_assoc]
    rcases reads.cases with ⟨-, never⟩ | ⟨byte, rest', others, isRest, same, none, reads⟩ | ⟨piece', after', others, -, same, occurs, reads⟩
    · cases never
    · cases same
      have noMarker : ¬WINDOWS <+: byte :: (Pieces.text script pieces ++ after) := by
        intro isMarker
        rcases List.prefix_or_prefix_of_prefix isMarker (List.prefix_append (byte :: Pieces.text script pieces) after) with inside | outside
        · obtain ⟨more, same⟩ := inside
          refine none .marker (more ++ Pieces.text script later) ?_ trivial
          have isText : rest' = Pieces.text script (pieces ++ later) := reads.text_eq
          rw [isRest, isText, Pieces.text_append, ← List.append_assoc]
          exact congrArg (· ++ Pieces.text script later) same.symm
        · exact absurd (outside.subset blank) (by decide)
      rw [← ih (earlier ++ [byte]) rest' reads noPath' isEarlier]
      exact replaceAll_cons noMarker
    · cases same
      have others := ih _ after' reads noPath' isEarlier
      cases piece with
      | kept byte => exact occurs.elim
      | path => exact absurd (List.mem_cons_self ..) noPath
      | quoted =>
        refine absurd ?_ (isBefore.mem name).1
        rw [isEarlier]
        refine List.mem_append_left _ (List.mem_append_right _ (List.mem_append_left _ (List.mem_append_right _ ?_)))
        exact mem_haskellShowPath.mpr path.separator_mem
      | marker =>
        rw [← others]
        exact separator_windows _

theorem Reads.kept_of_notMem (path : ScriptPath platform script) {before rest : Bytes} {pieces : Pieces}
    (reads : Reads script program frame before rest pieces) (notMem : 0x6c ∉ rest) : pieces = rest.map .kept := by
  induction reads with
  | nil => rfl
  | kept none reads ih => rw [ih fun member => notMem (List.mem_cons_of_mem _ member), List.map_cons]
  | occurrence occurs reads ih =>
    rename_i before piece after pieces
    refine absurd (List.mem_append_left _ ?_) notMem
    obtain ⟨init, last⟩ := path.last
    cases piece with
    | kept byte => exact occurs.elim
    | path =>
      rw [Piece.text, last]
      exact List.mem_append_right _ (List.mem_singleton_self _)
    | quoted =>
      refine List.mem_append_left _ (List.mem_append_right _ (mem_haskellShowPath.mpr ?_))
      rw [last]
      exact List.mem_append_right _ (List.mem_singleton_self _)
    | marker => exact (by decide : (0x6c : UInt8) ∈ WINDOWS)

theorem lineEnd_plain {lineEnd : Bytes} (isEnd : lineEnd ∈ LINE_ENDS) : 0x6c ∉ lineEnd ∧ 0x3c ∉ lineEnd ∧ 0x53 ∉ lineEnd ∧ ¬diagnosticPathSuffix lineEnd := by
  rw [LINE_ENDS, List.mem_cons, List.mem_singleton] at isEnd
  rcases isEnd with rfl | rfl <;> decide

theorem scrubSpans_plain {text : Bytes} (noSpan : 0x53 ∉ text) : scrubSpans script text = text := by
  refine replaceAll_eq_self fun isSpan => noSpan ?_
  exact isSpan.mem (List.mem_cons_self ..)

theorem pathEnds_of_scrubSpans {suffix suffix' : Bytes} (scrubbed : scrubSpans script suffix' = suffix) (ends : diagnosticPathSuffix suffix) :
    PathEnds suffix' := by
  subst scrubbed
  by_cases isSpan : quotedScript script <+: suffix'
  · obtain ⟨more, rfl⟩ := isSpan
    rw [scrubSpans, replaceAll_append quotedScript_ne_nil] at ends
    cases ends
  · cases suffix' with
    | nil => exact .inl rfl
    | cons byte suffix =>
      rw [scrubSpans, replaceAll_cons isSpan, diagnosticPathSuffix, List.isEmpty_cons, Bool.false_or, List.head?_cons, beq_iff_eq] at ends
      exact .inr (.inl ends)

/-- Without a path in front of the end, both passes make of a line what its pieces say. -/
theorem Reads.line_normal (path : ScriptPath platform script) (name : ProgramName platform program) (quiet : Quiet program) {frame : ParseFrame}
    {line : Bytes} {pieces : Pieces} (reads : Reads script program (frame = .blank) [] line pieces) (unbroken : ¬PathBreak pieces) :
    diagnosticPathSeparatorV1 (scrubLine script program frame (scrubSpans script line)) = Pieces.normal pieces := by
  by_cases member : .path ∈ pieces
  · obtain ⟨earlier, later, rfl, first, only, isLine, occurs, others⟩ := reads.path_split path name member
    have ends : diagnosticPathSuffix (scrubSpans script (Pieces.text script later)) := by
      rcases occurs.2 with nothing | colon | broken
      · rw [nothing, scrubSpans, replaceAll_nil]
        rfl
      · cases isText : Pieces.text script later with
        | nil => rw [isText] at colon; cases colon
        | cons byte text =>
          rw [isText] at colon
          cases colon
          have other : ¬quotedScript script <+: 0x3a :: text := fun ⟨more, same⟩ => absurd (List.head_eq_of_cons_eq same) (by decide)
          rw [scrubSpans, replaceAll_cons other]
          rfl
      · refine absurd ⟨earlier, _, broken, ?_⟩ unbroken
        rw [← others.kept_of_notMem path (lineEnd_plain broken).1]
    have found := recognise_complete path name occurs.1 ends
    rw [isLine, scrubSpans_path path name occurs.1, scrubLine, found]
    dsimp only
    rw [List.append_assoc, Reads.separator_before path name occurs.1 earlier [] line reads first rfl, separator_marker,
      others.separator_scrubSpans only, Pieces.normal_append, Pieces.normal_cons]
    rfl
  · have nothing : recognise script program frame (scrubSpans script line) = none := by
      rcases found : recognise script program frame (scrubSpans script line) with _ | ⟨before, suffix⟩
      · rfl
      · obtain ⟨split, isBefore, ends⟩ := recognise_sound found
        obtain ⟨suffix', rfl, scrubbed⟩ := path_of_scrubSpans path name quiet isBefore split
        exact absurd (Reads.path_mem path name isBefore (pathEnds_of_scrubSpans scrubbed ends) pieces [] before _ reads rfl rfl) member
    rw [scrubLine, nothing]
    exact reads.separator_scrubSpans member

/-- A path in front of the end of a line stays. -/
theorem Reads.line_broken (path : ScriptPath platform script) (name : ProgramName platform program) {frame : ParseFrame}
    {line : Bytes} {pieces : Pieces} (reads : Reads script program (frame = .blank) [] line pieces) (broken : PathBreak pieces) :
    ∃ earlier : Pieces, ∃ lineEnd ∈ LINE_ENDS, pieces = earlier ++ .path :: lineEnd.map .kept ∧
      diagnosticPathSeparatorV1 (scrubLine script program frame (scrubSpans script line)) = Pieces.normal earlier ++ (script ++ lineEnd) := by
  obtain ⟨earlier', lineEnd, isEnd, isBroken⟩ := broken
  have member : .path ∈ pieces := by
    rw [isBroken]
    exact List.mem_append_right _ (List.mem_cons_self ..)
  obtain ⟨earlier, later, rfl, first, only, isLine, occurs, -⟩ := reads.path_split path name member
  have isLater : later = lineEnd.map .kept := by
    rcases List.append_eq_append_iff.mp isBroken with ⟨more, -, same⟩ | ⟨more, isEarlier, same⟩
    · cases more with
      | nil => exact List.tail_eq_of_cons_eq same
      | cons piece more =>
        refine absurd ?_ only
        rw [List.tail_eq_of_cons_eq same]
        exact List.mem_append_right _ (List.mem_cons_self ..)
    · cases more with
      | nil => exact (List.tail_eq_of_cons_eq same).symm
      | cons piece more =>
        cases List.head_eq_of_cons_eq same
        refine absurd ?_ first
        rw [isEarlier]
        exact List.mem_append_right _ (List.mem_cons_self ..)
  subst isLater
  obtain ⟨-, noMarker, noSpan, notEnds⟩ := lineEnd_plain isEnd
  rw [Pieces.text_kept] at isLine occurs
  refine ⟨earlier, lineEnd, isEnd, rfl, ?_⟩
  have nothing : recognise script program frame (Pieces.text script earlier ++ script ++ lineEnd) = none := by
    rcases found : recognise script program frame (Pieces.text script earlier ++ script ++ lineEnd) with _ | ⟨before, suffix⟩
    · rfl
    · obtain ⟨split, isBefore, ends⟩ := recognise_sound found
      obtain ⟨-, rfl⟩ := path.unique (occurs.1.mem name).1 (isBefore.mem name).1 split
      exact absurd ends notEnds
  rw [isLine, scrubSpans_path path name occurs.1, scrubSpans_plain noSpan, scrubLine, nothing]
  dsimp only
  rw [List.append_assoc, Reads.separator_before path name occurs.1 earlier [] line reads first rfl, separator_plain path.noLess]
  have kept := @separator_plain lineEnd noMarker []
  have nothing' : diagnosticPathSeparatorV1 [] = [] := replaceAll_nil
  rw [nothing', List.append_nil] at kept
  rw [kept]

end Line

end HellRs.Testkit.Diagnostics
