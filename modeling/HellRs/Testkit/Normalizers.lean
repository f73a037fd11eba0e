import HellRs.Testkit.Idempotence

/-! # The normalizers of diagnostics

The passes on a whole text are the passes on its lines. Where no path stands in front of a line break, the text that comes out has a marker
for each occurrence and nothing else changed, so a second run changes nothing, and the spelling of the path does not matter.
-/

namespace HellRs.Testkit.Diagnostics

open Replacing

section Text

variable {platform : Platform} {script program : Bytes}

/-! ## Frames -/

/-- What the lines before are, the last one first. -/
def frameOf (program : Bytes) : List Bytes → ParseFrame
  | [] => .outside
  | line :: before =>
    if exactOracleExceptionFrame line program then .exception
    else if frameOf program before = .exception ∧ diagnosticBlankLine line then .blank
    else .outside

theorem trimEnd_spec (byte : UInt8) (line : Bytes) : line = trimEnd byte line ∨ line = trimEnd byte line ++ [byte] := by
  rw [trimEnd]
  split_ifs with last
  · obtain ⟨init, rfl⟩ := List.getLast?_eq_some_iff.mp last
    rw [List.dropLast_concat]
    exact .inr rfl
  · exact .inl rfl

theorem exact_spec {line : Bytes} (exact_ : exactOracleExceptionFrame line program) :
    ∃ lineEnd, line = program ++ (EXCEPTION_SUFFIX ++ lineEnd) ∧ ∀ byte ∈ lineEnd, byte = newline ∨ byte = 0x0d := by
  rw [exactOracleExceptionFrame, Bool.and_eq_true, beq_iff_eq, stripPrefix_eq_some_iff] at exact_
  obtain ⟨-, split⟩ := exact_
  rcases trimEnd_spec newline line with outer | outer
  · rcases trimEnd_spec 0x0d (trimEnd newline line) with inner | inner
    · refine ⟨[], ?_, nofun⟩
      rw [outer, inner, split, List.append_nil]
    · refine ⟨[0x0d], ?_, fun byte member => .inr (List.mem_singleton.mp member)⟩
      rw [outer, inner, split, List.append_assoc]
  · rcases trimEnd_spec 0x0d (trimEnd newline line) with inner | inner
    · refine ⟨[newline], ?_, fun byte member => .inl (List.mem_singleton.mp member)⟩
      rw [outer, inner, split, List.append_assoc]
    · refine ⟨[0x0d, newline], ?_, fun byte member => ?_⟩
      · rw [outer, inner, split, List.append_assoc, List.append_assoc]
        rfl
      · rcases List.mem_cons.mp member with rfl | last
        · exact .inr rfl
        · exact .inl (List.mem_singleton.mp last)

theorem frameOf_eq_exception_iff {line : Bytes} {before : List Bytes} :
    frameOf program (line :: before) = .exception ↔ exactOracleExceptionFrame line program := by
  rw [frameOf]
  split_ifs with isExact blank
  · exact ⟨fun _ => isExact, fun _ => rfl⟩
  · exact ⟨nofun, fun isExact' => absurd isExact' isExact⟩
  · exact ⟨nofun, fun isExact' => absurd isExact' isExact⟩

theorem not_exact_of_blank {line : Bytes} (blank : diagnosticBlankLine line) : ¬exactOracleExceptionFrame line program := by
  intro isExact
  obtain ⟨lineEnd, rfl, -⟩ := exact_spec isExact
  have colon : (0x3a : UInt8) ∈ program ++ (EXCEPTION_SUFFIX ++ lineEnd) :=
    List.mem_append_right _ (List.mem_append_left _ (by decide))
  rw [diagnosticBlankLine, Bool.or_eq_true, beq_iff_eq, beq_iff_eq] at blank
  rcases blank with same | same
  · rw [same] at colon
    exact absurd colon (by decide)
  · rw [same] at colon
    exact absurd colon (by decide)

theorem frameOf_eq_blank_iff {before : List Bytes} : frameOf program before = .blank ↔ FrameBefore program before := by
  cases before with
  | nil => exact ⟨nofun, False.elim⟩
  | cons line before =>
    rw [frameOf]
    constructor
    · intro isBlank
      split_ifs at isBlank with isExact blank
      cases before with
      | nil => cases blank.1
      | cons exception before => exact ⟨frameOf_eq_exception_iff.mp blank.1, blank.2⟩
    · intro isFrame
      cases before with
      | nil => exact isFrame.elim
      | cons exception before =>
        obtain ⟨isException, blank⟩ := isFrame
        rw [if_neg (not_exact_of_blank blank), if_pos ⟨frameOf_eq_exception_iff.mpr isException, blank⟩]

/-- The frame is the same before and after the spans are replaced. -/
theorem exact_free (name : ProgramName platform program) {line : Bytes} (isExact : exactOracleExceptionFrame line program) :
    platform.separator ∉ line ∧ 0x2f ∉ line := by
  obtain ⟨lineEnd, rfl, ends⟩ := exact_spec isExact
  have others {byte : UInt8} (free : byte ∉ program) (free' : byte ∉ EXCEPTION_SUFFIX) (notEnd : byte ≠ newline ∧ byte ≠ 0x0d) :
      byte ∉ program ++ (EXCEPTION_SUFFIX ++ lineEnd) := by
    rw [List.mem_append, List.mem_append, not_or, not_or]
    exact ⟨free, free', fun member => (ends byte member).elim notEnd.1 notEnd.2⟩
  refine ⟨?_, others name.slash (by decide) (by decide)⟩
  cases platform with
  | posix => exact others name.slash (by decide) (by decide)
  | windows => exact others name.separator (by decide) (by decide)

theorem scrubSpans_of_free (path : ScriptPath platform script) {line : Bytes} (free : platform.separator ∉ line) : scrubSpans script line = line := by
  refine replaceAll_eq_self fun isSpan => free (isSpan.mem ?_)
  refine List.mem_append_left _ (List.mem_append_right _ ?_)
  exact mem_haskellShowPath.mpr path.separator_mem

theorem exact_scrubSpans (path : ScriptPath platform script) (name : ProgramName platform program) (quiet : Quiet program) {line : Bytes} :
    exactOracleExceptionFrame (scrubSpans script line) program ↔ exactOracleExceptionFrame line program := by
  constructor
  · intro isExact
    have unchanged : scrubSpans script line = line := by
      refine eq_of_replaceAll quotedScript_ne_nil fun isMarker => ?_
      change quotedMarker script <:+: scrubSpans script line at isMarker
      obtain ⟨lineEnd, split, ends⟩ := exact_spec isExact
      rw [split] at isMarker
      obtain ⟨earlier, later, same⟩ := isMarker
      have noSpan : (0x53 : UInt8) ∉ EXCEPTION_SUFFIX ++ lineEnd := by
        rw [List.mem_append, not_or]
        exact ⟨by decide, fun member => (ends _ member).elim (by decide) (by decide)⟩
      rw [List.append_assoc] at same
      rcases List.append_eq_append_iff.mp same with ⟨text, isProgram, isText⟩ | ⟨text, -, isText⟩
      · rcases List.append_eq_append_iff.mp isText with ⟨more, inside, -⟩ | ⟨more, isMarker, isEnd⟩
        · refine @not_quotedMarker_inside _ script _ name quiet ?_
          rw [isProgram, inside]
          exact ⟨earlier, more, (List.append_assoc ..)⟩
        · cases more with
          | nil =>
            refine @not_quotedMarker_inside _ script _ name quiet ?_
            rw [isProgram, isMarker, List.append_nil]
            exact (List.suffix_append ..).isInfix
          | cons byte more =>
            have isColon : byte = 0x3a := (List.head_eq_of_cons_eq isEnd).symm
            have colon : (0x3a : UInt8) ∈ quotedMarker script := by
              rw [isMarker, isColon]
              exact List.mem_append_right _ (List.mem_cons_self ..)
            refine absurd colon ?_
            rw [quotedMarker, marker]
            split_ifs <;> decide
      · refine absurd ?_ noSpan
        rw [isText]
        exact List.mem_append_right _ (List.mem_append_left _ (List.mem_cons_self ..))
    rwa [unchanged] at isExact
  · intro isExact
    rwa [scrubSpans_of_free path (exact_free name isExact).1]

theorem blank_scrubSpans {line : Bytes} : diagnosticBlankLine (scrubSpans script line) ↔ diagnosticBlankLine line := by
  have noSpan {text : Bytes} (blank : diagnosticBlankLine text) : (0x53 : UInt8) ∉ text := by
    rw [diagnosticBlankLine, Bool.or_eq_true, beq_iff_eq, beq_iff_eq] at blank
    rcases blank with rfl | rfl <;> decide
  constructor
  · intro blank
    have unchanged : scrubSpans script line = line := by
      refine eq_of_replaceAll quotedScript_ne_nil fun isMarker => noSpan blank (isMarker.mem ?_)
      exact List.mem_cons_self ..
    rwa [unchanged] at blank
  · intro blank
    rwa [scrubSpans_plain (noSpan blank)]

/-! ## Lines of a text -/

theorem quoted_noNewline (path : ScriptPath platform script) : newline ∉ quotedScript script := by
  rw [quotedScript, List.mem_append, List.mem_append, mem_haskellShowPath, not_or, not_or]
  exact ⟨⟨by decide, path.noNewline⟩, by decide⟩

theorem quotedMarker_noNewline : newline ∉ quotedMarker script := by
  rw [quotedMarker, marker]
  split_ifs <;> decide

theorem mem_replaceAll {input found put : Bytes} {byte : UInt8} (nonempty : found ≠ []) (member : byte ∈ replaceAll input found put) :
    byte ∈ input ∨ byte ∈ put := by
  induction input using replaceAll_induction nonempty with
  | nil =>
    rw [replaceAll_nil] at member
    cases member
  | occurrence rest ih =>
    rw [replaceAll_append nonempty, List.mem_append] at member
    rcases member with inside | later
    · exact .inr inside
    · exact (ih later).imp_left (List.mem_append_right _)
  | item item rest other ih =>
    rw [replaceAll_cons other, List.mem_cons] at member
    rcases member with rfl | later
    · exact .inl (List.mem_cons_self ..)
    · exact (ih later).imp_left (List.mem_cons_of_mem _)

theorem scrubSpans_nil : scrubSpans script [] = [] := replaceAll_nil

theorem scrubSpans_noNewline {text : Bytes} (notMem : newline ∉ text) : newline ∉ scrubSpans script text := fun member =>
  (mem_replaceAll quotedScript_ne_nil member).elim notMem quotedMarker_noNewline

theorem scrubSpans_newline (path : ScriptPath platform script) (body rest : Bytes) :
    scrubSpans script (body ++ newline :: rest) = scrubSpans script body ++ newline :: scrubSpans script rest :=
  replaceAll_apart_of_notMem quotedScript_ne_nil (quoted_noNewline path) body rest

theorem scrubSpans_ne_nil {text : Bytes} (nonempty : text ≠ []) : scrubSpans script text ≠ [] := by
  by_cases isSpan : quotedScript script <+: text
  · obtain ⟨more, rfl⟩ := isSpan
    rw [scrubSpans, replaceAll_append quotedScript_ne_nil]
    exact List.cons_ne_nil _ _
  · cases text with
    | nil => exact absurd rfl nonempty
    | cons byte text =>
      rw [scrubSpans, replaceAll_cons isSpan]
      exact List.cons_ne_nil _ _

theorem splitInclusive_scrubSpans (path : ScriptPath platform script) (stderr : Bytes) :
    splitInclusive newline (scrubSpans script stderr) = (splitInclusive newline stderr).map (scrubSpans script) := by
  induction length : stderr.length using Nat.strong_induction_on generalizing stderr with
  | _ _ ih =>
    subst length
    by_cases ends : newline ∈ stderr
    · obtain ⟨body, rest, rfl, notMem⟩ := List.eq_append_cons_of_mem ends
      have shorter : rest.length < (body ++ newline :: rest).length := by
        rw [List.length_append, List.length_cons]
        omega
      rw [scrubSpans_newline path, splitInclusive_body (scrubSpans_noNewline notMem), splitInclusive_body notMem, ih _ shorter rest rfl, List.map_cons,
        scrubSpans_newline path, scrubSpans_nil]
    · cases stderr with
      | nil =>
        rw [scrubSpans, replaceAll_nil]
        rfl
      | cons byte stderr =>
        have some_ : byte :: stderr ≠ [] := List.cons_ne_nil _ _
        rw [splitInclusive_last (scrubSpans_ne_nil some_) (scrubSpans_noNewline ends), splitInclusive_last some_ ends]
        rfl

/-- What both passes make of lines, behind the lines before. -/
def outputs (script program : Bytes) : List Bytes → List Bytes → List Bytes
  | _, [] => []
  | before, line :: lines =>
    diagnosticPathSeparatorV1 (scrubLine script program (frameOf program before) (scrubSpans script line)) ::
      outputs script program (line :: before) lines

theorem scrubLines_cons (frame : ParseFrame) (line : Bytes) (lines : List Bytes) : scrubLines script program frame (line :: lines) =
    scrubLine script program frame line ++ scrubLines script program
      (if (recognise script program frame line).isSome then .outside
      else if exactOracleExceptionFrame line program then .exception
      else if frame = .exception ∧ diagnosticBlankLine line then .blank
      else .outside) lines := by
  rw [scrubLines, scrubLine, recognise]
  cases structuredDiagnosticPath line script program with
  | some found => rfl
  | none =>
    cases separate : (if frame = .blank then separateOracleParsePath line script else none) with
    | some found => rfl
    | none => rfl

theorem separator_of_recognise (path : ScriptPath platform script) (name : ProgramName platform program) (quiet : Quiet program)
    {frame : ParseFrame} {line : Bytes} (found : (recognise script program frame (scrubSpans script line)).isSome) :
    platform.separator ∈ line := by
  obtain ⟨⟨before', suffix⟩, found⟩ := Option.isSome_iff_exists.mp found
  obtain ⟨split, isBefore, -⟩ := recognise_sound found
  obtain ⟨suffix', rfl, -⟩ := path_of_scrubSpans path name quiet isBefore split
  exact List.mem_append_left _ (List.mem_append_right _ path.separator_mem)

theorem blank_free {line : Bytes} (blank : diagnosticBlankLine line) : platform.separator ∉ line := by
  rw [diagnosticBlankLine, Bool.or_eq_true, beq_iff_eq, beq_iff_eq] at blank
  rcases blank with rfl | rfl
  · cases platform <;> decide
  · cases platform <;> decide

theorem frameOf_cons (path : ScriptPath platform script) (name : ProgramName platform program) (quiet : Quiet program) (line : Bytes)
    (before : List Bytes) :
    (if (recognise script program (frameOf program before) (scrubSpans script line)).isSome then ParseFrame.outside
      else if exactOracleExceptionFrame (scrubSpans script line) program then .exception
      else if frameOf program before = .exception ∧ diagnosticBlankLine (scrubSpans script line) then .blank
      else .outside) = frameOf program (line :: before) := by
  rw [frameOf]
  simp only [exact_scrubSpans path name quiet, blank_scrubSpans]
  split_ifs with found isExact blank
  · exact absurd (separator_of_recognise path name quiet found) (exact_free name isExact).1
  · exact absurd (separator_of_recognise path name quiet found) (blank_free blank.2)
  all_goals rfl

/-- A line that is ended has an output that is ended. -/
theorem scrubLine_newline (path : ScriptPath platform script) (frame : ParseFrame) (body : Bytes) :
    ∃ body', scrubLine script program frame (body ++ [newline]) = body' ++ [newline] := by
  rw [scrubLine]
  rcases found : recognise script program frame (body ++ [newline]) with _ | ⟨before, suffix⟩
  · exact ⟨body, rfl⟩
  · obtain ⟨split, -⟩ := recognise_sound found
    have last := congrArg List.getLast? split
    cases suffix with
    | nil =>
      obtain ⟨init, isScript⟩ := path.last
      rw [List.append_nil, isScript, ← List.append_assoc, List.getLast?_concat, List.getLast?_concat] at last
      exact absurd last (by decide)
    | cons byte suffix =>
      rw [List.getLast?_concat, List.getLast?_append_of_ne_nil _ (List.cons_ne_nil _ _)] at last
      obtain ⟨init, isSuffix⟩ := List.getLast?_eq_some_iff.mp last.symm
      refine ⟨before ++ marker script ++ init, ?_⟩
      dsimp only
      rw [isSuffix, List.append_assoc _ init]

theorem separator_scrubLines (path : ScriptPath platform script) (name : ProgramName platform program) (quiet : Quiet program) :
    ∀ (lines before : List Bytes), AreLines newline lines →
      diagnosticPathSeparatorV1 (scrubLines script program (frameOf program before) (lines.map (scrubSpans script))) =
        (outputs script program before lines).flatten := by
  intro lines
  induction lines with
  | nil => exact fun _ _ => replaceAll_nil
  | cons line lines ih =>
    intro before areLines
    rw [List.map_cons, scrubLines_cons, frameOf_cons path name quiet, outputs, List.flatten_cons]
    have ended {body : Bytes} (isLine : line = body ++ [newline]) (rest : AreLines newline lines) :
        diagnosticPathSeparatorV1 (scrubLine script program (frameOf program before) (scrubSpans script line) ++
          scrubLines script program (frameOf program (line :: before)) (lines.map (scrubSpans script))) =
        diagnosticPathSeparatorV1 (scrubLine script program (frameOf program before) (scrubSpans script line)) ++
          (outputs script program (line :: before) lines).flatten := by
      have scrubbed := scrubSpans_newline path body []
      rw [scrubSpans_nil] at scrubbed
      obtain ⟨body', isOutput⟩ := @scrubLine_newline _ _ program path (frameOf program before) (scrubSpans script body)
      rw [← ih (line :: before) rest, isLine, scrubbed, isOutput]
      have apart (rest : Bytes) : diagnosticPathSeparatorV1 (body' ++ newline :: rest) =
          diagnosticPathSeparatorV1 body' ++ newline :: diagnosticPathSeparatorV1 rest :=
        replaceAll_apart_of_notMem (List.cons_ne_nil _ _) (by decide) body' rest
      have nothing : diagnosticPathSeparatorV1 [] = [] := replaceAll_nil
      rw [List.append_assoc, List.singleton_append, apart, apart, nothing, List.append_assoc, List.singleton_append]
    cases lines with
    | nil =>
      rcases areLines with ⟨body, -, isLine⟩ | -
      · exact ended isLine trivial
      · rw [List.map_nil, scrubLines, List.append_nil, outputs, List.flatten_nil, List.append_nil]
    | cons next lines =>
      obtain ⟨⟨body, -, isLine⟩, rest⟩ := areLines
      exact ended isLine rest

/-- The normalizers work on lines. -/
theorem normalize_eq (path : ScriptPath platform script) (name : ProgramName platform program) (quiet : Quiet program) (stderr : Bytes) :
    normalize stderr script program = (outputs script program [] (splitInclusive newline stderr)).flatten := by
  rw [normalize, scrubDiagnosticPathBytes]
  have lines := splitInclusive_scrubSpans path stderr
  rw [scrubSpans] at lines
  rw [lines]
  exact separator_scrubLines path name quiet _ [] (areLines_splitInclusive newline stderr)

/-! ## Readings of a text -/

theorem readsLines_total (path : ScriptPath platform script) :
    ∀ lines before : List Bytes, ∃ pieces, ReadsLines script program before lines pieces := by
  intro lines
  induction lines with
  | nil => exact fun _ => ⟨[], trivial⟩
  | cons line lines ih =>
    intro before
    obtain ⟨pieces, reads⟩ := @reads_total _ _ program (FrameBefore program before) path [] line
    obtain ⟨others, readsOthers⟩ := ih (line :: before)
    exact ⟨pieces :: others, reads, readsOthers⟩

theorem ReadsLines.unique (path : ScriptPath platform script) : ∀ (lines before : List Bytes) (pieces pieces' : List Pieces),
    ReadsLines script program before lines pieces → ReadsLines script program before lines pieces' → pieces = pieces' := by
  intro lines
  induction lines with
  | nil =>
    intro before pieces pieces' reads reads'
    cases pieces with
    | nil =>
      cases pieces' with
      | nil => rfl
      | cons => exact reads'.elim
    | cons => exact reads.elim
  | cons line lines ih =>
    intro before pieces pieces' reads reads'
    cases pieces with
    | nil => exact reads.elim
    | cons first pieces =>
      cases pieces' with
      | nil => exact reads'.elim
      | cons first' pieces' => rw [reads.1.unique path reads'.1, ih _ _ _ reads.2 reads'.2]

theorem outputs_normal (path : ScriptPath platform script) (name : ProgramName platform program) (quiet : Quiet program) :
    ∀ (lines before : List Bytes) (pieces : List Pieces), ReadsLines script program before lines pieces → (∀ line ∈ pieces, ¬PathBreak line) →
      outputs script program before lines = pieces.map Pieces.normal := by
  intro lines
  induction lines with
  | nil =>
    intro before pieces reads _
    cases pieces with
    | nil => rfl
    | cons => exact reads.elim
  | cons line lines ih =>
    intro before pieces reads unbroken
    cases pieces with
    | nil => exact reads.elim
    | cons first pieces =>
      obtain ⟨readsFirst, readsOthers⟩ := reads
      rw [← frameOf_eq_blank_iff] at readsFirst
      rw [outputs, readsFirst.line_normal path name quiet (unbroken first (List.mem_cons_self ..)),
        ih _ pieces readsOthers fun other member => unbroken other (List.mem_cons_of_mem _ member)]
      rfl

/-- A path that stays in front of a line break shows. -/
theorem outputs_broken (path : ScriptPath platform script) (name : ProgramName platform program) (quiet : Quiet program) :
    ∀ (lines before : List Bytes) (pieces : List Pieces), ReadsLines script program before lines pieces → (∃ line ∈ pieces, PathBreak line) →
      (outputs script program before lines).flatten ≠ (pieces.map Pieces.normal).flatten := by
  intro lines
  induction lines with
  | nil =>
    rintro before pieces reads ⟨line, member, -⟩
    cases pieces with
    | nil => cases member
    | cons => exact reads.elim
  | cons line lines ih =>
    rintro before pieces reads ⟨broken, member, isBroken⟩ same
    cases pieces with
    | nil => cases member
    | cons first pieces =>
      obtain ⟨readsFirst, readsOthers⟩ := reads
      rw [← frameOf_eq_blank_iff] at readsFirst
      rw [outputs, List.map_cons, List.flatten_cons, List.flatten_cons] at same
      by_cases firstBroken : PathBreak first
      · obtain ⟨earlier, lineEnd, -, rfl, isOutput⟩ := readsFirst.line_broken path name firstBroken
        rw [isOutput, Pieces.normal_append, Pieces.normal_cons, List.append_assoc, List.append_assoc, List.append_assoc] at same
        exact path.noLess (mem_of_append_eq path.ne_nil (List.append_cancel_left same))
      · rw [readsFirst.line_normal path name quiet firstBroken] at same
        refine ih _ pieces readsOthers ⟨broken, ?_, isBroken⟩ (List.append_cancel_left same)
        rcases List.mem_cons.mp member with rfl | others
        · exact absurd isBroken firstBroken
        · exact others

/-- The normalizers put a marker for each occurrence, and change nothing else, if and only if no path stands in front of a line break. -/
theorem normalize_eq_normal_iff (path : ScriptPath platform script) (name : ProgramName platform program) (quiet : Quiet program)
    {stderr : Bytes} {pieces : List Pieces} (reads : ReadsText script program stderr pieces) :
    normalize stderr script program = (pieces.map Pieces.normal).flatten ↔ ∀ line ∈ pieces, ¬PathBreak line := by
  rw [normalize_eq path name quiet]
  constructor
  · intro same line member isBroken
    exact outputs_broken path name quiet _ [] pieces reads ⟨line, member, isBroken⟩ same
  · intro unbroken
    rw [outputs_normal path name quiet _ [] pieces reads unbroken]

/-! ## A second run -/

theorem mem_normal {pieces : Pieces} {byte : UInt8} (member : byte ∈ Pieces.normal pieces) :
    byte ∈ Pieces.text script pieces ∨ byte ∈ SRC_SPAN ++ PORTABLE ++ [0x22] := by
  obtain ⟨piece, isPiece, isByte⟩ := List.mem_flatMap.mp member
  cases piece with
  | kept other => exact .inl (List.mem_flatMap.mpr ⟨_, isPiece, isByte⟩)
  | path => exact .inr (List.mem_append_left _ (List.mem_append_right _ isByte))
  | quoted => exact .inr isByte
  | marker => exact .inr (List.mem_append_left _ (List.mem_append_right _ isByte))

theorem normal_noNewline {pieces : Pieces} (notMem : newline ∉ Pieces.text script pieces) : newline ∉ Pieces.normal pieces := fun member =>
  (mem_normal member).elim notMem fun inMarker => absurd inMarker (by decide)

theorem normal_ended (path : ScriptPath platform script) {pieces : Pieces} {body : Bytes} (notMem : newline ∉ body)
    (isText : Pieces.text script pieces = body ++ [newline]) : ∃ body', newline ∉ body' ∧ Pieces.normal pieces = body' ++ [newline] := by
  rcases List.eq_nil_or_concat pieces with rfl | ⟨earlier, piece, rfl⟩
  · exact absurd (List.append_eq_nil_iff.mp isText.symm).2 (List.cons_ne_nil _ _)
  have last : piece = .kept newline := by
    have lasts := congrArg List.getLast? isText
    have single : Pieces.text script [piece] = piece.text script := List.flatMap_singleton ..
    rw [List.concat_eq_append, Pieces.text_append, single, List.getLast?_append_of_ne_nil _ (piece.text_ne_nil path),
      List.getLast?_concat] at lasts
    cases piece with
    | kept byte =>
      cases lasts
      rfl
    | path => exact absurd (List.mem_of_getLast? lasts) path.noNewline
    | quoted => exact absurd (List.mem_of_getLast? lasts) (quoted_noNewline path)
    | marker =>
      have noNewline : newline ∉ WINDOWS := by decide
      exact absurd (List.mem_of_getLast? lasts) noNewline
  subst last
  rw [List.concat_eq_append, Pieces.text_append] at isText
  have isBody : Pieces.text script earlier = body := List.append_cancel_right isText
  refine ⟨Pieces.normal earlier, normal_noNewline (isBody ▸ notMem), ?_⟩
  rw [List.concat_eq_append, Pieces.normal_append]
  rfl

theorem areLines_normal (path : ScriptPath platform script) : ∀ (lines before : List Bytes) (pieces : List Pieces),
    ReadsLines script program before lines pieces → AreLines newline lines → AreLines newline (pieces.map Pieces.normal) := by
  intro lines
  induction lines with
  | nil =>
    intro before pieces reads _
    cases pieces with
    | nil => trivial
    | cons => exact reads.elim
  | cons line lines ih =>
    intro before pieces reads areLines
    cases pieces with
    | nil => exact reads.elim
    | cons first pieces =>
      obtain ⟨readsFirst, readsOthers⟩ := reads
      have isText := readsFirst.text_eq
      cases lines with
      | nil =>
        cases pieces with
        | cons => exact readsOthers.elim
        | nil =>
          rcases areLines with ⟨body, notMem, isLine⟩ | ⟨nonempty, notMem⟩
          · obtain ⟨body', notMem', isNormal⟩ := normal_ended path notMem (isText.symm.trans isLine)
            exact .inl ⟨body', notMem', isNormal⟩
          · refine .inr ⟨?_, normal_noNewline (isText ▸ notMem)⟩
            cases first with
            | nil => exact absurd isText nonempty
            | cons piece first => exact List.append_ne_nil_of_left_ne_nil piece.normal_ne_nil _
      | cons next lines =>
        obtain ⟨⟨body, notMem, isLine⟩, rest⟩ := areLines
        obtain ⟨body', notMem', isNormal⟩ := normal_ended path notMem (isText.symm.trans isLine)
        have others := ih (line :: before) pieces readsOthers rest
        cases pieces with
        | nil => exact readsOthers.elim
        | cons second pieces => exact ⟨⟨body', notMem', isNormal⟩, others⟩

/-- A frame in a normal text was a frame before. -/
theorem FrameBefore.of_normal (name : ProgramName platform program) {before : List Pieces} (isFrame : FrameBefore program (before.map Pieces.normal)) :
    FrameBefore program (before.map (Pieces.text script)) := by
  have same {pieces : Pieces} (free : 0x2f ∉ Pieces.normal pieces) : Pieces.text script pieces = Pieces.normal pieces := by
    rw [kept_of_normal (by decide) free, Pieces.text_kept, Pieces.normal_kept]
  match before, isFrame with
  | blank :: exception :: _, ⟨isException, isBlank⟩ =>
    refine ⟨?_, ?_⟩
    · rwa [same (exact_free name isException).2]
    · rwa [same (@blank_free .posix _ isBlank)]

theorem readsLines_normal (path : ScriptPath platform script) (name : ProgramName platform program) :
    ∀ (lines : List Bytes) (before pieces : List Pieces), ReadsLines script program (before.map (Pieces.text script)) lines pieces →
      ReadsLines script program (before.map Pieces.normal) (pieces.map Pieces.normal) (pieces.map fun line => (Pieces.normal line).map .kept) := by
  intro lines
  induction lines with
  | nil =>
    intro before pieces reads
    cases pieces with
    | nil => trivial
    | cons => exact reads.elim
  | cons line lines ih =>
    intro before pieces reads
    cases pieces with
    | nil => exact reads.elim
    | cons first pieces =>
      obtain ⟨readsFirst, readsOthers⟩ := reads
      refine ⟨readsFirst.normal path name (FrameBefore.of_normal name), ?_⟩
      rw [readsFirst.text_eq] at readsOthers
      exact ih (first :: before) pieces readsOthers

theorem not_pathBreak_kept (text : Bytes) : ¬PathBreak (text.map .kept) := by
  rintro ⟨earlier, lineEnd, -, same⟩
  have member : Piece.path ∈ text.map Piece.kept := by
    rw [same]
    exact List.mem_append_right _ (List.mem_cons_self ..)
  obtain ⟨byte, -, never⟩ := List.mem_map.mp member
  cases never

/-- A second run changes nothing. -/
theorem normalize_normal (path : ScriptPath platform script) (name : ProgramName platform program) (quiet : Quiet program)
    {stderr : Bytes} {pieces : List Pieces} (reads : ReadsText script program stderr pieces) :
    normalize (pieces.map Pieces.normal).flatten script program = (pieces.map Pieces.normal).flatten := by
  have isText : ReadsText script program (pieces.map Pieces.normal).flatten (pieces.map fun line => (Pieces.normal line).map .kept) := by
    rw [ReadsText, splitInclusive_flatten (areLines_normal path _ [] pieces reads (areLines_splitInclusive newline stderr))]
    exact readsLines_normal path name _ [] pieces reads
  rw [(normalize_eq_normal_iff path name quiet isText).mpr ?_]
  · rw [List.map_map]
    exact congrArg List.flatten (List.map_congr_left fun line _ => Pieces.normal_kept (Pieces.normal line))
  · intro line member
    obtain ⟨pieces', -, rfl⟩ := List.mem_map.mp member
    exact not_pathBreak_kept _

end Text

/-! ## What the normalizers are for -/

/-- A second run changes nothing, each occurrence has a marker in its place and nothing else is changed, and a text that is the same but for
the spelling of the path gives the same result. -/
def Normalizes (script program stderr : Bytes) : Prop :=
  normalize (normalize stderr script program) script program = normalize stderr script program ∧
  (∃ pieces, ReadsText script program stderr pieces ∧ normalize stderr script program = (pieces.map Pieces.normal).flatten) ∧
  ∀ (platform : Platform) (script' stderr' : Bytes) (pieces : List Pieces), ScriptPath platform script' → ProgramName platform program →
    ReadsText script program stderr pieces → ReadsText script' program stderr' pieces →
      normalize stderr' script' program = normalize stderr script program

section Normalizes

variable {platform : Platform} {script program : Bytes}

theorem normalizes_of_reads (path : ScriptPath platform script) (name : ProgramName platform program) (quiet : Quiet program) {stderr : Bytes}
    {pieces : List Pieces} (reads : ReadsText script program stderr pieces) :
    Normalizes script program stderr ↔ ∀ line ∈ pieces, ¬PathBreak line := by
  constructor
  · rintro ⟨-, ⟨pieces', reads', isNormal⟩, -⟩
    rw [ReadsLines.unique path _ [] pieces pieces' reads reads']
    exact (normalize_eq_normal_iff path name quiet reads').mp isNormal
  · intro unbroken
    have isNormal := (normalize_eq_normal_iff path name quiet reads).mpr unbroken
    refine ⟨?_, ⟨pieces, reads, isNormal⟩, ?_⟩
    · rw [isNormal, normalize_normal path name quiet reads]
    · intro platform' script' stderr' pieces' path' name' reads' other
      rw [ReadsLines.unique path _ [] pieces' pieces reads' reads] at other
      rw [isNormal]
      exact (normalize_eq_normal_iff path' name' quiet other).mpr unbroken

/-- The path of a script in a sandbox. -/
def SCRIPT : Bytes := bytes "/s/main.hell"

theorem script_path : ScriptPath .posix SCRIPT := by
  refine ⟨rfl, ⟨bytes "/s", rfl⟩, ?_⟩
  have plain : (bytes "\"\n\r<").all (fun byte => decide (byte ∉ SCRIPT)) = true := by decide
  exact fun byte member => of_decide_eq_true (List.all_eq_true.mp plain byte member)

def PROGRAM : Bytes := bytes "hell"

theorem program_name : ProgramName .posix PROGRAM := by
  intro byte member
  cases List.mem_singleton.mp member
  decide

theorem program_quiet : Quiet PROGRAM := by
  intro inside
  exact absurd inside.length_le (by decide)

end Normalizes

end HellRs.Testkit.Diagnostics
