import HellRs.Testkit.Diagnostics

/-! # Occurrences of the path

What a diagnostic has of the path of the script is told apart from the rest of its text, line by line. A path is read only where a line
has it by itself, behind a known prefix or in a quoted span, so the pieces of a line are what the two passes may change.
-/

namespace HellRs.Testkit.Diagnostics

open Replacing

/-! ## Paths -/

inductive Platform where
  | posix
  | windows
deriving DecidableEq, Repr

namespace Platform

def separator : Platform → UInt8
  | posix => 0x2f
  | windows => 0x5c

/-- The bytes that no file name has. -/
def reserved : Platform → Bytes
  | posix => bytes "/"
  | windows => bytes "<>:\"/\\|?*"

def Absolute : Platform → Bytes → Prop
  | posix, path => path.head? = some 0x2f
  | windows, path => (∃ drive rest, path = drive :: 0x3a :: 0x5c :: rest) ∨ ∃ rest, path = 0x5c :: 0x5c :: rest

end Platform

def SCRIPT_NAME : Bytes := bytes "main.hell"

/-- The path of the script as the harness makes it, without quotes, line breaks and what begins a marker. -/
structure ScriptPath (platform : Platform) (script : Bytes) : Prop where
  absolute : platform.Absolute script
  joined : ∃ sandbox, script = sandbox ++ platform.separator :: SCRIPT_NAME
  plain : ∀ byte ∈ bytes "\"\n\r<", byte ∉ script

/-- The file name of a program. -/
def ProgramName (platform : Platform) (program : Bytes) : Prop := ∀ byte ∈ platform.reserved, byte ∉ program

/-! ## Pieces -/

inductive Piece where
  | kept (byte : UInt8)
  | path
  | quoted
  | marker
deriving DecidableEq, Repr

/-- What the piece is in a text. -/
def Piece.text (script : Bytes) : Piece → Bytes
  | kept byte => [byte]
  | path => script
  | quoted => quotedScript script
  | marker => WINDOWS

/-- What takes its place. -/
def Piece.normal : Piece → Bytes
  | kept byte => [byte]
  | path => PORTABLE
  | quoted => SRC_SPAN ++ PORTABLE ++ [0x22]
  | marker => PORTABLE

abbrev Pieces := List Piece

def Pieces.text (script : Bytes) (pieces : Pieces) : Bytes := pieces.flatMap (Piece.text script)

def Pieces.normal (pieces : Pieces) : Bytes := pieces.flatMap Piece.normal

/-- The ends of lines. -/
def LINE_ENDS : List Bytes := [[newline], [0x0d, newline]]

/-- What a line has before a path. The last is the second line of a frame. -/
def PathBefore (program : Bytes) (frame : Prop) (before : Bytes) : Prop :=
  before = [] ∨ before = HELPER_PREFIX ∨ (program ≠ [] ∧ before = program ++ ORACLE_PARSE_MARKER) ∨ (frame ∧ before = PARSE_PREFIX)

/-- The path ends there: at a colon, or with the line. -/
def PathEnds (after : Bytes) : Prop := after = [] ∨ after.head? = some 0x3a ∨ after ∈ LINE_ENDS

/-- The piece is an occurrence, between what the line has before and behind it. -/
def Occurs (program : Bytes) (frame : Prop) (before : Bytes) (piece : Piece) (after : Bytes) : Prop :=
  match piece with
  | .kept _ => False
  | .path => PathBefore program frame before ∧ PathEnds after
  | .quoted | .marker => True

/-- The pieces of a line from some place on. An occurrence is never passed over. -/
inductive Reads (script program : Bytes) (frame : Prop) : Bytes → Bytes → Pieces → Prop where
  | nil (before : Bytes) : Reads script program frame before [] []
  | kept {before : Bytes} {byte : UInt8} {rest : Bytes} {pieces : Pieces}
      (none : ∀ piece after, byte :: rest = piece.text script ++ after → ¬Occurs program frame before piece after)
      (reads : Reads script program frame (before ++ [byte]) rest pieces) : Reads script program frame before (byte :: rest) (.kept byte :: pieces)
  | occurrence {before : Bytes} {piece : Piece} {after : Bytes} {pieces : Pieces} (occurs : Occurs program frame before piece after)
      (reads : Reads script program frame (before ++ piece.text script) after pieces) :
      Reads script program frame before (piece.text script ++ after) (piece :: pieces)

/-- The two lines before, the last one first, are the frame that the oracle puts around a parse error. -/
def FrameBefore (program : Bytes) : List Bytes → Prop
  | blank :: exception :: _ => exactOracleExceptionFrame exception program ∧ diagnosticBlankLine blank
  | _ => False

/-- The pieces of lines, behind the lines before. -/
def ReadsLines (script program : Bytes) : List Bytes → List Bytes → List Pieces → Prop
  | _, [], [] => True
  | before, line :: lines, pieces :: others =>
    Reads script program (FrameBefore program before) [] line pieces ∧ ReadsLines script program (line :: before) lines others
  | _, _, _ => False

def ReadsText (script program stderr : Bytes) (pieces : List Pieces) : Prop :=
  ReadsLines script program [] (splitInclusive newline stderr) pieces

/-! ## Bytes -/

section Facts

variable {platform : Platform} {script program : Bytes}

theorem ScriptPath.separator_mem (path : ScriptPath platform script) : platform.separator ∈ script := by
  obtain ⟨sandbox, rfl⟩ := path.joined
  exact List.mem_append_right _ (List.mem_cons_self ..)

theorem ScriptPath.last (path : ScriptPath platform script) : ∃ more, script = more ++ [0x6c] := by
  obtain ⟨sandbox, rfl⟩ := path.joined
  exact ⟨sandbox ++ platform.separator :: bytes "main.hel", by rw [List.append_assoc]; rfl⟩

theorem ScriptPath.ne_nil (path : ScriptPath platform script) : script ≠ [] := List.ne_nil_of_mem path.separator_mem

theorem ScriptPath.noQuote (path : ScriptPath platform script) : 0x22 ∉ script := path.plain 0x22 (by decide)

theorem ScriptPath.noNewline (path : ScriptPath platform script) : newline ∉ script := path.plain newline (by decide)

theorem ScriptPath.noLess (path : ScriptPath platform script) : 0x3c ∉ script := path.plain 0x3c (by decide)

theorem ProgramName.separator (name : ProgramName platform program) : platform.separator ∉ program := by
  cases platform with
  | posix => exact name _ (by decide)
  | windows => exact name _ (by decide)

theorem ProgramName.slash (name : ProgramName platform program) : 0x2f ∉ program := by
  cases platform with
  | posix => exact name _ (by decide)
  | windows => exact name _ (by decide)

theorem slash_or_quote (path : ScriptPath platform script) (name : ProgramName platform program) :
    script.head? = some 0x2f ∨ 0x22 ∉ program := by
  cases platform with
  | posix => exact .inl path.absolute
  | windows => exact .inr (name _ (by decide))

theorem mem_haskellShowPath {byte : UInt8} : byte ∈ haskellShowPath script ↔ byte ∈ script := by
  rw [haskellShowPath, List.mem_flatMap]
  constructor
  · rintro ⟨other, member, isByte⟩
    split_ifs at isByte with escaped
    · rw [escaped] at member isByte
      simp only [List.mem_cons, List.not_mem_nil, or_false, or_self] at isByte
      rwa [isByte]
    · rwa [List.mem_singleton.mp isByte]
  · intro member
    refine ⟨byte, member, ?_⟩
    split_ifs
    · exact List.mem_cons_of_mem _ (List.mem_singleton_self byte)
    · exact List.mem_singleton_self byte

theorem head?_haskellShowPath (slash : script.head? = some 0x2f) : (haskellShowPath script).head? = some 0x2f := by
  cases script with
  | nil => cases slash
  | cons byte script =>
    cases slash
    rfl

theorem quotedScript_ne_nil : quotedScript script ≠ [] := List.cons_ne_nil _ _

theorem Piece.text_ne_nil (path : ScriptPath platform script) (piece : Piece) : piece.text script ≠ [] := by
  cases piece with
  | path => exact path.ne_nil
  | kept | quoted | marker => exact List.cons_ne_nil _ _

/-- What comes before a path has no separator, and a blank at its end. -/
theorem PathBefore.mem (name : ProgramName platform program) {frame : Prop} {before : Bytes} (isBefore : PathBefore program frame before) :
    platform.separator ∉ before ∧ 0x2f ∉ before ∧ (before = [] ∨ ∃ more, before = more ++ [0x20]) := by
  have both {text : Bytes} (none : 0x2f ∉ text ∧ 0x5c ∉ text) : platform.separator ∉ text := by
    cases platform with
    | posix => exact none.1
    | windows => exact none.2
  rcases isBefore with rfl | rfl | ⟨-, rfl⟩ | ⟨-, rfl⟩
  · exact ⟨List.not_mem_nil, List.not_mem_nil, .inl rfl⟩
  · exact ⟨both (by decide), by decide, .inr ⟨bytes "unknown helper subcommand", rfl⟩⟩
  · refine ⟨?_, ?_, .inr ⟨program ++ bytes ": Parse error:", by rw [List.append_assoc]; rfl⟩⟩
    · rw [List.mem_append, not_or]
      exact ⟨name.separator, both (by decide)⟩
    · rw [List.mem_append, not_or]
      exact ⟨name.slash, by decide⟩
  · exact ⟨both (by decide), by decide, .inr ⟨bytes "Parse error:", rfl⟩⟩

end Facts

/-! ## Readings -/

section Readings

variable {platform : Platform} {script program : Bytes} {frame : Prop} {before rest : Bytes} {pieces : Pieces}

theorem Pieces.text_cons (piece : Piece) (pieces : Pieces) : Pieces.text script (piece :: pieces) = piece.text script ++ Pieces.text script pieces :=
  List.flatMap_cons

theorem Pieces.text_append (earlier later : Pieces) :
    Pieces.text script (earlier ++ later) = Pieces.text script earlier ++ Pieces.text script later := List.flatMap_append

theorem Pieces.normal_cons (piece : Piece) (pieces : Pieces) : Pieces.normal (piece :: pieces) = piece.normal ++ Pieces.normal pieces :=
  List.flatMap_cons

theorem Pieces.normal_append (earlier later : Pieces) : Pieces.normal (earlier ++ later) = Pieces.normal earlier ++ Pieces.normal later :=
  List.flatMap_append

theorem Pieces.text_kept (text : Bytes) : Pieces.text script (text.map .kept) = text := by
  induction text with
  | nil => rfl
  | cons byte text ih => exact congrArg (byte :: ·) ih

theorem Pieces.normal_kept (text : Bytes) : Pieces.normal (text.map .kept) = text := by
  induction text with
  | nil => rfl
  | cons byte text ih => exact congrArg (byte :: ·) ih

theorem Reads.text_eq (reads : Reads script program frame before rest pieces) : rest = Pieces.text script pieces := by
  induction reads with
  | nil => rfl
  | kept _ _ ih => rw [Pieces.text_cons, ← ih, Piece.text, List.singleton_append]
  | occurrence _ _ ih => rw [Pieces.text_cons, ← ih]

theorem Reads.cases (reads : Reads script program frame before rest pieces) :
    (rest = [] ∧ pieces = []) ∨
    (∃ byte rest' pieces', rest = byte :: rest' ∧ pieces = .kept byte :: pieces' ∧
      (∀ piece after, rest = piece.text script ++ after → ¬Occurs program frame before piece after) ∧
      Reads script program frame (before ++ [byte]) rest' pieces') ∨
    ∃ piece after pieces', rest = piece.text script ++ after ∧ pieces = piece :: pieces' ∧ Occurs program frame before piece after ∧
      Reads script program frame (before ++ piece.text script) after pieces' := by
  cases reads with
  | nil => exact .inl ⟨rfl, rfl⟩
  | kept none reads => exact .inr (.inl ⟨_, _, _, rfl, rfl, none, reads⟩)
  | occurrence occurs reads => exact .inr (.inr ⟨_, _, _, rfl, rfl, occurs, reads⟩)

theorem Reads.split {later : Pieces} (reads : Reads script program frame before rest (pieces ++ later)) :
    Reads script program frame (before ++ Pieces.text script pieces) (Pieces.text script later) later := by
  induction pieces generalizing before rest with
  | nil =>
    have same := reads.text_eq
    rw [List.nil_append] at same reads
    rw [← same, Pieces.text, List.flatMap_nil, List.append_nil]
    exact reads
  | cons piece pieces ih =>
    rw [Pieces.text_cons, ← List.append_assoc]
    rcases reads.cases with ⟨-, never⟩ | ⟨byte, rest', pieces', -, same, -, reads⟩ | ⟨piece', after, pieces', -, same, -, reads⟩
    · cases never
    · cases same
      exact ih reads
    · cases same
      exact ih reads

theorem mem_of_append_eq {text after rest : Bytes} {byte : UInt8} (nonempty : text ≠ []) (same : text ++ after = byte :: rest) : byte ∈ text := by
  cases text with
  | nil => exact absurd rfl nonempty
  | cons first text =>
    obtain ⟨rfl, -⟩ := List.cons.inj same
    exact List.mem_cons_self ..

/-- What begins as a path does not begin as a quoted span. -/
theorem ScriptPath.ne_span (path : ScriptPath platform script) {after rest : Bytes} : script ++ after ≠ SRC_SPAN ++ rest := by
  intro same
  rcases List.append_eq_append_iff.mp same with ⟨more, span, -⟩ | ⟨more, longer, -⟩
  · obtain ⟨init, last⟩ := path.last
    have member : (0x6c : UInt8) ∈ SRC_SPAN := by
      rw [span, last, List.append_assoc]
      exact List.mem_append_right _ (List.mem_cons_self ..)
    exact absurd member (by decide)
  · refine path.noQuote ?_
    rw [longer]
    exact List.mem_append_left _ (by decide)

/-- At one place there is one occurrence. -/
theorem Occurs.unique (path : ScriptPath platform script) {piece piece' : Piece} {after after' : Bytes}
    (same : piece.text script ++ after = piece'.text script ++ after') (occurs : Occurs program frame before piece after)
    (occurs' : Occurs program frame before piece' after') : piece = piece' := by
  have noMarker {after rest : Bytes} : script ++ after ≠ WINDOWS ++ rest := fun equal =>
    path.noLess (mem_of_append_eq path.ne_nil equal)
  have quoted {rest : Bytes} : quotedScript script ++ rest = SRC_SPAN ++ (haskellShowPath script ++ [0x22] ++ rest) := by
    rw [quotedScript, List.append_assoc, List.append_assoc, List.append_assoc]
  cases piece with
  | kept byte => exact occurs.elim
  | path =>
    cases piece' with
    | kept byte => exact occurs'.elim
    | path => rfl
    | quoted => exact absurd (same.trans quoted) path.ne_span
    | marker => exact absurd same noMarker
  | quoted =>
    cases piece' with
    | kept byte => exact occurs'.elim
    | path => exact absurd (same.symm.trans quoted) path.ne_span
    | quoted => rfl
    | marker => exact absurd (List.head_eq_of_cons_eq same) (by decide)
  | marker =>
    cases piece' with
    | kept byte => exact occurs'.elim
    | path => exact absurd same.symm noMarker
    | quoted => exact absurd (List.head_eq_of_cons_eq same) (by decide)
    | marker => rfl

theorem Reads.unique (path : ScriptPath platform script) {pieces' : Pieces} (reads : Reads script program frame before rest pieces)
    (reads' : Reads script program frame before rest pieces') : pieces = pieces' := by
  induction reads generalizing pieces' with
  | nil before =>
    rcases reads'.cases with ⟨-, same⟩ | ⟨_, _, _, never, -⟩ | ⟨piece, after, _, never, -⟩
    · exact same.symm
    · cases never
    · exact absurd (List.append_eq_nil_iff.mp never.symm).1 (piece.text_ne_nil path)
  | kept none reads ih =>
    rcases reads'.cases with ⟨never, -⟩ | ⟨byte, rest', more, split, rfl, -, reads'⟩ | ⟨piece, after, _, split, -, occurs, -⟩
    · cases never
    · cases split
      rw [ih reads']
    · exact absurd occurs (none piece after split)
  | occurrence occurs reads ih =>
    rename_i before piece after pieces
    rcases reads'.cases with ⟨never, -⟩ | ⟨byte, rest', more, split, -, none, -⟩ | ⟨piece', after', more, split, rfl, occurs', reads'⟩
    · exact absurd (List.append_eq_nil_iff.mp never).1 (piece.text_ne_nil path)
    · exact absurd occurs (none piece after rfl)
    · cases Occurs.unique path split occurs occurs'
      cases List.append_cancel_left split
      rw [ih reads']

theorem reads_total (path : ScriptPath platform script) (before rest : Bytes) : ∃ pieces, Reads script program frame before rest pieces := by
  induction length : rest.length using Nat.strong_induction_on generalizing before rest with
  | _ _ ih =>
    subst length
    by_cases occurrence : ∃ piece after, rest = Piece.text script piece ++ after ∧ Occurs program frame before piece after
    · obtain ⟨piece, after, rfl, occurs⟩ := occurrence
      have shorter : after.length < (piece.text script ++ after).length := by
        have positive := List.length_pos_of_ne_nil (piece.text_ne_nil path)
        rw [List.length_append]
        omega
      obtain ⟨pieces, reads⟩ := ih _ shorter (before ++ piece.text script) after rfl
      exact ⟨piece :: pieces, .occurrence occurs reads⟩
    · cases rest with
      | nil => exact ⟨[], .nil before⟩
      | cons byte rest =>
        obtain ⟨pieces, reads⟩ := ih _ (Nat.lt_succ_self _) (before ++ [byte]) rest rfl
        exact ⟨.kept byte :: pieces, .kept (fun piece after split occurs => occurrence ⟨piece, after, split, occurs⟩) reads⟩

end Readings

end HellRs.Testkit.Diagnostics
