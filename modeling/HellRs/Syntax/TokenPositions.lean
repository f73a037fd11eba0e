import HellRs.Syntax.Positions
import HellRs.Syntax.Scanning

/-! # Positions of tokens

The lexer keeps the start of the line and whether it has read a token there. The trivia between tokens restart both at every line
break. A literal that reads a raw line break does not, and a character that is skipped counts as a token.
-/

namespace HellRs.Syntax

/-- The columns of the tokens are those of their offsets, and the tokens that are marked are the first ones on their lines. -/
def TruePositions (source : SourceFile) (tokens : List Token) : Prop :=
  ∀ (index : ℕ) (token : Token), tokens[index]? = some token →
    ∃ line, source.lineColumn token.span.start = some (line, token.column) ∧
      (token.startsLine = true ↔ ∀ earlier ∈ tokens.take index, (source.lineColumn earlier.span.start).map Prod.fst ≠ some line)

namespace Lexer

/-- No lexeme of this turn of `next` holds a line break, and characters are skipped only behind a token on their line. -/
def plainTurns (isUppercase : Char → Bool) : ℕ → Lexer → Bool
  | 0, _ => true
  | fuel + 1, lexer =>
      let lexer := lexer.skipTrivia
      if lexer.rest = [] then true
      else
        let marked := { lexer with sawTokenOnLine := true }
        match marked.scan isUppercase with
        | some (_, after) => !(marked.sliceTo after).contains '\n'
        | none =>
            lexer.sawTokenOnLine &&
              plainTurns isUppercase fuel ((marked.advance 1).lexError "character cannot start a Hell token" lexer.offset)

def plain (isUppercase : Char → Bool) (lexer : Lexer) : Bool := lexer.plainTurns isUppercase (lexer.rest.length + 1)

end Lexer

/-- A run of `next` up to the end of the file, in which no step reads a line break within a lexeme or takes a skipped character for
the first token of its line. -/
inductive PlainRun (isUppercase : Char → Bool) (text : List Char) : List Token → Lexer → Prop
  | start : PlainRun isUppercase text [] (.new (.ofText text))
  | next {tokens : List Token} {lexer : Lexer} : PlainRun isUppercase text tokens lexer → (∀ token ∈ tokens, token.kind ≠ .eof) →
      lexer.plain isUppercase = true →
      PlainRun isUppercase text (tokens ++ [(lexer.nextToken isUppercase).1]) (lexer.nextToken isUppercase).2

/-- What the lexer knows of its place behind some characters, when the tokens so far begin on the lines. -/
structure Placed (text : List Char) (lines : List ℕ) (lexer : Lexer) (before : List Char) : Prop where
  split : text = before ++ lexer.rest
  offset : lexer.offset = utf8Length before
  line : lexer.line = lastLine before
  saw : lexer.sawTokenOnLine = true ↔ before.count '\n' ∈ lines
  above : ∀ line ∈ lines, line ≤ before.count '\n'

namespace Placed

variable {text before : List Char} {lines : List ℕ} {lexer : Lexer}

theorem advance (placed : Placed text lines lexer before) {count : ℕ} (plain : '\n' ∉ lexer.rest.take count) :
    Placed text lines (lexer.advance count) (before ++ lexer.rest.take count) := by
  have same : (before ++ lexer.rest.take count).count '\n' = before.count '\n' := by
    rw [List.count_append, List.count_eq_zero.mpr plain, Nat.add_zero]
  constructor
  · rw [List.append_assoc, Lexer.advance_rest, List.take_append_drop]
    exact placed.split
  · rw [utf8Length_append, ← placed.offset]
    rfl
  · rw [lastLine_append before plain, ← placed.line]
    rfl
  · rw [same]
    exact placed.saw
  · rw [same]
    exact placed.above

theorem advanceWhile (placed : Placed text lines lexer before) {wanted : Char → Bool} (plain : wanted '\n' = false) :
    Placed text lines (lexer.advanceWhile wanted) (before ++ lexer.rest.take (lexer.rest.takeWhile wanted).length) := by
  refine placed.advance fun inside => ?_
  rw [← List.prefix_iff_eq_take.mp (List.takeWhile_prefix wanted)] at inside
  rw [List.mem_takeWhile_imp inside] at plain
  cases plain

theorem newline (placed : Placed text lines lexer before) {rest : List Char} (isBreak : lexer.rest = '\n' :: rest) :
    Placed text lines lexer.newline (before ++ ['\n']) := by
  have first : lexer.rest.take 1 = ['\n'] := by rw [isBreak]; rfl
  have later : (before ++ ['\n']).count '\n' = before.count '\n' + 1 := by simp
  constructor
  · rw [placed.split, isBreak, List.append_assoc]
    simp [Lexer.newline, isBreak]
  · rw [utf8Length_append, ← placed.offset, ← first]
    rfl
  · rw [lastLine_newline]
    rfl
  · rw [later]
    refine ⟨nofun, fun member => ?_⟩
    have := placed.above _ member
    omega
  · intro line member
    have := placed.above line member
    omega

theorem error (placed : Placed text lines lexer before) (error : SyntaxError) : Placed text lines (lexer.error error) before :=
  ⟨placed.split, placed.offset, placed.line, placed.saw, placed.above⟩

theorem lexError (placed : Placed text lines lexer before) (message : String) (start : ℕ) :
    Placed text lines (lexer.lexError message start) before := placed.error _

/-! ## Trivia -/

theorem blockComment (placed : Placed text lines lexer before) (fuel depth : ℕ) :
    ∃ before', Placed text lines (Lexer.blockComment fuel depth lexer).2 before' := by
  induction fuel generalizing depth lexer before with
  | zero => exact ⟨before, placed⟩
  | succ fuel ih =>
    unfold Lexer.blockComment
    split
    · exact ⟨before, placed⟩
    · split
      next => exact ⟨before, placed⟩
      next rest isRest => exact ih (placed.advance (by rw [isRest]; simp)) _
      next rest isRest => exact ih (placed.advance (by rw [isRest]; simp)) _
      next rest isRest => exact ih (placed.newline isRest) _
      next notEmpty notOpen notClose notBreak =>
        refine ih (placed.advance ?_) _
        cases isRest : lexer.rest with
        | nil => exact absurd isRest notEmpty
        | cons first rest =>
          intro inside
          rw [List.take_succ_cons, List.take_zero, List.mem_singleton] at inside
          exact notBreak rest (by rw [isRest, ← inside])

theorem skipBlockComment (placed : Placed text lines lexer before) {rest : List Char} (opens : lexer.rest = '{' :: '-' :: rest) :
    ∃ before', Placed text lines lexer.skipBlockComment before' := by
  have body {inner : Lexer} (placed : Placed text lines inner before) (opens : inner.rest = '{' :: '-' :: rest) (message : String) (start : ℕ) :
      ∃ before', Placed text lines (if (Lexer.blockComment ((inner.advance 2).rest.length + 1) 1 (inner.advance 2)).1 ≠ 0 then
        (Lexer.blockComment ((inner.advance 2).rest.length + 1) 1 (inner.advance 2)).2.lexError message start
        else (Lexer.blockComment ((inner.advance 2).rest.length + 1) 1 (inner.advance 2)).2) before' := by
    have opened : Placed text lines (inner.advance 2) _ := placed.advance (by rw [opens]; simp)
    obtain ⟨before', closed⟩ := opened.blockComment ((inner.advance 2).rest.length + 1) 1
    refine ⟨before', ?_⟩
    split
    · exact closed.lexError message start
    · exact closed
  unfold Lexer.skipBlockComment
  dsimp only
  split
  · exact body (placed.error _) opens _ _
  · exact body placed opens _ _

theorem skipTriviaTurns (placed : Placed text lines lexer before) (fuel : ℕ) :
    ∃ before', Placed text lines (lexer.skipTriviaTurns fuel) before' := by
  induction fuel generalizing lexer before with
  | zero => exact ⟨before, placed⟩
  | succ fuel ih =>
    unfold Lexer.skipTriviaTurns
    split
    next rest isRest => exact ih (placed.advance (by rw [isRest]; simp))
    next rest isRest => exact ih (placed.advance (by rw [isRest]; simp))
    next rest isRest => exact ih (placed.advance (by rw [isRest]; simp))
    next rest isRest => exact ih (placed.newline isRest)
    next rest isRest =>
      have opened : Placed text lines (lexer.advance 2) _ := placed.advance (by rw [isRest]; simp)
      exact ih (opened.advanceWhile (by decide))
    next rest isRest =>
      obtain ⟨before', skipped⟩ := placed.skipBlockComment isRest
      exact ih skipped
    next => exact ⟨before, placed⟩

end Placed

namespace Lexer

variable {lexer : Lexer}

theorem length_blockComment_le (fuel depth : ℕ) (lexer : Lexer) : (blockComment fuel depth lexer).2.rest.length ≤ lexer.rest.length := by
  induction fuel generalizing depth lexer with
  | zero => rfl
  | succ fuel ih =>
    have moved (count depth : ℕ) : (blockComment fuel depth (lexer.advance count)).2.rest.length ≤ lexer.rest.length :=
      (ih depth _).trans (by rw [advance_rest, List.length_drop]; omega)
    unfold blockComment
    split
    · rfl
    · split
      · rfl
      · exact moved 2 _
      · exact moved 2 _
      · exact (ih _ _).trans (by simp [newline])
      · exact moved 1 _

theorem length_skipBlockComment_le (lexer : Lexer) : lexer.skipBlockComment.rest.length ≤ lexer.rest.length - 2 := by
  have body (inner : Lexer) (message : String) (start : ℕ) :
      (if (blockComment ((inner.advance 2).rest.length + 1) 1 (inner.advance 2)).1 ≠ 0 then
        (blockComment ((inner.advance 2).rest.length + 1) 1 (inner.advance 2)).2.lexError message start
        else (blockComment ((inner.advance 2).rest.length + 1) 1 (inner.advance 2)).2).rest.length ≤ inner.rest.length - 2 := by
    have moved : (inner.advance 2).rest.length = inner.rest.length - 2 := by rw [advance_rest, List.length_drop]
    have := (length_blockComment_le ((inner.advance 2).rest.length + 1) 1 (inner.advance 2)).trans moved.le
    split <;> exact this
  unfold skipBlockComment
  dsimp only
  split
  · exact body _ _ _
  · exact body _ _ _

/-- Behind the trivia there is no line break, and not more text than before. -/
theorem skipTriviaTurns_spec {fuel : ℕ} (enough : lexer.rest.length < fuel) :
    (lexer.skipTriviaTurns fuel).rest.head? ≠ some '\n' ∧ (lexer.skipTriviaTurns fuel).rest.length ≤ lexer.rest.length := by
  induction fuel generalizing lexer with
  | zero => cases enough
  | succ fuel ih =>
    have turn {after : Lexer} (shorter : after.rest.length < lexer.rest.length) :
        (after.skipTriviaTurns fuel).rest.head? ≠ some '\n' ∧ (after.skipTriviaTurns fuel).rest.length ≤ lexer.rest.length := by
      obtain ⟨head, length⟩ := @ih after (by omega)
      exact ⟨head, by omega⟩
    unfold skipTriviaTurns
    split
    next rest isRest => exact turn (by simp [isRest])
    next rest isRest => exact turn (by simp [isRest])
    next rest isRest => exact turn (by simp [isRest])
    next rest isRest => exact turn (by simp [newline, isRest])
    next rest isRest => exact turn (by simp only [advanceWhile, advance_rest, List.length_drop, isRest, List.length_cons]; omega)
    next rest isRest =>
      have := length_skipBlockComment_le lexer
      exact turn (by rw [isRest, List.length_cons, List.length_cons] at *; omega)
    next noSpace noReturn noTab noBreak _ _ =>
      refine ⟨fun head => ?_, le_rfl⟩
      obtain ⟨rest, isRest⟩ := List.head?_eq_some_iff.mp head
      exact noBreak rest isRest

theorem sliceTo_of_moved {after : Lexer} {count : ℕ} (moved : { after with errors := lexer.errors } = lexer.advance count) :
    lexer.sliceTo after = lexer.rest.take count := by
  have rest : after.rest = lexer.rest.drop count := congrArg Lexer.rest moved
  rw [sliceTo, rest, List.length_drop]
  rcases Nat.le_total count lexer.rest.length with inside | beyond
  · rw [Nat.sub_sub_self inside]
  · rw [Nat.sub_eq_zero_of_le beyond, Nat.sub_zero, List.take_length, List.take_of_length_le beyond]

end Lexer

theorem Placed.scan {text before : List Char} {lines : List ℕ} {lexer after : Lexer} {isUppercase : Char → Bool} {kind : TokenKind}
    (placed : Placed text lines lexer before) (scanned : lexer.scan isUppercase = some (kind, after))
    (plain : (lexer.sliceTo after).contains '\n' = false) : ∃ before', Placed text lines after before' := by
  obtain ⟨count, moved⟩ := (Lexer.advanced_scan scanned).moved
  rw [Lexer.sliceTo_of_moved moved] at plain
  have there : Placed text lines (lexer.advance count) _ := placed.advance (by simpa using plain)
  rw [← moved] at there
  exact ⟨_, there.split, there.offset, there.line, there.saw, there.above⟩

/-- A token begins here. -/
theorem Placed.mark {text before : List Char} {lines : List ℕ} {lexer : Lexer} (placed : Placed text lines lexer before) :
    Placed text (lines ++ [before.count '\n']) { lexer with sawTokenOnLine := true } before where
  split := placed.split
  offset := placed.offset
  line := placed.line
  saw := by simp
  above := by
    intro line member
    rcases List.mem_append.mp member with earlier | here
    · exact placed.above line earlier
    · exact (List.mem_singleton.mp here).le

/-- A token has begun on the line before. -/
theorem Placed.stay {text before : List Char} {lines : List ℕ} {lexer : Lexer} (placed : Placed text lines lexer before)
    (onLine : before.count '\n' ∈ lines) : Placed text lines { lexer with sawTokenOnLine := true } before :=
  ⟨placed.split, placed.offset, placed.line, ⟨fun _ => onLine, fun _ => rfl⟩, placed.above⟩

/-- The position of a token, which begins behind some characters of the text, among tokens that begin on the lines. -/
structure Marked (text : List Char) (lines : List ℕ) (token : Token) (before : List Char) : Prop where
  split : before <+: text
  start : token.span.start = min (utf8Length before) spanLimit
  column : token.column = (lastLine before).foldl nextColumn 1
  startsLine : token.startsLine = true ↔ before.count '\n' ∉ lines

/-- The step: from a lexer that stands where it says comes a token at its true position, and again such a lexer. -/
theorem Placed.nextTurns {text before : List Char} {lines : List ℕ} {lexer : Lexer} {isUppercase : Char → Bool} {fuel : ℕ}
    (placed : Placed text lines lexer before) (enough : lexer.rest.length < fuel) (plain : lexer.plainTurns isUppercase fuel = true) :
    ∃ start, Marked text lines (lexer.nextTurns isUppercase fuel).1 start ∧
      ((lexer.nextTurns isUppercase fuel).1.kind ≠ .eof →
        ∃ before', Placed text (lines ++ [start.count '\n']) (lexer.nextTurns isUppercase fuel).2 before') := by
  induction fuel generalizing lexer before with
  | zero => cases enough
  | succ fuel ih =>
    obtain ⟨start, there⟩ := placed.skipTriviaTurns (lexer.rest.length + 1)
    obtain ⟨head, length⟩ := Lexer.skipTriviaTurns_spec (Nat.lt_succ_self lexer.rest.length)
    unfold Lexer.plainTurns at plain
    unfold Lexer.nextTurns
    change Placed text lines lexer.skipTrivia start at there
    change lexer.skipTrivia.rest.head? ≠ _ at head
    change lexer.skipTrivia.rest.length ≤ _ at length
    generalize lexer.skipTrivia = lexer at *
    dsimp only at plain ⊢
    have marked (kind : TokenKind) (stop : ℕ) :
        Marked text lines ⟨kind, span lexer.offset stop, !lexer.sawTokenOnLine, lexer.visualColumn⟩ start := by
      refine ⟨⟨_, there.split.symm⟩, by rw [← there.offset]; rfl, by rw [← there.line]; rfl, ?_⟩
      rw [← there.saw, Bool.not_eq_true', Bool.not_eq_true]
    by_cases empty : lexer.rest = []
    · rw [if_pos empty]
      exact ⟨start, marked _ _, fun notEof => absurd rfl notEof⟩
    · rw [if_neg empty] at plain ⊢
      cases scanned : Lexer.scan isUppercase { lexer with sawTokenOnLine := true } with
      | some result =>
        obtain ⟨kind, after⟩ := result
        simp only [scanned] at plain
        refine ⟨start, marked _ _, fun _ => there.mark.scan scanned ?_⟩
        simpa using plain
      | none =>
        simp only [scanned, Bool.and_eq_true] at plain
        have onLine : start.count '\n' ∈ lines := there.saw.mp plain.1
        have first : '\n' ∉ lexer.rest.take 1 := by
          cases isRest : lexer.rest with
          | nil => exact absurd isRest empty
          | cons first rest =>
            rw [isRest] at head
            simpa [eq_comm] using head
        exact ih (((there.stay onLine).advance first).lexError _ _) (by
          have := List.length_pos_of_ne_nil empty
          change (lexer.rest.drop 1).length < fuel
          rw [List.length_drop]
          omega) plain.2

/-! ## Runs -/

theorem placed_new (text : List Char) : ∃ before, Placed text [] (.new (.ofText text)) before := by
  refine ⟨(SourceFile.ofText text).shebang, ?_, rfl, ?_, by simp [Lexer.new], nofun⟩
  · unfold SourceFile.ofText Lexer.new
    split
    · have taken := List.prefix_iff_eq_take.mp (List.takeWhile_prefix (l := text) (· ≠ '\n'))
      exact (List.take_append_drop _ text).symm.trans (congrArg (· ++ _) taken.symm)
    · rfl
  · have plain : '\n' ∉ (SourceFile.ofText text).shebang := by
      unfold SourceFile.ofText
      intro inside
      split at inside
      · simpa using List.mem_takeWhile_imp inside
      · cases inside
    have line := lastLine_append [] plain
    rw [List.nil_append, lastLine_nil, List.nil_append] at line
    exact line.symm

/-- The lines on which the tokens begin. -/
theorem PlainRun.placed {isUppercase : Char → Bool} {text : List Char} (short : utf8Length text < spanLimit) {tokens : List Token}
    {lexer : Lexer} (run : PlainRun isUppercase text tokens lexer) :
    TruePositions (.ofText text) tokens ∧ ((∀ token ∈ tokens, token.kind ≠ .eof) → ∃ lines before,
      tokens.map (fun token => ((SourceFile.ofText text).lineColumn token.span.start).map Prod.fst) = lines.map (fun line => some (line + 1)) ∧
      Placed text lines lexer before) := by
  induction run with
  | start =>
    obtain ⟨before, placed⟩ := placed_new text
    exact ⟨by simp [TruePositions], fun _ => ⟨[], before, rfl, placed⟩⟩
  | @next tokens lexer run unfinished plain ih =>
    obtain ⟨positions, placed⟩ := ih
    obtain ⟨lines, before, onLines, placed⟩ := placed unfinished
    obtain ⟨start, marked, further⟩ := placed.nextTurns (Nat.lt_succ_self _) plain
    obtain ⟨rest, split⟩ := marked.split
    have place : (SourceFile.ofText text).lineColumn (lexer.nextToken isUppercase).1.span.start =
        some (start.count '\n' + 1, (lexer.nextToken isUppercase).1.column) := by
      have inside : utf8Length start ≤ spanLimit := by
        rw [← split, utf8Length_append] at short
        omega
      have column : (lexer.nextToken isUppercase).1.column = _ := marked.column
      have offset : (lexer.nextToken isUppercase).1.span.start = utf8Length start := marked.start.trans (Nat.min_eq_left inside)
      rw [offset, column]
      exact @SourceFile.lineColumn_eq (.ofText text) _ _ split.symm short
    have first : (lexer.nextToken isUppercase).1.startsLine = true ↔
        ∀ earlier ∈ tokens, ((SourceFile.ofText text).lineColumn earlier.span.start).map Prod.fst ≠ some (start.count '\n' + 1) := by
      have among : (some (start.count '\n' + 1) ∈ tokens.map fun token =>
          ((SourceFile.ofText text).lineColumn token.span.start).map Prod.fst) ↔ start.count '\n' ∈ lines := by
        rw [onLines]
        simp
      refine marked.startsLine.trans ((not_congr among).symm.trans ?_)
      simp
    refine ⟨fun index token found => ?_, fun notEof => ?_⟩
    · rcases Nat.lt_or_ge index tokens.length with earlier | last
      · rw [List.getElem?_append_left earlier] at found
        rw [List.take_append_of_le_length earlier.le]
        exact positions index token found
      · rw [List.getElem?_append_right last, List.getElem?_singleton] at found
        split at found
        next isLast =>
          cases found
          refine ⟨_, place, ?_⟩
          rw [show index = tokens.length by omega, List.take_left]
          exact first
        next => cases found
    · obtain ⟨before', placed'⟩ := further (notEof _ (List.mem_append_right _ List.mem_cons_self))
      refine ⟨lines ++ [start.count '\n'], before', ?_, placed'⟩
      rw [List.map_append, List.map_append, onLines, List.map_singleton, List.map_singleton, place]
      rfl

/-- In every run of the lexer without a raw line break in a literal and without a skipped character in front of the first token of
a line, the tokens are where the source file says. -/
theorem PlainRun.true_positions {isUppercase : Char → Bool} {text : List Char} (short : utf8Length text < spanLimit)
    {tokens : List Token} {lexer : Lexer} (run : PlainRun isUppercase text tokens lexer) : TruePositions (.ofText text) tokens :=
  (run.placed short).1

theorem true_positions_indented : TruePositions (.ofText ['a', '\n', '\t', 'b'])
    [⟨.lower "a", ⟨0, 1⟩, true, 1⟩, ⟨.lower "b", ⟨3, 4⟩, true, 9⟩] :=
  PlainRun.true_positions (by decide) (.next (.next (@PlainRun.start Char.isUpper _) (by decide) (by decide)) (by decide) (by decide))

/-- A character literal that is a raw line break is accepted, and what follows it on the line counts as the line before. -/
theorem not_true_positions_raw_break : (lex Char.isUpper (.ofText ['\'', '\n', '\'', ' ', 'x'])).isOk = true ∧
    ¬TruePositions (.ofText ['\'', '\n', '\'', ' ', 'x'])
      ((Lexer.new (.ofText ['\'', '\n', '\'', ' ', 'x'])).tokensTurns Char.isUpper 6 []).1 := by
  refine ⟨by decide, fun positions => ?_⟩
  obtain ⟨line, place, -⟩ := positions 1 ⟨.lower "x", ⟨4, 5⟩, false, 5⟩ (by decide)
  have isPlace : (SourceFile.ofText ['\'', '\n', '\'', ' ', 'x']).lineColumn 4 = some (2, 3) := by decide
  cases isPlace.symm.trans place

end HellRs.Syntax
