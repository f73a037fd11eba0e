import HellRs.Syntax.Layout

/-! # What scanning keeps

The lexer never takes an error back, so a literal that fails makes the whole file fail.
-/

namespace HellRs.Syntax

namespace Lexer

variable {lexer : Lexer}

@[simp] theorem advance_errors (count : ℕ) : (lexer.advance count).errors = lexer.errors := rfl

@[simp] theorem advanceWhile_errors (wanted : Char → Bool) : (lexer.advanceWhile wanted).errors = lexer.errors := rfl

@[simp] theorem newline_errors : lexer.newline.errors = lexer.errors := rfl

@[simp] theorem advance_rest (count : ℕ) : (lexer.advance count).rest = lexer.rest.drop count := rfl

theorem advance_advance (first second : ℕ) : (lexer.advance first).advance second = lexer.advance (first + second) := by
  simp only [advance, List.drop_drop, utf8Length, List.take_add, List.map_append, List.sum_append, List.append_assoc,
    Nat.add_assoc]

/-- Everything the first lexer reports is still reported. -/
def Keeps (lexer after : Lexer) : Prop := lexer.errors <+: after.errors

theorem Keeps.refl (lexer : Lexer) : Keeps lexer lexer := List.prefix_rfl

theorem Keeps.trans {first second third : Lexer} (left : Keeps first second) (right : Keeps second third) :
    Keeps first third := List.IsPrefix.trans left right

theorem keeps_of_errors_eq {after : Lexer} (same : lexer.errors = after.errors) : Keeps lexer after :=
  ⟨[], by rw [List.append_nil, same]⟩

theorem Keeps.of_errors {first second third : Lexer} (kept : Keeps second third) (same : first.errors = second.errors) :
    Keeps first third :=
  (keeps_of_errors_eq same).trans kept

theorem keeps_error (error : SyntaxError) : Keeps lexer (lexer.error error) := ⟨[error], rfl⟩

theorem keeps_advance (count : ℕ) : Keeps lexer (lexer.advance count) := .refl lexer

theorem Keeps.lexError {after : Lexer} (kept : Keeps lexer after) (message : String) (start : ℕ) :
    Keeps lexer (after.lexError message start) :=
  kept.trans (keeps_error _)

theorem Keeps.ite {condition : Prop} [Decidable condition] {first second : Lexer} (left : Keeps lexer first)
    (right : Keeps lexer second) : Keeps lexer (if condition then first else second) := by
  split
  · exact left
  · exact right

theorem keeps_blockComment (fuel depth : ℕ) (lexer : Lexer) : Keeps lexer (blockComment fuel depth lexer).2 := by
  induction fuel generalizing depth lexer with
  | zero => exact .refl lexer
  | succ fuel ih =>
    simp only [blockComment]
    split
    · exact .refl lexer
    · split
      · exact .refl lexer
      all_goals exact (ih _ _).of_errors rfl

theorem keeps_skipBlockComment (lexer : Lexer) : Keeps lexer lexer.skipBlockComment := by
  have body (inner : Lexer) (kept : Keeps lexer inner) (message : String) (start : ℕ) :
      Keeps lexer (if (blockComment (inner.rest.length + 1) 1 inner).1 ≠ 0 then
        (blockComment (inner.rest.length + 1) 1 inner).2.lexError message start
        else (blockComment (inner.rest.length + 1) 1 inner).2) := by
    have comment := kept.trans (keeps_blockComment (inner.rest.length + 1) 1 inner)
    exact .ite (comment.lexError message start) comment
  simp only [skipBlockComment]
  split
  · exact body _ ((keeps_error _).trans (keeps_advance 2)) _ _
  · exact body _ (keeps_advance 2) _ _

theorem keeps_skipTriviaTurns (fuel : ℕ) (lexer : Lexer) : Keeps lexer (skipTriviaTurns fuel lexer) := by
  induction fuel generalizing lexer with
  | zero => exact .refl lexer
  | succ fuel ih =>
    simp only [skipTriviaTurns]
    split
    case h_6 => exact (keeps_skipBlockComment lexer).trans (ih _)
    case h_7 => exact .refl lexer
    all_goals exact (ih _).of_errors rfl

/-! ## What moves over characters of a line -/

/-- The lexer moves over some characters without looking for line breaks among them, and reports more. -/
structure Advanced (lexer after : Lexer) : Prop where
  keeps : Keeps lexer after
  moved : ∃ count, { after with errors := lexer.errors } = lexer.advance count

theorem advance_zero (lexer : Lexer) : lexer.advance 0 = lexer := by
  simp only [advance, List.drop_zero, List.take_zero, utf8Length, List.map_nil, List.sum_nil, Nat.add_zero, List.append_nil]

theorem Advanced.refl (lexer : Lexer) : Advanced lexer lexer := ⟨.refl lexer, 0, (advance_zero lexer).symm⟩

theorem advanced_advance (count : ℕ) : Advanced lexer (lexer.advance count) := ⟨.refl lexer, count, rfl⟩

theorem advanced_advanceWhile (wanted : Char → Bool) : Advanced lexer (lexer.advanceWhile wanted) := advanced_advance _

theorem Advanced.trans {first second third : Lexer} (left : Advanced first second) (right : Advanced second third) :
    Advanced first third := by
  obtain ⟨count, moved⟩ := left.moved
  obtain ⟨count', moved'⟩ := right.moved
  refine ⟨left.keeps.trans right.keeps, count + count', ?_⟩
  rw [← advance_advance, ← moved]
  exact congrArg (fun lexer : Lexer => { lexer with errors := first.errors }) moved'

theorem Advanced.of_advance {count : ℕ} {after : Lexer} (advanced : Advanced (lexer.advance count) after) : Advanced lexer after :=
  (advanced_advance count).trans advanced

theorem Advanced.lexError {after : Lexer} (advanced : Advanced lexer after) (message : String) (start : ℕ) :
    Advanced lexer (after.lexError message start) :=
  ⟨advanced.keeps.lexError message start, advanced.moved⟩

theorem Advanced.ite {condition : Prop} [Decidable condition] {first second : Lexer} (left : Advanced lexer first)
    (right : Advanced lexer second) : Advanced lexer (if condition then first else second) := by
  split
  · exact left
  · exact right

theorem advanced_decodeNumeric (escapeStart radix : ℕ) (firstIsDigit : Bool) :
    Advanced lexer (lexer.decodeNumeric escapeStart radix firstIsDigit).2 := by
  simp only [decodeNumeric]
  split
  · exact (advanced_advance _).lexError _ _
  · split
    · exact advanced_advance _
    · exact (advanced_advance _).lexError _ _

theorem advanced_decodeChar (literalStart : ℕ) (delimiter : Char) :
    Advanced lexer (lexer.decodeChar literalStart delimiter).2 := by
  simp only [decodeChar]
  split
  · exact (Advanced.refl lexer).lexError _ _
  · split
    · exact (Advanced.refl lexer).lexError _ _
    · split
      · exact advanced_advance 1
      · split
        · exact advanced_advance 1
        · split
          · exact advanced_advance 2
          · split
            · exact (advanced_decodeNumeric ..).of_advance
            · exact (advanced_advance 2).lexError _ _

theorem advanced_character (start : ℕ) : Advanced lexer (lexer.character start).2 := by
  simp only [character]
  have decoded : Advanced lexer ((lexer.advance 1).decodeChar start '\'').2 := (advanced_decodeChar _ _).of_advance
  exact .ite (decoded.trans (advanced_advance 1)) (decoded.lexError _ _)

theorem advanced_stringTurns (start fuel : ℕ) (lexer : Lexer) (result : List Char) :
    Advanced lexer (stringTurns start fuel lexer result).2 := by
  induction fuel generalizing lexer result with
  | zero => exact .refl lexer
  | succ fuel ih =>
    simp only [stringTurns]
    split
    · exact .refl lexer
    · exact .refl lexer
    · exact (Advanced.refl lexer).lexError _ _
    · exact (ih _ _).of_advance
    · have decoded : Advanced lexer (lexer.decodeChar start '"').2 := advanced_decodeChar start '"'
      split
      next value after found =>
        rw [found] at decoded
        exact decoded.trans (ih _ _)
      next after failed =>
        rw [failed] at decoded
        exact decoded

theorem advanced_string (start : ℕ) : Advanced lexer (lexer.string start).2 := by
  simp only [string]
  have turns (fuel : ℕ) : Advanced lexer (stringTurns start fuel (lexer.advance 1) []).2 :=
    (advanced_stringTurns _ _ _ _).of_advance
  exact .ite ((turns _).trans (advanced_advance 1)) ((turns _).lexError _ _)

theorem advanced_fractionDigits (lexer : Lexer) : Advanced lexer lexer.fractionDigits.2 := by
  simp only [fractionDigits]
  split
  · split
    · exact (advanced_advanceWhile _).of_advance
    · exact .refl lexer
  · exact .refl lexer

theorem advanced_exponent (lexer : Lexer) (start : ℕ) : Advanced lexer (lexer.exponent start).2 := by
  have digits (inner : Lexer) (advanced : Advanced lexer inner) : Advanced lexer
      (if (inner.advanceWhile Char.isDigit).offset = inner.offset then
        (inner.advanceWhile Char.isDigit).lexError "fraction exponent has no digits" start
        else inner.advanceWhile Char.isDigit) :=
    .ite ((advanced.trans (advanced_advanceWhile _)).lexError _ _) (advanced.trans (advanced_advanceWhile _))
  simp only [exponent]
  split
  · exact digits _ (.ite (advanced_advance 1).of_advance (advanced_advance 1))
  · exact digits _ (.ite (advanced_advance 1).of_advance (advanced_advance 1))
  · exact .refl lexer

theorem advanced_number : Advanced lexer lexer.number.2 := by
  have digits (wanted : Char → Bool) : Advanced lexer ((lexer.advance 2).advanceWhile wanted) := (advanced_advanceWhile wanted).of_advance
  simp only [number]
  split
  · exact .ite ((digits _).lexError _ _) (digits _)
  · exact .ite ((digits _).lexError _ _) (digits _)
  · split
    · exact Advanced.lexError (.ite ((digits _).trans (advanced_advance 1)) (digits _)) _ _
    · exact digits _
  · split
    · exact Advanced.lexError (.ite ((digits _).trans (advanced_advance 1)) (digits _)) _ _
    · exact digits _
  · exact ((advanced_advanceWhile _).trans (advanced_fractionDigits _)).trans (advanced_exponent _ _)

theorem advanced_qualifiedTurns (fuel : ℕ) (lexer : Lexer) : Advanced lexer (qualifiedTurns fuel lexer) := by
  induction fuel generalizing lexer with
  | zero => exact .refl lexer
  | succ fuel ih =>
    simp only [qualifiedTurns]
    split
    · split
      · exact ((advanced_advanceWhile _).trans (ih _)).of_advance
      · exact .refl lexer
    · exact .refl lexer

theorem advanced_identifier (isUppercase : Char → Bool) : Advanced lexer (lexer.identifier isUppercase).2 := by
  have turns (fuel : ℕ) : Advanced lexer (qualifiedTurns fuel ((lexer.advance 1).advanceWhile isIdentContinue)) :=
    ((advanced_advanceWhile _).trans (advanced_qualifiedTurns _ _)).of_advance
  simp only [identifier]
  split
  · dsimp only
    split
    · exact ⟨(turns _).keeps.trans (keeps_error _), (turns _).moved⟩
    · exact turns _
  · split
    · exact turns _
    · split
      · exact turns _
      · split
        · exact turns _
        · exact turns _

theorem advanced_scan {isUppercase : Char → Bool} {kind : TokenKind} {after : Lexer}
    (scanned : lexer.scan isUppercase = some (kind, after)) : Advanced lexer after := by
  have of_eq {result : TokenKind × Lexer} (advanced : Advanced lexer result.2) (same : some result = some (kind, after)) :
      Advanced lexer after := by
    obtain rfl := Option.some.inj same
    exact advanced
  simp only [scan] at scanned
  split at scanned
  case h_1 => cases scanned
  case h_17 => exact of_eq (advanced_character _) scanned
  case h_18 => exact of_eq (advanced_string _) scanned
  case h_19 =>
    split at scanned
    · exact of_eq (advanced_identifier isUppercase) scanned
    · exact of_eq (advanced_advance 1) scanned
  case h_20 =>
    split at scanned
    · exact of_eq advanced_number scanned
    · split at scanned
      · exact of_eq (advanced_identifier isUppercase) scanned
      · split at scanned
        · exact of_eq (advanced_advance _) scanned
        · cases scanned
  all_goals exact of_eq (advanced_advance _) scanned

theorem keeps_nextTurns (isUppercase : Char → Bool) (fuel : ℕ) (lexer : Lexer) :
    Keeps lexer (lexer.nextTurns isUppercase fuel).2 := by
  induction fuel generalizing lexer with
  | zero => exact .refl lexer
  | succ fuel ih =>
    have trivia : Keeps lexer lexer.skipTrivia := keeps_skipTriviaTurns (lexer.rest.length + 1) lexer
    have skip (inner : Lexer) (kept : Keeps lexer.skipTrivia inner) (message : String) (start : ℕ) :
        Keeps lexer.skipTrivia (nextTurns isUppercase fuel (inner.lexError message start)).2 :=
      (kept.lexError message start).trans (ih _)
    simp only [nextTurns]
    split
    · exact trivia
    · refine trivia.trans ?_
      split
      next kind after scanned => exact (advanced_scan scanned).keeps.of_errors rfl
      next => exact skip (({ lexer.skipTrivia with sawTokenOnLine := true } : Lexer).advance 1) (keeps_of_errors_eq rfl) _ _

theorem keeps_tokensTurns (isUppercase : Char → Bool) (fuel : ℕ) (lexer : Lexer) (tokens : List Token) :
    Keeps lexer (lexer.tokensTurns isUppercase fuel tokens).2 := by
  induction fuel generalizing lexer tokens with
  | zero => exact .refl lexer
  | succ fuel ih =>
    have read : Keeps lexer (lexer.nextToken isUppercase).2 := keeps_nextTurns isUppercase _ lexer
    simp only [tokensTurns]
    split
    · exact read
    · exact read.trans (ih _ _)

/-- The token at a place that is not trivia. -/
theorem nextToken_scan {isUppercase : Char → Bool} {kind : TokenKind} {after : Lexer} (nonempty : lexer.rest ≠ [])
    (noTrivia : lexer.skipTrivia = lexer)
    (scanned : ({ lexer with sawTokenOnLine := true } : Lexer).scan isUppercase = some (kind, after)) :
    lexer.nextToken isUppercase =
      (⟨kind, span lexer.offset after.offset, !lexer.sawTokenOnLine, lexer.visualColumn⟩, after) := by
  simp only [nextToken, nextTurns, noTrivia, nonempty, if_false, scanned]

theorem nextToken_eof (isUppercase : Char → Bool) (empty : lexer.rest = []) :
    lexer.nextToken isUppercase =
      (⟨.eof, span lexer.offset lexer.offset, !lexer.sawTokenOnLine, lexer.visualColumn⟩, lexer) := by
  have noTrivia : lexer.skipTrivia = lexer := by simp [skipTrivia, skipTriviaTurns, empty]
  simp only [nextToken, nextTurns, noTrivia, empty, if_true]

end Lexer

/-- A kind of token that the layout passes over. -/
def TokenKind.isLiteral : TokenKind → Bool
  | .text _ => true
  | .character _ => true
  | _ => false

/-- The tokens of a file are one literal. -/
def LexesTo (isUppercase : Char → Bool) (text : List Char) (kind : TokenKind) : Prop :=
  ∃ tokens, lex isUppercase (.ofText text) = .ok tokens ∧
    tokens.map Token.kind = [.virtualLBrace, kind, .virtualRBrace, .eof]

theorem insertLayout_literal (source : SourceFile) {token last : Token} (literal : token.kind.isLiteral = true)
    (startsLine : token.startsLine = true) (isEof : last.kind = .eof) :
    (insertLayout source [token, last]).map Token.kind = [.virtualLBrace, token.kind, .virtualRBrace, .eof] := by
  obtain ⟨kind, place, starts, column⟩ := token
  obtain rfl : starts = true := startsLine
  cases kind with
  | text value => simp [insertLayout, Layout.insert, Layout.step, Layout.openPending, Layout.closeDeeper, Layout.deeper,
      Layout.separate, Layout.enter, Layout.closeImplicit, isEof]
  | character value => simp [insertLayout, Layout.insert, Layout.step, Layout.openPending, Layout.closeDeeper,
      Layout.deeper, Layout.separate, Layout.enter, Layout.closeImplicit, isEof]
  | _ => cases literal

section Literal

variable {isUppercase : Char → Bool} {quote : Char} {tail : List Char} {kind : TokenKind} {after : Lexer}

/-- The lexer at the start of a file that begins with a quote. -/
theorem new_quote (isQuote : quote = '"' ∨ quote = '\'') :
    Lexer.new (.ofText (quote :: tail)) = ⟨quote :: tail, 0, [], false, []⟩ := by
  rcases isQuote with rfl | rfl <;> rfl

theorem nextToken_quote (isQuote : quote = '"' ∨ quote = '\'')
    (scanned : Lexer.scan isUppercase ⟨quote :: tail, 0, [], true, []⟩ = some (kind, after)) :
    Lexer.nextToken isUppercase ⟨quote :: tail, 0, [], false, []⟩ = (⟨kind, span 0 after.offset, true, 1⟩, after) := by
  refine Lexer.nextToken_scan (by simp) ?_ scanned
  rcases isQuote with rfl | rfl <;> rfl

/-- A literal with an error is no file. -/
theorem not_lexesTo_of_errors (isQuote : quote = '"' ∨ quote = '\'')
    (scanned : Lexer.scan isUppercase ⟨quote :: tail, 0, [], true, []⟩ = some (kind, after))
    (literal : kind.isLiteral = true) (failed : after.errors ≠ []) (other : TokenKind) :
    ¬ LexesTo isUppercase (quote :: tail) other := by
  rintro ⟨tokens, lexed, -⟩
  have notEof : kind ≠ .eof := by rintro rfl; cases literal
  have kept := Lexer.keeps_tokensTurns isUppercase (quote :: tail).length after [⟨kind, span 0 after.offset, true, 1⟩]
  simp only [lex, new_quote isQuote, Lexer.tokensTurns, nextToken_quote isQuote scanned, notEof, if_false,
    List.nil_append] at lexed
  split at lexed
  next clean =>
    obtain ⟨more, grown⟩ := kept
    rw [clean] at grown
    exact failed (List.append_eq_nil_iff.mp grown).1
  next => cases lexed

/-- A literal without an error that reaches the end of the file is the file. -/
theorem lexesTo_of_scan (isQuote : quote = '"' ∨ quote = '\'')
    (scanned : Lexer.scan isUppercase ⟨quote :: tail, 0, [], true, []⟩ = some (kind, after))
    (literal : kind.isLiteral = true) (clean : after.errors = []) (whole : after.rest = []) :
    LexesTo isUppercase (quote :: tail) kind := by
  have notEof : kind ≠ .eof := by rintro rfl; cases literal
  have layout : (insertLayout (.ofText (quote :: tail)) [⟨kind, span 0 after.offset, true, 1⟩,
      ⟨.eof, span after.offset after.offset, !after.sawTokenOnLine, after.visualColumn⟩]).map Token.kind = _ :=
    insertLayout_literal _ literal rfl rfl
  refine ⟨_, ?_, layout⟩
  simp only [lex, new_quote isQuote, Lexer.tokensTurns, nextToken_quote isQuote scanned, notEof, if_false,
    List.nil_append, List.length_cons, Lexer.nextToken_eof isUppercase whole, if_true, clean, List.cons_append]

end Literal

end HellRs.Syntax
