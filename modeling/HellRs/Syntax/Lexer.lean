import HellRs.Syntax.Token

/-! # The lexer

The lexer reads the source from left to right. The source indexes the bytes; here the state holds the characters that
are left, the byte offset they start at, and the characters since the start of the line. Every test of the source is on
an ASCII byte or on a whole character, so reading characters is the same. Loops carry the number of characters that are
left as fuel: every turn reads at least one.
-/

namespace HellRs.Syntax

structure Lexer where
  rest : List Char
  /-- `self.at`. -/
  offset : ℕ
  /-- The characters from `self.line_start` to `self.at`. -/
  line : List Char
  sawTokenOnLine : Bool
  errors : List SyntaxError
deriving DecidableEq, Repr

def isIdentStart (character : Char) : Bool :=
  character = '_' || character.isAlpha || 0x80 ≤ character.toNat

def isIdentContinue (character : Char) : Bool :=
  isIdentStart character || character.isDigit || character = '\''

/-- `char::to_digit`. -/
def toDigit (radix : ℕ) (character : Char) : Option ℕ :=
  let value :=
    if character.isDigit then some (character.toNat - '0'.toNat)
    else if 'a' ≤ character ∧ character ≤ 'z' then some (character.toNat - 'a'.toNat + 10)
    else if 'A' ≤ character ∧ character ≤ 'Z' then some (character.toNat - 'A'.toNat + 10)
    else none
  value.filter (· < radix)

/-- `u32::from_str_radix` on digits of the radix. -/
def fromStrRadix (radix : ℕ) (digits : List Char) : Option ℕ :=
  let value := digits.foldl (fun value digit => radix * value + (toDigit radix digit).getD 0) 0
  if digits = [] ∨ 2 ^ 32 ≤ value then none else some value

/-- `char::from_u32`. -/
def fromU32 (value : ℕ) : Option Char :=
  if value.isValidChar then some (Char.ofNat value) else none

/-- One character further on the line: tabs advance to eight-column stops, and the addition of one saturates. -/
def nextColumn (column : ℕ) (character : Char) : ℕ :=
  if character = '\t' then (((column - 1) / 8 + 1) * 8 + 1) % 2 ^ 32 else min (column + 1) (2 ^ 32 - 1)

namespace Lexer

/-- `Lexer::new`. -/
def new (source : SourceFile) : Lexer where
  rest := source.text.drop source.shebang.length
  offset := utf8Length source.shebang
  line := source.shebang
  sawTokenOnLine := false
  errors := []

def visualColumn (lexer : Lexer) : ℕ := lexer.line.foldl nextColumn 1

/-- `self.at` moves over this many characters. -/
def advance (lexer : Lexer) (count : ℕ) : Lexer :=
  { lexer with
    rest := lexer.rest.drop count
    offset := lexer.offset + utf8Length (lexer.rest.take count)
    line := lexer.line ++ lexer.rest.take count }

/-- `self.at` moves over all characters of a kind. -/
def advanceWhile (lexer : Lexer) (wanted : Char → Bool) : Lexer :=
  lexer.advance (lexer.rest.takeWhile wanted).length

/-- `self.at` moves over a line break. -/
def newline (lexer : Lexer) : Lexer := { lexer.advance 1 with line := [], sawTokenOnLine := false }

def error (lexer : Lexer) (error : SyntaxError) : Lexer := { lexer with errors := lexer.errors ++ [error] }

/-- An error from a start to the current place. -/
def lexError (lexer : Lexer) (message : String) (start : ℕ) : Lexer :=
  lexer.error (.lex message (span start lexer.offset))

/-- The loop of a block comment; it returns the depth that is left open. -/
def blockComment : ℕ → ℕ → Lexer → ℕ × Lexer
  | 0, depth, lexer => (depth, lexer)
  | fuel + 1, depth, lexer =>
      if depth = 0 then (depth, lexer)
      else
        match lexer.rest with
        | [] => (depth, lexer)
        | '{' :: '-' :: _ => blockComment fuel (depth + 1) (lexer.advance 2)
        | '-' :: '}' :: _ => blockComment fuel (depth - 1) (lexer.advance 2)
        | '\n' :: _ => blockComment fuel depth lexer.newline
        | _ => blockComment fuel depth (lexer.advance 1)

/-- The arm of `skip_trivia` for a block comment. -/
def skipBlockComment (lexer : Lexer) : Lexer :=
  let start := lexer.offset
  let lexer :=
    if lexer.rest[2]? = some '#' then
      lexer.error (.parse "Haskell pragmas are unsupported" (span start (start + 3)))
    else lexer
  let lexer := lexer.advance 2
  let (depth, lexer) := blockComment (lexer.rest.length + 1) 1 lexer
  if depth ≠ 0 then lexer.lexError "unterminated nested block comment" start else lexer

def skipTriviaTurns : ℕ → Lexer → Lexer
  | 0, lexer => lexer
  | fuel + 1, lexer =>
      match lexer.rest with
      | ' ' :: _ | '\r' :: _ | '\t' :: _ => skipTriviaTurns fuel (lexer.advance 1)
      | '\n' :: _ => skipTriviaTurns fuel lexer.newline
      | '-' :: '-' :: _ => skipTriviaTurns fuel ((lexer.advance 2).advanceWhile (· ≠ '\n'))
      | '{' :: '-' :: _ => skipTriviaTurns fuel lexer.skipBlockComment
      | _ => lexer

def skipTrivia (lexer : Lexer) : Lexer := skipTriviaTurns (lexer.rest.length + 1) lexer

/-- The numeric escapes of `decode_char`: the radix and whether the escaped character is a digit itself. -/
def escapeRadix (escaped : Char) : Option (ℕ × Bool) :=
  if escaped = 'x' ∨ escaped = 'X' then some (16, false)
  else if escaped = 'o' ∨ escaped = 'O' then some (8, false)
  else if escaped.isDigit then some (10, true)
  else none

/-- The escapes of one letter of `decode_char`. -/
def simpleEscape (escaped : Char) : Option Char :=
  match escaped with
  | 'a' => some '\x07'
  | 'b' => some '\x08'
  | 'f' => some '\x0c'
  | 'n' => some '\n'
  | 'r' => some '\r'
  | 't' => some '\t'
  | 'v' => some '\x0b'
  | '\\' => some '\\'
  | '\'' => some '\''
  | '"' => some '"'
  | _ => none

/-- The end of `decode_char` for a numeric escape; the lexer stands at the digits. -/
def decodeNumeric (lexer : Lexer) (escapeStart radix : ℕ) (firstIsDigit : Bool) : Option Char × Lexer :=
  let digits := lexer.rest.takeWhile fun character => (toDigit radix character).isSome
  let lexer := lexer.advance digits.length
  if digits = [] ∧ ¬ firstIsDigit then (none, lexer.lexError "numeric escape has no digits" escapeStart)
  else
    match (fromStrRadix radix digits).bind fromU32 with
    | some value => (some value, lexer)
    | none => (none, lexer.lexError "invalid Haskell literal escape" escapeStart)

def decodeChar (lexer : Lexer) (literalStart : ℕ) (delimiter : Char) : Option Char × Lexer :=
  match lexer.rest with
  | [] => (none, lexer.lexError "literal contains no character" literalStart)
  | character :: rest =>
      if character = delimiter then (none, lexer.lexError "literal contains no character" literalStart)
      else if character ≠ '\\' then (some character, lexer.advance 1)
      else
        match rest with
        | [] => (none, lexer.advance 1)
        | escaped :: _ =>
            match simpleEscape escaped with
            | some value => (some value, lexer.advance 2)
            | none =>
                match escapeRadix escaped with
                | some (radix, firstIsDigit) =>
                    decodeNumeric (lexer.advance (if firstIsDigit then 1 else 2)) lexer.offset radix firstIsDigit
                | none =>
                    (none, (lexer.advance 2).lexError "invalid Haskell literal escape" lexer.offset)

def character (lexer : Lexer) (start : ℕ) : TokenKind × Lexer :=
  let (value, lexer) := (lexer.advance 1).decodeChar start '\''
  let lexer :=
    if lexer.rest.head? = some '\'' then lexer.advance 1
    else lexer.lexError "unterminated character literal" start
  (.character (value.getD '\x00'), lexer)

/-- The loop of `string`. -/
def stringTurns (start : ℕ) : ℕ → Lexer → List Char → List Char × Lexer
  | 0, lexer, result => (result, lexer)
  | fuel + 1, lexer, result =>
      match lexer.rest with
      | [] => (result, lexer)
      | '"' :: _ => (result, lexer)
      | '\n' :: _ => (result, lexer.lexError "unterminated text literal" start)
      | '\\' :: '&' :: _ => stringTurns start fuel (lexer.advance 2) result
      | _ =>
          match lexer.decodeChar start '"' with
          | (some value, lexer) => stringTurns start fuel lexer (result ++ [value])
          | (none, lexer) => (result, lexer)

def string (lexer : Lexer) (start : ℕ) : TokenKind × Lexer :=
  let lexer := lexer.advance 1
  let (result, lexer) := stringTurns start (lexer.rest.length + 1) lexer []
  let lexer :=
    if lexer.rest.head? = some '"' then lexer.advance 1 else lexer.lexError "unterminated text literal" start
  (.text (String.ofList result), lexer)

/-- The characters of the source from one state of the lexer to a later one. -/
def sliceTo (lexer later : Lexer) : List Char :=
  lexer.rest.take (lexer.rest.length - later.rest.length)

/-- The digits after the decimal point of a number, and whether there are any. -/
def fractionDigits (lexer : Lexer) : Bool × Lexer :=
  match lexer.rest with
  | '.' :: digit :: _ =>
      if digit.isDigit then (true, (lexer.advance 1).advanceWhile Char.isDigit) else (false, lexer)
  | _ => (false, lexer)

/-- The exponent of a number, and whether there is one. -/
def exponent (lexer : Lexer) (start : ℕ) : Bool × Lexer :=
  match lexer.rest with
  | 'e' :: _ | 'E' :: _ =>
      let lexer := lexer.advance 1
      let lexer := if lexer.rest.head? = some '+' ∨ lexer.rest.head? = some '-' then lexer.advance 1 else lexer
      let after := lexer.advanceWhile Char.isDigit
      (true, if after.offset = lexer.offset then after.lexError "fraction exponent has no digits" start else after)
  | _ => (false, lexer)

def number (lexer : Lexer) : TokenKind × Lexer :=
  let start := lexer.offset
  match lexer.rest with
  | '0' :: 'x' :: _ | '0' :: 'X' :: _ =>
      let prefixed := lexer.advance 2
      let after := prefixed.advanceWhile fun character => (toDigit 16 character).isSome
      let text := String.ofList (lexer.sliceTo after)
      let after :=
        if after.offset = prefixed.offset then after.lexError "hexadecimal literal has no digits" start else after
      (.integer text, after)
  | '0' :: 'o' :: _ | '0' :: 'O' :: _ =>
      let prefixed := lexer.advance 2
      let after := prefixed.advanceWhile fun character => (toDigit 8 character).isSome
      if after.offset = prefixed.offset ∨ after.rest.head?.any Char.isDigit then
        let after := if after.rest.head?.any Char.isDigit then after.advance 1 else after
        (.integer (String.ofList (lexer.sliceTo after)), after.lexError "invalid octal literal" start)
      else (.integer (String.ofList (lexer.sliceTo after)), after)
  | _ =>
      let (fraction, after) := (lexer.advanceWhile Char.isDigit).fractionDigits
      let (exponent, after) := after.exponent start
      let raw := String.ofList (lexer.sliceTo after)
      (if fraction || exponent then .fraction raw else .integer raw, after)

/-- The qualified part of `identifier`: a dot and one more name, as long as there is one. -/
def qualifiedTurns : ℕ → Lexer → Lexer
  | 0, lexer => lexer
  | fuel + 1, lexer =>
      match lexer.rest with
      | '.' :: character :: _ =>
          if isIdentStart character then
            qualifiedTurns fuel ((lexer.advance 2).advanceWhile isIdentContinue)
          else lexer
      | _ => lexer

/-- `identifier`. `char::is_uppercase` is a parameter. -/
def identifier (isUppercase : Char → Bool) (lexer : Lexer) : TokenKind × Lexer :=
  let start := lexer.offset
  let after := (lexer.advance 1).advanceWhile isIdentContinue
  let after := qualifiedTurns (after.rest.length + 1) after
  let characters := lexer.sliceTo after
  let text := String.ofList characters
  if '.' ∈ characters then
    let last := (characters.reverse.takeWhile (· ≠ '.')).reverse
    let after :=
      if (keyword (String.ofList last)).isSome then
        after.error (.parse ("reserved word in qualified name `" ++ text ++ "`") (span start after.offset))
      else after
    (.qualified text, after)
  else
    match keyword text with
    | some kind => (kind, after)
    | none =>
        if text = "_" then (.underscore, after)
        else if characters.head?.any isUppercase then (.upper text, after)
        else (.lower text, after)

def isOperatorCharacter (character : Char) : Bool :=
  character ∈ ['$', '.', '<', '>', '*']

def operator (lexer : Lexer) : TokenKind × Lexer :=
  let after := lexer.advanceWhile isOperatorCharacter
  (.operator (String.ofList (lexer.sliceTo after)), after)

def single (lexer : Lexer) (kind : TokenKind) : TokenKind × Lexer := (kind, lexer.advance 1)

/-- The `match` of `next` on the first byte of a token; `none` is the arm that skips a character. -/
def scan (isUppercase : Char → Bool) (lexer : Lexer) : Option (TokenKind × Lexer) :=
  match lexer.rest with
  | [] => none
  | '(' :: _ => some (lexer.single .lParen)
  | ')' :: _ => some (lexer.single .rParen)
  | '[' :: _ => some (lexer.single .lBracket)
  | ']' :: _ => some (lexer.single .rBracket)
  | '{' :: _ => some (lexer.single .lBrace)
  | '}' :: _ => some (lexer.single .rBrace)
  | ',' :: _ => some (lexer.single .comma)
  | ';' :: _ => some (lexer.single .semicolon)
  | '=' :: _ => some (lexer.single .equals)
  | '\\' :: _ => some (lexer.single .backslash)
  | '@' :: _ => some (lexer.single .atSign)
  | '|' :: _ => some (lexer.single .pipe)
  | ':' :: ':' :: _ => some (.doubleColon, lexer.advance 2)
  | '-' :: '>' :: _ => some (.arrow, lexer.advance 2)
  | '<' :: '-' :: _ => some (.bindArrow, lexer.advance 2)
  | '\'' :: _ => some (lexer.character lexer.offset)
  | '"' :: _ => some (lexer.string lexer.offset)
  | '_' :: rest =>
      if rest.head?.any isIdentContinue then some (lexer.identifier isUppercase)
      else some (.underscore, lexer.advance 1)
  | character :: _ =>
      if character.isDigit then some lexer.number
      else if isIdentStart character then some (lexer.identifier isUppercase)
      else if isOperatorCharacter character then some lexer.operator
      else none

/-- `next`; the recursion of the source skips a character that cannot start a token. -/
def nextTurns (isUppercase : Char → Bool) : ℕ → Lexer → Token × Lexer
  | 0, lexer => (⟨.eof, span lexer.offset lexer.offset, !lexer.sawTokenOnLine, lexer.visualColumn⟩, lexer)
  | fuel + 1, lexer =>
      let lexer := lexer.skipTrivia
      let start := lexer.offset
      let startsLine := !lexer.sawTokenOnLine
      let column := lexer.visualColumn
      if lexer.rest = [] then (⟨.eof, span start start, startsLine, column⟩, lexer)
      else
        let lexer := { lexer with sawTokenOnLine := true }
        match lexer.scan isUppercase with
        | some (kind, after) => (⟨kind, span start after.offset, startsLine, column⟩, after)
        | none =>
            let lexer := (lexer.advance 1).lexError "character cannot start a Hell token" start
            nextTurns isUppercase fuel lexer

/-- `Lexer::next`. -/
def nextToken (isUppercase : Char → Bool) (lexer : Lexer) : Token × Lexer :=
  lexer.nextTurns isUppercase (lexer.rest.length + 1)

/-- The loop of `lex`: tokens up to the end of the file. -/
def tokensTurns (isUppercase : Char → Bool) : ℕ → Lexer → List Token → List Token × Lexer
  | 0, lexer, tokens => (tokens, lexer)
  | fuel + 1, lexer, tokens =>
      let (token, lexer) := lexer.nextToken isUppercase
      if token.kind = .eof then (tokens ++ [token], lexer)
      else tokensTurns isUppercase fuel lexer (tokens ++ [token])

end Lexer

end HellRs.Syntax
