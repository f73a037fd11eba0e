import Mathlib

/-! # Source files and tokens

A source file is a sequence of Unicode scalar values. Spans count bytes of its UTF-8 encoding and saturate at 32 bits;
the identifier of the file in a span is left out.
-/

namespace HellRs.Syntax

/-- `u32::MAX`. -/
def spanLimit : ℕ := 2 ^ 32 - 1

structure Span where
  start : ℕ
  stop : ℕ
deriving DecidableEq, Repr

/-- `span(source, start, end)`. -/
def span (start stop : ℕ) : Span := ⟨min start spanLimit, min stop spanLimit⟩

def Span.empty (place : ℕ) : Span := ⟨place, place⟩

/-- Number of bytes of the UTF-8 encoding. -/
def utf8Length (characters : List Char) : ℕ := (characters.map Char.utf8Size).sum

structure SourceFile where
  text : List Char
  /-- The characters of the shebang span. -/
  shebang : List Char
deriving DecidableEq, Repr

/-- `SourceMap::add_text`. -/
def SourceFile.ofText (text : List Char) : SourceFile where
  text
  shebang := if ['#', '!'].isPrefixOf text then text.takeWhile (· ≠ '\n') else []

def SourceFile.eofSpan (source : SourceFile) : Span := .empty (min (utf8Length source.text) spanLimit)

inductive TokenKind where
  | lower (text : String)
  | upper (text : String)
  | qualified (text : String)
  | operator (text : String)
  | integer (text : String)
  | fraction (text : String)
  | character (value : Char)
  | text (value : String)
  | kwCase
  | kwData
  | kwDo
  | kwElse
  | kwIf
  | kwLet
  | kwOf
  | kwThen
  | lParen
  | rParen
  | lBracket
  | rBracket
  | lBrace
  | rBrace
  | comma
  | semicolon
  | equals
  | backslash
  | arrow
  | bindArrow
  | doubleColon
  /-- `TokenKind::At`. -/
  | atSign
  | pipe
  | underscore
  | virtualLBrace
  | virtualRBrace
  | virtualSemicolon
  | eof
deriving DecidableEq, Repr

structure Token where
  kind : TokenKind
  span : Span
  startsLine : Bool
  column : ℕ
deriving DecidableEq, Repr

structure SyntaxError where
  code : String
  message : String
  span : Span
deriving DecidableEq, Repr

/-- `SyntaxError::lex`. -/
def SyntaxError.lex (message : String) (span : Span) : SyntaxError := ⟨"H0100", message, span⟩

/-- `SyntaxError::parse`. -/
def SyntaxError.parse (message : String) (span : Span) : SyntaxError := ⟨"H0200", message, span⟩

def keyword (text : String) : Option TokenKind :=
  match text with
  | "case" => some .kwCase
  | "data" => some .kwData
  | "do" => some .kwDo
  | "else" => some .kwElse
  | "if" => some .kwIf
  | "let" => some .kwLet
  | "of" => some .kwOf
  | "then" => some .kwThen
  | _ => none

end HellRs.Syntax
