import Mathlib
import HellRs.Lib.Trim

/-! # The strict reader of promotion records

`assignments` reads the lines of a document into texts of values by their qualified keys; an array may take several lines.
The scanners for comments, brackets and elements are separate. Texts are lists of characters, and the ordered map of the
values is a list of pairs, as nothing reads its order. An error says which message it is and what it names.
-/

namespace HellRs.StrictToml

abbrev Text := List Char

inductive TomlError where
  | nul
  | sectionInArray (line : ℕ)
  | invalidSection (line : ℕ)
  | expectedAssignment (line : ℕ)
  | invalidKey (line : ℕ)
  | unterminatedArray (key : Text)
  | duplicateKey (key : Text)
  | unterminatedString
  | unbalancedArray
  | unterminatedArrayString
  | expectedString (observed : Text)
  | escapedString
  | expectedArray (observed : Text)
deriving DecidableEq

/-- A line without the carriage return before its line feed. -/
def stripReturn (line : Text) : Text := if line.getLast? = some '\r' then line.dropLast else line

/-- `str::lines` behind the beginning of a line. -/
def linesFrom (line : Text) : Text → List Text
  | [] => if line = [] then [] else [line]
  | character :: rest =>
    if character = '\n' then stripReturn line :: linesFrom [] rest else linesFrom (line ++ [character]) rest

/-- `str::lines`. -/
def lines (document : Text) : List Text := linesFrom [] document

/-- The loop of `strip_comment`, which returns what it has passed. -/
def stripCommentFrom (quoted escaped : Bool) : Text → Except TomlError Text
  | [] => if quoted then .error .unterminatedString else .ok []
  | character :: rest =>
    if escaped then (character :: ·) <$> stripCommentFrom quoted false rest
    else if character = '\\' && quoted then (character :: ·) <$> stripCommentFrom quoted true rest
    else if character = '"' then (character :: ·) <$> stripCommentFrom (!quoted) false rest
    else if character = '#' && !quoted then .ok []
    else (character :: ·) <$> stripCommentFrom quoted false rest

def stripComment (line : Text) : Except TomlError Text := stripCommentFrom false false line

/-- The loop of `balanced_array`. -/
def balancedArrayFrom (quoted escaped : Bool) (depth : ℕ) : Text → Except TomlError Bool
  | [] => if quoted then .error .unterminatedArrayString else .ok (depth = 0)
  | character :: rest =>
    if escaped then balancedArrayFrom quoted false depth rest
    else if character = '\\' && quoted then balancedArrayFrom quoted true depth rest
    else if character = '"' then balancedArrayFrom (!quoted) false depth rest
    else if character = '[' && !quoted then balancedArrayFrom quoted false (depth + 1) rest
    else if character = ']' && !quoted then
      if depth = 0 then .error .unbalancedArray else balancedArrayFrom quoted false (depth - 1) rest
    else balancedArrayFrom quoted false depth rest

def balancedArray (value : Text) : Except TomlError Bool := balancedArrayFrom false false 0 value

def isKeyByte (character : Char) : Bool := character.isAlphanum || character = '_' || character = '-' || character = '.'

abbrev Values := List (Text × Text)

def insertUnique (values : Values) (key value : Text) : Except TomlError Values :=
  if (values.lookup key).isSome then .error (.duplicateKey key) else .ok (values ++ [(key, value)])

/-- The variables of the loop over the lines. -/
structure Reader where
  values : Values
  section_ : Text
  pending : Option (Text × Text)
deriving DecidableEq

/-- `strip_prefix` and `strip_suffix` with one character each. -/
def stripEnds (first last : Char) (text : Text) : Option Text :=
  match text with
  | [] => none
  | character :: rest =>
    if character = first then if rest.getLast? = some last then some rest.dropLast else none else none

/-- A line within an array. -/
def continueArray (reader : Reader) (lineNumber : ℕ) (key value line : Text) : Except TomlError Reader :=
  if line.head? = some '[' then .error (.sectionInArray lineNumber)
  else do
    let value := (if value = [] then value else value ++ [' ']) ++ line
    if ← balancedArray value then
      return { reader with values := ← insertUnique reader.values key value, pending := none }
    else return { reader with pending := some (key, value) }

def qualify (section_ key : Text) : Text := if section_ = [] then key else section_ ++ '.' :: key

/-- A line with an assignment. -/
def assign (reader : Reader) (lineNumber : ℕ) (line : Text) : Except TomlError Reader :=
  match splitOnce '=' line with
  | none => .error (.expectedAssignment lineNumber)
  | some (key, value) =>
    let key := trim isWhitespace key
    if key = [] ∨ ¬ key.all isKeyByte then .error (.invalidKey lineNumber)
    else do
      let qualified := qualify reader.section_ key
      let value := trim isWhitespace value
      if value.head? = some '[' then
        if ← balancedArray value then
          return { reader with values := ← insertUnique reader.values qualified value }
        else return { reader with pending := some (qualified, value) }
      else return { reader with values := ← insertUnique reader.values qualified value }

/-- A line that is not empty. -/
def readContent (reader : Reader) (lineNumber : ℕ) (line : Text) : Except TomlError Reader :=
  match reader.pending with
  | some (key, value) => continueArray reader lineNumber key value line
  | none =>
    match stripEnds '[' ']' line with
    | some name =>
      if name = [] ∨ ¬ name.all isKeyByte then .error (.invalidSection lineNumber)
      else .ok { reader with section_ := name }
    | none => assign reader lineNumber line

/-- One turn of the loop over the lines. -/
def readLine (reader : Reader) (original : Text × ℕ) : Except TomlError Reader := do
  let stripped ← stripComment original.1
  if trim isWhitespace stripped = [] then return reader
  else readContent reader (original.2 + 1) (trim isWhitespace stripped)

def readLines (reader : Reader) (originals : List (Text × ℕ)) : Except TomlError Reader := originals.foldlM readLine reader

/-- What is returned after the last line. -/
def finish (reader : Reader) : Except TomlError Values :=
  match reader.pending with
  | some (key, _) => .error (.unterminatedArray key)
  | none => .ok reader.values

def assignments (document : Text) : Except TomlError Values :=
  if document.contains '\x00' then .error .nul
  else do finish (← readLines ⟨[], [], none⟩ (lines document).zipIdx)

def string (value : Text) : Except TomlError Text :=
  match stripEnds '"' '"' value with
  | none => .error (.expectedString value)
  | some inner =>
    if inner.any fun character => character = '"' || character = '\\' || character = '\n' || character = '\r' then
      .error .escapedString
    else .ok inner

def stringArray (value : Text) : Except TomlError (List Text) :=
  match stripEnds '[' ']' value with
  | none => .error (.expectedArray value)
  | some inner =>
    let inner := trim isWhitespace inner
    let inner := trim isWhitespace (if inner.getLast? = some ',' then inner.dropLast else inner)
    if inner = [] then .ok [] else (inner.splitOn ',').mapM fun item => string (trim isWhitespace item)

end HellRs.StrictToml
