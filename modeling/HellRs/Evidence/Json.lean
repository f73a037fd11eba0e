import HellRs.Lib.Utf8

/-! # JSON of evidence

Evidence records are written in one canonical form. A text is read twice: `strict_json_record` scans the bytes for their structure, and
the parser then makes the value. A scanner has the bytes that are left, and the index of the first of them for its errors.
-/

namespace HellRs.Evidence

open Utf8 (encode decodeFirst decodeFirst_length)

abbrev Text := List Char

/-- The members of an object are those of a `BTreeMap`, in the order of their keys. -/
inductive JsonValue where
  | null
  | bool (value : Bool)
  | number (value : UInt64)
  | string (value : Text)
  | array (values : List JsonValue)
  | object (values : List (Text × JsonValue))

/-- The errors of `strict_json_record`. -/
inductive RecordError where
  | exceedsSize
  | notUtf8
  | containsNul
  | trailingBytes
  | nesting
  | malformed
  | repeatsKey
  | unterminatedString
  | stringNotUtf8
  | truncatedEscape
  | invalidEscape
  | invalidStringEscape
  | leadingZero
  | outOfRange
  | invalidKeyword
  | invalidDelimiter
deriving DecidableEq, Repr

/-- The errors of `parse_json`, with what their texts say. -/
inductive JsonError where
  | record (error : RecordError)
  | trailing (index : ℕ)
  | unexpectedByte (byte : UInt8) (index : ℕ)
  | unexpectedEnd
  | duplicateKey (key : Text)
  | unterminatedString
  | controlByte (index : ℕ)
  | unterminatedEscape
  | invalidEscape (index : ℕ)
  | invalidLeadingByte
  | truncatedUtf8
  | invalidUtf8
  | truncatedUnicodeEscape
  | invalidHexEscape
  | invalidScalar
  | leadingZero
  | numberNotUtf8
  | outOfRange
  | invalidKeyword (index : ℕ)
  | expected (byte : UInt8) (index : ℕ)
deriving DecidableEq, Repr

/-- `std::str::from_utf8`. -/
def fromUtf8 : List UInt8 → Option Text
  | [] => some []
  | first :: bytes =>
    match (decodeFirst first bytes).1 with
    | some character => (fromUtf8 (decodeFirst first bytes).2).map (character :: ·)
    | none => none
termination_by bytes => bytes.length
decreasing_by exact Nat.lt_succ_of_le (decodeFirst_length ..)

/-- `str::parse::<u64>` of decimal digits. -/
def parseU64 (digits : Text) : Option UInt64 :=
  if Nat.ofDigitChars 10 digits 0 < 2 ^ 64 then some (UInt64.ofNat (Nat.ofDigitChars 10 digits 0)) else none

/-- `char::from_u32`. -/
def charFromU32 (value : ℕ) : Option Char :=
  if value < 0xD800 ∨ 0xDFFF < value ∧ value < 0x110000 then some (Char.ofNat value) else none

/-- `BTreeMap::insert`, with the value that the key had before. -/
def insert (key : Text) (value : JsonValue) : List (Text × JsonValue) → List (Text × JsonValue) × Option JsonValue
  | [] => ([(key, value)], none)
  | (key', value') :: members =>
    if key = key' then ((key', value) :: members, some value')
    else if encode key < encode key' then ((key, value) :: (key', value') :: members, none)
    else ((key', value') :: (insert key value members).1, (insert key value members).2)

/-! ## The encoder -/

def pushCharacter (character : Char) : Text :=
  if character = '"' then ['\\', '"']
  else if character = '\\' then ['\\', '\\']
  else if character = '\n' then ['\\', 'n']
  else if character = '\r' then ['\\', 'r']
  else if character = '\t' then ['\\', 't']
  else if character.toNat ≤ 0x1f then '\\' :: 'u' :: (Nat.toDigits 16 character.toNat).leftpad 4 '0'
  else [character]

def pushJsonString (value : Text) : Text := '"' :: value.flatMap pushCharacter ++ ['"']

mutual

def pushJsonValue : JsonValue → Text
  | .null => "null".toList
  | .bool value => if value then "true".toList else "false".toList
  | .number value => Nat.toDigits 10 value.toNat
  | .string value => pushJsonString value
  | .array values => '[' :: pushElements 0 values ++ [']']
  | .object values => '{' :: pushMembers 0 values ++ ['}']

/-- The loop over the values of an array. -/
def pushElements : ℕ → List JsonValue → Text
  | _, [] => []
  | index, value :: values => (if index ≠ 0 then [','] else []) ++ (pushJsonValue value ++ pushElements (index + 1) values)

/-- The loop over the members of an object. -/
def pushMembers : ℕ → List (Text × JsonValue) → Text
  | _, [] => []
  | index, (key, value) :: values =>
    (if index ≠ 0 then [','] else []) ++ (pushJsonString key ++ ':' :: (pushJsonValue value ++ pushMembers (index + 1) values))

end

def canonicalJsonBytes (value : JsonValue) : List UInt8 := encode (pushJsonValue value ++ ['\n'])

/-! ## Scanning bytes -/

structure Cursor where
  index : ℕ
  rest : List UInt8
deriving DecidableEq, Repr

abbrev Scanner (ε : Type) := StateT Cursor (Except ε)

section Scanner

variable {ε : Type}

def isBlank (byte : UInt8) : Bool := byte == 0x20 || byte == 0x0a || byte == 0x0d || byte == 0x09

def isDigit (byte : UInt8) : Bool := 0x30 ≤ byte && byte ≤ 0x39

def peek : Scanner ε (Option UInt8) := fun cursor => .ok (cursor.rest.head?, cursor)

def next : Scanner ε (Option UInt8) := fun cursor =>
  match cursor.rest with
  | [] => .ok (none, cursor)
  | byte :: rest => .ok (some byte, ⟨cursor.index + 1, rest⟩)

/-- The index goes on while the next byte is of a kind. -/
def skipWhile (kind : UInt8 → Bool) : Scanner ε (List UInt8) := fun cursor =>
  .ok (cursor.rest.takeWhile kind, ⟨cursor.index + (cursor.rest.takeWhile kind).length, cursor.rest.dropWhile kind⟩)

def whitespace : Scanner ε Unit := do
  let _ ← skipWhile isBlank

def consume (expected : UInt8) : Scanner ε Bool := fun cursor =>
  match cursor.rest with
  | [] => .ok (false, cursor)
  | byte :: rest => if byte = expected then .ok (true, ⟨cursor.index + 1, rest⟩) else .ok (false, cursor)

def take (fails : UInt8 → ℕ → ε) (expected : UInt8) : Scanner ε Unit := do
  if ← consume expected then return ()
  else throw (fails expected (← get).index)

def keyword (fails : ℕ → ε) (keyword : List UInt8) : Scanner ε Unit := fun cursor =>
  if cursor.rest.take keyword.length = keyword then .ok ((), ⟨cursor.index + keyword.length, cursor.rest.drop keyword.length⟩)
  else .error (fails cursor.index)

/-- The bytes of a number. -/
def digits (leadingZero : ε) : Scanner ε (List UInt8) := do
  if ← consume 0x30 then
    if (← peek).any isDigit then throw leadingZero
    return [0x30]
  else skipWhile isDigit

def number (leadingZero notUtf8 outOfRange : ε) : Scanner ε UInt64 := do
  match fromUtf8 (← digits leadingZero) with
  | none => throw notUtf8
  | some text =>
    match parseU64 text with
    | none => throw outOfRange
    | some value => return value

end Scanner

/-! ## The parser -/

namespace JsonParser

def take : UInt8 → Scanner JsonError Unit := Evidence.take .expected

def keyword (keyword : List UInt8) (value : JsonValue) : Scanner JsonError JsonValue := do
  Evidence.keyword .invalidKeyword keyword
  return value

def number : Scanner JsonError JsonValue := do
  return .number (← Evidence.number .leadingZero .numberNotUtf8 .outOfRange)

def hexNibble (byte : UInt8) : Option ℕ :=
  if 0x30 ≤ byte ∧ byte ≤ 0x39 then some (byte.toNat - 0x30)
  else if 0x61 ≤ byte ∧ byte ≤ 0x66 then some (byte.toNat - 0x61 + 10)
  else if 0x41 ≤ byte ∧ byte ≤ 0x46 then some (byte.toNat - 0x41 + 10)
  else none

/-- The loop of `unicode_escape`. -/
def hexDigits : ℕ → ℕ → Scanner JsonError ℕ
  | 0, value => return value
  | count + 1, value => do
    match ← next with
    | none => throw .truncatedUnicodeEscape
    | some byte =>
      match hexNibble byte with
      | none => throw .invalidHexEscape
      | some nibble => hexDigits count (value * 16 + nibble)

def unicodeEscape : Scanner JsonError Char := do
  match charFromU32 (← hexDigits 4 0) with
  | some character => return character
  | none => throw .invalidScalar

/-- The character that is pushed. -/
def escape : Scanner JsonError Char := do
  match ← next with
  | none => throw .unterminatedEscape
  | some escaped =>
    if escaped = 0x22 then return '"'
    else if escaped = 0x5c then return '\\'
    else if escaped = 0x2f then return '/'
    else if escaped = 0x62 then return '\x08'
    else if escaped = 0x66 then return '\x0c'
    else if escaped = 0x6e then return '\n'
    else if escaped = 0x72 then return '\r'
    else if escaped = 0x74 then return '\t'
    else if escaped = 0x75 then unicodeEscape
    else throw (.invalidEscape (← get).index)

def utf8Width (first : UInt8) : Option ℕ :=
  if 0xc2 ≤ first ∧ first ≤ 0xdf then some 2
  else if 0xe0 ≤ first ∧ first ≤ 0xef then some 3
  else if 0xf0 ≤ first ∧ first ≤ 0xf4 then some 4
  else none

/-- The text that is pushed. -/
def utf8 (first : UInt8) : Scanner JsonError Text := fun cursor =>
  match utf8Width first with
  | none => .error .invalidLeadingByte
  | some width =>
    if cursor.rest.length < width - 1 then .error .truncatedUtf8
    else
      match fromUtf8 (first :: cursor.rest.take (width - 1)) with
      | none => .error .invalidUtf8
      | some text => .ok (text, ⟨cursor.index + (width - 1), cursor.rest.drop (width - 1)⟩)

/-- The loop of `string`. Every turn takes a byte, so without turns no byte is left. -/
def stringLoop : ℕ → Text → Scanner JsonError Text
  | 0, _ => throw .unterminatedString
  | turns + 1, output => do
    match ← next with
    | none => throw .unterminatedString
    | some byte =>
      if byte = 0x22 then return output
      else if byte = 0x5c then stringLoop turns (output ++ [← escape])
      else if byte < 0x20 then throw (.controlByte (← get).index)
      else if byte < 0x80 then stringLoop turns (output ++ [Char.ofNat byte.toNat])
      else stringLoop turns (output ++ (← utf8 byte))

def string : Scanner JsonError Text := do
  take 0x22
  stringLoop (← get).rest.length []

section Loops

variable (value : Scanner JsonError JsonValue)

/-- The loop of `array`. Every turn takes a byte, so without turns no byte is left. -/
def arrayLoop : ℕ → List JsonValue → Scanner JsonError JsonValue
  | 0, _ => throw .unexpectedEnd
  | turns + 1, values => do
    let values := values ++ [← value]
    whitespace
    if ← consume 0x5d then return .array values
    take 0x2c
    arrayLoop turns values

def array : Scanner JsonError JsonValue := do
  take 0x5b
  whitespace
  if ← consume 0x5d then return .array []
  arrayLoop value (← get).rest.length []

/-- The loop of `object`. Every turn takes a byte, so without turns no byte is left. -/
def objectLoop : ℕ → List (Text × JsonValue) → Scanner JsonError JsonValue
  | 0, _ => do throw (.expected 0x22 (← get).index)
  | turns + 1, values => do
    whitespace
    let key ← string
    whitespace
    take 0x3a
    let value ← value
    match insert key value values with
    | (_, some _) => throw (.duplicateKey key)
    | (values, none) => do
      whitespace
      if ← consume 0x7d then return .object values
      take 0x2c
      objectLoop turns values

def object : Scanner JsonError JsonValue := do
  take 0x7b
  whitespace
  if ← consume 0x7d then return .object []
  objectLoop value (← get).rest.length []

end Loops

/-- The fuel is for the levels of nesting. Every level takes a byte. -/
def value : ℕ → Scanner JsonError JsonValue
  | 0 => throw .unexpectedEnd
  | fuel + 1 => do
    whitespace
    match ← peek with
    | some byte =>
      if byte = 0x7b then object (value fuel)
      else if byte = 0x5b then array (value fuel)
      else if byte = 0x22 then return .string (← string)
      else if byte = 0x74 then keyword [0x74, 0x72, 0x75, 0x65] (.bool true)
      else if byte = 0x66 then keyword [0x66, 0x61, 0x6c, 0x73, 0x65] (.bool false)
      else if byte = 0x6e then keyword [0x6e, 0x75, 0x6c, 0x6c] .null
      else if isDigit byte then number
      else throw (.unexpectedByte byte (← get).index)
    | none => throw .unexpectedEnd

end JsonParser

/-! ## The structure of a record -/

namespace StructuralJson

def take : UInt8 → Scanner RecordError Unit := Evidence.take fun _ _ => .invalidDelimiter

def keyword : List UInt8 → Scanner RecordError Unit := Evidence.keyword fun _ => .invalidKeyword

def number : Scanner RecordError Unit := do
  let _ ← Evidence.number .leadingZero .outOfRange .outOfRange

def isHexDigit (byte : UInt8) : Bool := (JsonParser.hexNibble byte).isSome

/-- The loop over the digits of an escape. -/
def hexDigits : ℕ → Scanner RecordError Unit
  | 0 => return ()
  | count + 1 => do
    match ← next with
    | none => throw .truncatedEscape
    | some nibble => if isHexDigit nibble then hexDigits count else throw .invalidEscape

/-- The loop of `string`, which returns the bytes of the body. Every turn takes a byte, so without turns no byte is left. -/
def stringLoop : ℕ → Bool → List UInt8 → Scanner RecordError (List UInt8)
  | 0, _, _ => throw .unterminatedString
  | turns + 1, escaped, body => do
    let before := (← get).rest
    match ← next with
    | none => throw .unterminatedString
    | some byte =>
      if byte = 0x22 ∧ ¬escaped then return body
      else if byte = 0x5c ∧ ¬escaped then stringLoop turns true (body ++ [byte])
      else if byte ∈ [0x22, 0x5c, 0x2f, 0x62, 0x66, 0x6e, 0x72, 0x74] ∧ escaped then stringLoop turns false (body ++ [byte])
      else if byte = 0x75 ∧ escaped then do
        hexDigits 4
        stringLoop turns false (body ++ before.take 5)
      else if escaped ∨ byte < 0x20 then throw .invalidStringEscape
      else stringLoop turns false (body ++ [byte])

def string : Scanner RecordError Text := do
  take 0x22
  match fromUtf8 (← stringLoop (← get).rest.length false []) with
  | none => throw .stringNotUtf8
  | some text => return text

section Loops

variable (value : Scanner RecordError Unit)

/-- The loop of `array`. Every turn takes a byte, so without turns no byte is left. -/
def arrayLoop : ℕ → Scanner RecordError Unit
  | 0 => throw .malformed
  | turns + 1 => do
    value
    whitespace
    if ← consume 0x5d then return ()
    take 0x2c
    arrayLoop turns

def array : Scanner RecordError Unit := do
  take 0x5b
  whitespace
  if ← consume 0x5d then return ()
  arrayLoop value (← get).rest.length

/-- The loop of `object`. Every turn takes a byte, so without turns no byte is left. -/
def objectLoop : ℕ → List Text → Scanner RecordError Unit
  | 0, _ => throw .invalidDelimiter
  | turns + 1, keys => do
    whitespace
    let key ← string
    if key ∈ keys then throw .repeatsKey
    whitespace
    take 0x3a
    value
    whitespace
    if ← consume 0x7d then return ()
    take 0x2c
    objectLoop turns (key :: keys)

def object : Scanner RecordError Unit := do
  take 0x7b
  whitespace
  if ← consume 0x7d then return ()
  objectLoop value (← get).rest.length []

end Loops

/-- `value` at a depth, which may be as many levels deeper as the first argument says. -/
def valueBelow : ℕ → Scanner RecordError Unit
  | 0 => throw .nesting
  | levels + 1 => do
    whitespace
    match ← peek with
    | some byte =>
      if byte = 0x7b then object (valueBelow levels)
      else if byte = 0x5b then array (valueBelow levels)
      else if byte = 0x22 then do
        let _ ← string
      else if byte = 0x74 then keyword [0x74, 0x72, 0x75, 0x65]
      else if byte = 0x66 then keyword [0x66, 0x61, 0x6c, 0x73, 0x65]
      else if byte = 0x6e then keyword [0x6e, 0x75, 0x6c, 0x6c]
      else if isDigit byte then number
      else throw .malformed
    | none => throw .malformed

/-- `value`, which fails at a depth of more than 256. -/
def value (depth : ℕ) : Scanner RecordError Unit := valueBelow (257 - depth)

end StructuralJson

def MAX_RETAINED_JSON_BYTES : ℕ := 64 * 1024 * 1024

def strictJsonRecord (bytes : List UInt8) : Except RecordError Text := do
  if MAX_RETAINED_JSON_BYTES < bytes.length then throw .exceedsSize
  match fromUtf8 bytes with
  | none => throw .notUtf8
  | some document =>
    if 0 ∈ bytes then throw .containsNul
    let (_, cursor) ← ((do StructuralJson.value 0; whitespace) : Scanner RecordError Unit) ⟨0, bytes⟩
    if cursor.rest ≠ [] then throw .trailingBytes
    return document

def parseJson (document : Text) : Except JsonError JsonValue := do
  let document ← (strictJsonRecord (encode document)).mapError .record
  let bytes := encode document
  let (value, cursor) ← (do let value ← JsonParser.value (bytes.length + 1); whitespace; return value : Scanner JsonError JsonValue) ⟨0, bytes⟩
  if cursor.rest ≠ [] then throw (.trailing cursor.index)
  return value

end HellRs.Evidence
