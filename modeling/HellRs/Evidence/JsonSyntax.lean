import HellRs.Evidence.Json
import HellRs.Lib.Decimal

/-! # Texts of JSON

A concrete syntax tree says how a text is put together: which blanks are where, and how the characters of its strings are spelled. The
parser reads the text of a tree as the tree says.
-/

namespace HellRs.Evidence

open Utf8 (encode decodeFirst decodeFirst_length decodeFirst_encode)

/-! ## Trees -/

structure Blank where
  chars : List Char
  blank : ∀ character ∈ chars, character ∈ [' ', '\n', '\r', '\t']

def noBlank : Blank := ⟨[], nofun⟩

structure HexDigit where
  char : Char
  value : ℕ
  ascii : char.toNat < 128
  isValue : JsonParser.hexNibble (UInt8.ofNat char.toNat) = some value

/-- The letters of escapes, and what they stand for. -/
def shortEscape (letter : Char) : Option Char :=
  match letter with
  | '"' => some '"'
  | '\\' => some '\\'
  | '/' => some '/'
  | 'b' => some '\x08'
  | 'f' => some '\x0c'
  | 'n' => some '\n'
  | 'r' => some '\r'
  | 't' => some '\t'
  | _ => none

/-- A character of a string and how it is spelled. -/
inductive Piece where
  | plain (character : Char) (printable : 0x20 ≤ character.toNat) (notQuote : character ≠ '"') (notEscape : character ≠ '\\')
  | short (letter character : Char) (escape : shortEscape letter = some character)
  | unicode (first second third fourth : HexDigit) (character : Char)
      (valid : charFromU32 (((first.value * 16 + second.value) * 16 + third.value) * 16 + fourth.value) = some character)

namespace Piece

def character : Piece → Char
  | plain character .. => character
  | short _ character _ => character
  | unicode _ _ _ _ character _ => character

def text : Piece → List Char
  | plain character .. => [character]
  | short letter .. => ['\\', letter]
  | unicode first second third fourth .. => ['\\', 'u', first.char, second.char, third.char, fourth.char]

end Piece

abbrev Pieces := List Piece

/-- The characters of a string. -/
def Pieces.decoded (pieces : Pieces) : Text := pieces.map Piece.character

/-- How they are spelled. -/
def Pieces.raw (pieces : Pieces) : Text := pieces.flatMap Piece.text

def Pieces.text (pieces : Pieces) : Text := '"' :: pieces.raw ++ ['"']

structure Numeral where
  digits : Digits
  canonical : digits.chars = ['0'] ∨ digits.chars.head? ≠ some '0'

mutual

inductive Cst where
  | null
  | bool (value : Bool)
  | number (numeral : Numeral)
  | string (pieces : Pieces)
  | emptyArray (blank : Blank)
  | array (before : Blank) (first : Cst) (after : Blank) (rest : Elements)
  | emptyObject (blank : Blank)
  | object (before : Blank) (key : Pieces) (between gap : Blank) (first : Cst) (after : Blank) (rest : Members)

/-- What follows an element of an array. -/
inductive Elements where
  | nil
  | more (before : Blank) (value : Cst) (after : Blank) (rest : Elements)

/-- What follows a member of an object. -/
inductive Members where
  | nil
  | more (before : Blank) (key : Pieces) (between gap : Blank) (value : Cst) (after : Blank) (rest : Members)

end

mutual

def Cst.text : Cst → Text
  | .null => "null".toList
  | .bool value => if value then "true".toList else "false".toList
  | .number numeral => numeral.digits.chars
  | .string pieces => pieces.text
  | .emptyArray blank => '[' :: (blank.chars ++ [']'])
  | .array before first after rest => '[' :: (before.chars ++ (first.text ++ (after.chars ++ rest.text)))
  | .emptyObject blank => '{' :: (blank.chars ++ ['}'])
  | .object before key between gap first after rest =>
    '{' :: (before.chars ++ (key.text ++ (between.chars ++ ':' :: (gap.chars ++ (first.text ++ (after.chars ++ rest.text))))))

def Elements.text : Elements → Text
  | .nil => [']']
  | .more before value after rest => ',' :: (before.chars ++ (value.text ++ (after.chars ++ rest.text)))

def Members.text : Members → Text
  | .nil => ['}']
  | .more before key between gap value after rest =>
    ',' :: (before.chars ++ (key.text ++ (between.chars ++ ':' :: (gap.chars ++ (value.text ++ (after.chars ++ rest.text))))))

end

mutual

/-- The levels of nesting below a tree. -/
def Cst.depth : Cst → ℕ
  | .array _ first _ rest => max first.depth rest.depth + 1
  | .object _ _ _ _ first _ rest => max first.depth rest.depth + 1
  | _ => 0

def Elements.depth : Elements → ℕ
  | .nil => 0
  | .more _ value _ rest => max value.depth rest.depth

def Members.depth : Members → ℕ
  | .nil => 0
  | .more _ _ _ _ value _ rest => max value.depth rest.depth

end

def Elements.count : Elements → ℕ
  | .nil => 0
  | .more _ _ _ rest => rest.count + 1

def Members.count : Members → ℕ
  | .nil => 0
  | .more _ _ _ _ _ _ rest => rest.count + 1

/-- A member is added to an object that has no member with its key. -/
def addMember (key : Text) (value : JsonValue) (values : List (Text × JsonValue)) : Except JsonError (List (Text × JsonValue)) :=
  match insert key value values with
  | (_, some _) => .error (.duplicateKey key)
  | (values, none) => .ok values

mutual

/-- The value of a tree. -/
def Cst.read : Cst → Except JsonError JsonValue
  | .null => .ok .null
  | .bool value => .ok (.bool value)
  | .number numeral =>
    match parseU64 numeral.digits.chars with
    | none => .error .outOfRange
    | some value => .ok (.number value)
  | .string pieces => .ok (.string pieces.decoded)
  | .emptyArray _ => .ok (.array [])
  | .array _ first _ rest => do
    let value ← first.read
    return .array (value :: (← rest.read))
  | .emptyObject _ => .ok (.object [])
  | .object _ key _ _ first _ rest => do
    let value ← first.read
    return .object (← rest.read (← addMember key.decoded value []))

def Elements.read : Elements → Except JsonError (List JsonValue)
  | .nil => .ok []
  | .more _ value _ rest => do
    let value ← value.read
    return value :: (← rest.read)

def Members.read : Members → List (Text × JsonValue) → Except JsonError (List (Text × JsonValue))
  | .nil, values => .ok values
  | .more _ key _ _ value _ rest, values => do
    let value ← value.read
    rest.read (← addMember key.decoded value values)

end

mutual

/-- No object in the tree has two members with the same key, however the keys are spelled. -/
def Cst.KeysOnce : Cst → Prop
  | .array _ first _ rest => first.KeysOnce ∧ rest.KeysOnce
  | .object _ key _ _ first _ rest => first.KeysOnce ∧ rest.KeysOnce ∧ (key.decoded :: rest.keys).Nodup
  | _ => True

def Elements.KeysOnce : Elements → Prop
  | .nil => True
  | .more _ value _ rest => value.KeysOnce ∧ rest.KeysOnce

/-- The same for the values of the members. -/
def Members.KeysOnce : Members → Prop
  | .nil => True
  | .more _ _ _ _ value _ rest => value.KeysOnce ∧ rest.KeysOnce

def Members.keys : Members → List Text
  | .nil => []
  | .more _ key _ _ _ _ rest => key.decoded :: rest.keys

end

/-! ## Reading bytes -/

/-- In front of what may follow, the scanner takes the bytes and comes to a result. -/
def Reads {ε α : Type} (scanner : Scanner ε α) (bytes : List UInt8) (result : Except ε α) (follow : List UInt8 → Prop) : Prop :=
  ∀ index rest, follow rest → ∃ index', scanner ⟨index, bytes ++ rest⟩ = result.map fun value => (value, ⟨index', rest⟩)

def Anything (_ : List UInt8) : Prop := True

/-- What comes next is not of a kind. -/
def Not (kind : UInt8 → Bool) (rest : List UInt8) : Prop := ∀ byte ∈ rest.head?, kind byte = false

namespace Reads

variable {ε α β : Type} {scanner : Scanner ε α} {bytes bytes' : List UInt8} {result : Except ε α} {follow follow' : List UInt8 → Prop}

theorem pure (value : α) : Reads (pure value : Scanner ε α) [] (.ok value) follow := fun index _ _ => ⟨index, rfl⟩

theorem throw (error : ε) : Reads (throw error : Scanner ε α) bytes (.error error) follow := fun index _ _ => ⟨index, rfl⟩

theorem bind {next : α → Scanner ε β} {result' : α → Except ε β} (first : Reads scanner bytes result follow)
    (continues : ∀ value, result = .ok value → Reads (next value) bytes' (result' value) follow')
    (fits : ∀ rest, follow' rest → follow (bytes' ++ rest)) :
    Reads (scanner >>= next) (bytes ++ bytes') (result >>= result') follow' := by
  intro index rest follows
  obtain ⟨index', read⟩ := first index (bytes' ++ rest) (fits rest follows)
  rw [List.append_assoc]
  simp only [Bind.bind, StateT.bind, Except.bind, read]
  cases result with
  | error => exact ⟨index', rfl⟩
  | ok value => exact continues value rfl index' rest follows

/-- A scanner that does not fail first. -/
theorem then_ {next : α → Scanner ε β} {value : α} {result' : Except ε β} (first : Reads scanner bytes (.ok value) follow)
    (continues : Reads (next value) bytes' result' follow') (fits : ∀ rest, follow' rest → follow (bytes' ++ rest)) :
    Reads (scanner >>= next) (bytes ++ bytes') result' follow' := by
  refine @bind _ _ _ _ _ _ _ _ _ next (fun _ => result') first ?_ fits
  intro value' same
  cases same
  exact continues

/-- What a scanner that does not fail has read makes the result. -/
theorem map (first : Reads scanner bytes result follow) (change : α → β) :
    Reads (do return change (← scanner)) bytes (do return change (← result)) follow := by
  have read := @bind _ _ _ _ _ [] _ _ follow (fun value => Pure.pure (change value)) (fun value => .ok (change value)) first
    (fun value _ => pure (change value)) (fun _ => id)
  rwa [List.append_nil] at read

theorem weaken (reads : Reads scanner bytes result follow) (stronger : ∀ rest, follow' rest → follow rest) :
    Reads scanner bytes result follow' := fun index rest follows => reads index rest (stronger rest follows)

theorem next {byte : UInt8} {continues : Option UInt8 → Scanner ε α} (reads : Reads (continues (some byte)) bytes result follow) :
    Reads (Evidence.next >>= continues) (byte :: bytes) result follow := fun index rest follows => reads (index + 1) rest follows

theorem peek {byte : UInt8} {continues : Option UInt8 → Scanner ε α} (reads : Reads (continues (some byte)) (byte :: bytes) result follow) :
    Reads (Evidence.peek >>= continues) (byte :: bytes) result follow := fun index rest follows => reads index rest follows

/-- The number of bytes that are left, as fuel. -/
theorem turns {continues : ℕ → Scanner ε α} (reads : ∀ turns, bytes.length ≤ turns → Reads (continues turns) bytes result follow) :
    Reads (do continues (← get).rest.length) bytes result follow := fun index rest follows =>
  reads (bytes ++ rest).length (by simp) index rest follows

/-- The bytes that are in front, whatever they are used for. -/
theorem before {continues : List UInt8 → Scanner ε α}
    (reads : ∀ rest, follow rest → Reads (continues (bytes ++ rest)) bytes result (· = rest)) :
    Reads (do continues (← get).rest) bytes result follow := fun index rest follows => reads rest follows index rest rfl

theorem consume (byte : UInt8) : Reads (Evidence.consume byte : Scanner ε Bool) [byte] (.ok true) Anything := by
  intro index rest _
  refine ⟨index + 1, ?_⟩
  rw [List.singleton_append, Evidence.consume]
  exact if_pos rfl

theorem consume_not (byte : UInt8) : Reads (Evidence.consume byte : Scanner ε Bool) [] (.ok false) (Not (· == byte)) := by
  intro index rest follows
  refine ⟨index, ?_⟩
  rw [List.nil_append, Evidence.consume]
  cases rest with
  | nil => rfl
  | cons other rest => exact if_neg (by simpa using follows other rfl)

theorem consume_then {byte : UInt8} {yes no : Scanner ε α} (reads : Reads yes bytes result follow) :
    Reads (do if ← Evidence.consume byte then yes else no) (byte :: bytes) result follow :=
  (consume byte).then_ reads fun _ _ => trivial

theorem consume_else {byte : UInt8} {yes no : Scanner ε α} (reads : Reads no bytes result follow)
    (fits : ∀ rest, follow rest → Not (· == byte) (bytes ++ rest)) :
    Reads (do if ← Evidence.consume byte then yes else no) bytes result follow :=
  @then_ _ _ _ _ [] _ _ _ (fun consumed => if consumed = true then yes else no) _ _ (consume_not byte) reads fits

theorem take (fails : UInt8 → ℕ → ε) (byte : UInt8) : Reads (Evidence.take fails byte) [byte] (.ok ()) Anything :=
  @then_ _ _ _ _ _ [] _ _ _ _ _ (consume byte) (pure ()) fun _ => id

theorem keyword (fails : ℕ → ε) (keyword : List UInt8) : Reads (Evidence.keyword fails keyword) keyword (.ok ()) Anything := by
  intro index rest _
  refine ⟨index + keyword.length, ?_⟩
  rw [Evidence.keyword, if_pos (List.take_left' rfl), List.drop_left' rfl]
  rfl

theorem skipWhile {kind : UInt8 → Bool} (all : ∀ byte ∈ bytes, kind byte = true) :
    Reads (Evidence.skipWhile kind : Scanner ε (List UInt8)) bytes (.ok bytes) (Not kind) := by
  intro index rest follows
  have taken : rest.takeWhile kind = [] := by
    cases rest with
    | nil => rfl
    | cons byte rest => exact List.takeWhile_cons_of_neg (by simp [follows byte rfl])
  have dropped : rest.dropWhile kind = rest := by
    cases rest with
    | nil => rfl
    | cons byte rest => exact List.dropWhile_cons_of_neg (by simp [follows byte rfl])
  refine ⟨index + bytes.length, ?_⟩
  rw [Evidence.skipWhile, List.takeWhile_append_of_pos all, List.dropWhile_append_of_pos all, taken, dropped, List.append_nil]
  rfl

end Reads

/-! ## Bytes of characters -/

theorem encode_append (left right : Text) : encode (left ++ right) = encode left ++ encode right := List.flatMap_append

theorem encode_cons (character : Char) (text : Text) : encode (character :: text) = String.utf8EncodeChar character ++ encode text :=
  List.flatMap_cons

theorem encode_nil : encode [] = [] := rfl

theorem utf8EncodeChar_ascii {character : Char} (ascii : character.toNat < 128) :
    String.utf8EncodeChar character = [UInt8.ofNat character.toNat] := by
  rw [String.utf8EncodeChar]
  exact if_pos (by change character.toNat ≤ 127; omega)

theorem fromUtf8_encode (text : Text) : fromUtf8 (encode text) = some text := by
  induction text with
  | nil => rw [encode_nil, fromUtf8]
  | cons character text ih =>
    obtain ⟨first, bytes, spelled, read⟩ := decodeFirst_encode character (encode text)
    rw [encode_cons, spelled, List.cons_append, fromUtf8, read]
    simp only [ih, Option.map_some]

theorem encode_injective {left right : Text} (same : encode left = encode right) : left = right := by
  have read := fromUtf8_encode left
  rw [same, fromUtf8_encode] at read
  exact (Option.some.inj read).symm

theorem byte_le {low value : ℕ} (small : value < 256) (small' : low < 256) : UInt8.ofNat low ≤ UInt8.ofNat value ↔ low ≤ value := by
  rw [UInt8.le_iff_toNat_le, HellRs.Utf8.toNat_ofNat small, HellRs.Utf8.toNat_ofNat small']

theorem utf8Width_ofNat {value : ℕ} (small : value < 256) : JsonParser.utf8Width (UInt8.ofNat value) =
    if 0xc2 ≤ value ∧ value ≤ 0xdf then some 2 else if 0xe0 ≤ value ∧ value ≤ 0xef then some 3
    else if 0xf0 ≤ value ∧ value ≤ 0xf4 then some 4 else none := by
  rw [JsonParser.utf8Width]
  have le (low : ℕ) (isLow : low < 256) : UInt8.ofNat low ≤ UInt8.ofNat value ↔ low ≤ value := byte_le small isLow
  have ge (high : ℕ) (isHigh : high < 256) : UInt8.ofNat value ≤ UInt8.ofNat high ↔ value ≤ high := byte_le isHigh small
  change (if UInt8.ofNat 0xc2 ≤ UInt8.ofNat value ∧ UInt8.ofNat value ≤ UInt8.ofNat 0xdf then _ else
    if UInt8.ofNat 0xe0 ≤ UInt8.ofNat value ∧ UInt8.ofNat value ≤ UInt8.ofNat 0xef then _ else
    if UInt8.ofNat 0xf0 ≤ UInt8.ofNat value ∧ UInt8.ofNat value ≤ UInt8.ofNat 0xf4 then _ else _) = _
  simp only [le, ge, (by decide : 0xc2 < 256), (by decide : 0xdf < 256), (by decide : 0xe0 < 256), (by decide : 0xef < 256),
    (by decide : 0xf0 < 256), (by decide : 0xf4 < 256)]

theorem utf8EncodeChar_wide {character : Char} (wide : 128 ≤ character.toNat) : ∃ first bytes,
    String.utf8EncodeChar character = first :: bytes ∧ JsonParser.utf8Width first = some (bytes.length + 1) ∧
      ∀ byte ∈ first :: bytes, 0x80 ≤ byte := by
  have valid : character.val.toNat < 0xD800 ∨ 0xDFFF < character.val.toNat ∧ character.val.toNat < 0x110000 := character.valid
  have wide : 128 ≤ character.val.toNat := wide
  rw [String.utf8EncodeChar]
  generalize character.val.toNat = code at valid wide ⊢
  have high {value : ℕ} (le : 128 ≤ value) (small : value < 256) : (0x80 : UInt8) ≤ UInt8.ofNat value :=
    (byte_le small (by decide : 128 < 256)).mpr le
  rw [if_neg (by omega)]
  split_ifs with two three
  · refine ⟨_, _, rfl, ?_, ?_⟩
    · rw [utf8Width_ofNat (by omega), if_pos (by omega)]
      rfl
    · simp only [List.forall_mem_cons, List.not_mem_nil, false_implies, implies_true, and_true]
      exact ⟨high (by omega) (by omega), high (by omega) (by omega)⟩
  · refine ⟨_, _, rfl, ?_, ?_⟩
    · rw [utf8Width_ofNat (by omega), if_neg (by omega), if_pos (by omega)]
      rfl
    · simp only [List.forall_mem_cons, List.not_mem_nil, false_implies, implies_true, and_true]
      exact ⟨high (by omega) (by omega), high (by omega) (by omega), high (by omega) (by omega)⟩
  · refine ⟨_, _, rfl, ?_, ?_⟩
    · rw [utf8Width_ofNat (by omega), if_neg (by omega), if_neg (by omega), if_pos (by omega)]
      rfl
    · simp only [List.forall_mem_cons, List.not_mem_nil, false_implies, implies_true, and_true]
      exact ⟨high (by omega) (by omega), high (by omega) (by omega), high (by omega) (by omega), high (by omega) (by omega)⟩

/-! ## Strings -/

section Strings

variable {follow : List UInt8 → Prop}

theorem HexDigit.read (digit : HexDigit) {count value : ℕ} {bytes : List UInt8} {result : Except JsonError ℕ}
    (continues : Reads (JsonParser.hexDigits count (value * 16 + digit.value)) bytes result follow) :
    Reads (JsonParser.hexDigits (count + 1) value) (encode [digit.char] ++ bytes) result follow := by
  rw [encode_cons, encode_nil, utf8EncodeChar_ascii digit.ascii, List.append_nil, List.singleton_append, JsonParser.hexDigits]
  refine Reads.next ?_
  simp only [digit.isValue]
  exact continues

/-- The escape of a character, without the sign that begins it. -/
theorem reads_escape_short {letter character : Char} (escape : shortEscape letter = some character) :
    Reads JsonParser.escape (encode [letter]) (.ok character) follow := by
  rw [JsonParser.escape]
  unfold shortEscape at escape
  split at escape <;> cases escape <;> exact Reads.next (Reads.pure _)

theorem reads_escape_unicode (first second third fourth : HexDigit) {character : Char}
    (valid : charFromU32 (((first.value * 16 + second.value) * 16 + third.value) * 16 + fourth.value) = some character) :
    Reads JsonParser.escape (encode ['u', first.char, second.char, third.char, fourth.char]) (.ok character) Anything := by
  have spelled : encode ['u', first.char, second.char, third.char, fourth.char] =
      0x75 :: ((encode [first.char] ++ (encode [second.char] ++ (encode [third.char] ++ (encode [fourth.char] ++ [])))) ++ []) := by
    simp only [encode_cons, encode_nil, List.append_nil]
    rfl
  rw [spelled, JsonParser.escape]
  refine Reads.next ?_
  have digits : Reads (JsonParser.hexDigits 4 0)
      (encode [first.char] ++ (encode [second.char] ++ (encode [third.char] ++ (encode [fourth.char] ++ []))))
      (.ok (((first.value * 16 + second.value) * 16 + third.value) * 16 + fourth.value)) Anything := by
    refine first.read (second.read (third.read (fourth.read ?_)))
    rw [Nat.zero_mul, Nat.zero_add]
    exact Reads.pure _
  change Reads JsonParser.unicodeEscape _ _ _
  rw [JsonParser.unicodeEscape]
  refine digits.then_ ?_ fun _ => id
  rw [valid]
  exact Reads.pure _

/-- The bytes of a character that is not spelled with an escape. -/
theorem reads_utf8 {character : Char} {first : UInt8} {bytes : List UInt8} (spelled : String.utf8EncodeChar character = first :: bytes)
    (width : JsonParser.utf8Width first = some (bytes.length + 1)) : Reads (JsonParser.utf8 first) bytes (.ok [character]) follow := by
  intro index rest _
  refine ⟨index + bytes.length, ?_⟩
  have read := fromUtf8_encode [character]
  rw [encode_cons, encode_nil, List.append_nil, spelled] at read
  simp only [JsonParser.utf8, width, Nat.add_sub_cancel]
  rw [if_neg (by simp), List.take_left' rfl, List.drop_left' rfl, read]
  rfl

theorem byte_ne {value other : ℕ} (small : value < 256) (small' : other < 256) (different : value ≠ other) :
    UInt8.ofNat value ≠ UInt8.ofNat other := by
  intro same
  have equal := congrArg UInt8.toNat same
  rw [HellRs.Utf8.toNat_ofNat small, HellRs.Utf8.toNat_ofNat small'] at equal
  exact different equal

theorem Piece.read (piece : Piece) {turns : ℕ} {output : Text} {bytes : List UInt8} {result : Except JsonError Text}
    (continues : Reads (JsonParser.stringLoop turns (output ++ [piece.character])) bytes result follow) :
    Reads (JsonParser.stringLoop (turns + 1) output) (encode piece.text ++ bytes) result follow := by
  rw [JsonParser.stringLoop]
  cases piece with
  | plain character printable notQuote notEscape =>
    have quote : character.toNat ≠ 0x22 := fun same => notQuote (Char.toNat_inj.mp same)
    have escape : character.toNat ≠ 0x5c := fun same => notEscape (Char.toNat_inj.mp same)
    change Reads _ (encode [character] ++ bytes) _ _
    rw [encode_cons, encode_nil, List.append_nil]
    by_cases ascii : character.toNat < 128
    · rw [utf8EncodeChar_ascii ascii, List.singleton_append]
      refine Reads.next ?_
      have notQuote : UInt8.ofNat character.toNat ≠ 0x22 := byte_ne (by omega) (by decide : 0x22 < 256) quote
      have notEscape : UInt8.ofNat character.toNat ≠ 0x5c := byte_ne (by omega) (by decide : 0x5c < 256) escape
      have notControl : ¬UInt8.ofNat character.toNat < 0x20 := UInt8.not_lt.mpr ((byte_le (by omega) (by decide : 0x20 < 256)).mpr printable)
      have isAscii : UInt8.ofNat character.toNat < 0x80 := by
        rw [UInt8.lt_iff_toNat_lt, HellRs.Utf8.toNat_ofNat (by omega)]
        exact ascii
      have same : Char.ofNat (UInt8.ofNat character.toNat).toNat = character := by
        rw [HellRs.Utf8.toNat_ofNat (by omega), Char.ofNat_toNat]
      dsimp only
      rw [if_neg notQuote, if_neg notEscape, if_neg notControl, if_pos isAscii, same]
      exact continues
    · obtain ⟨first, more, spelled, width, high⟩ := utf8EncodeChar_wide (Nat.not_lt.mp ascii)
      have isHigh := high first (List.mem_cons_self ..)
      rw [UInt8.le_iff_toNat_le] at isHigh
      change 128 ≤ first.toNat at isHigh
      rw [spelled, List.cons_append]
      refine Reads.next ?_
      have notQuote : first ≠ 0x22 := fun same => by subst same; exact absurd isHigh (by decide)
      have notEscape : first ≠ 0x5c := fun same => by subst same; exact absurd isHigh (by decide)
      have notControl : ¬first < 0x20 := fun less => by
        rw [UInt8.lt_iff_toNat_lt] at less
        change first.toNat < 32 at less
        omega
      have notAscii : ¬first < 0x80 := fun less => by
        rw [UInt8.lt_iff_toNat_lt] at less
        change first.toNat < 128 at less
        omega
      dsimp only
      rw [if_neg notQuote, if_neg notEscape, if_neg notControl, if_neg notAscii]
      exact (@reads_utf8 Anything _ _ _ spelled width).then_ continues fun _ _ => trivial
  | short letter character escape =>
    change Reads _ (0x5c :: (encode [letter] ++ bytes)) _ _
    refine Reads.next ?_
    exact (@reads_escape_short Anything _ _ escape).then_ continues fun _ _ => trivial
  | unicode first second third fourth character valid =>
    change Reads _ (0x5c :: (encode ['u', first.char, second.char, third.char, fourth.char] ++ bytes)) _ _
    refine Reads.next ?_
    exact (reads_escape_unicode first second third fourth valid).then_ continues fun _ _ => trivial

theorem Pieces.read (pieces : Pieces) : Reads JsonParser.string (encode pieces.text) (.ok pieces.decoded) follow := by
  have loop : ∀ (pieces : Pieces) (turns : ℕ) (output : Text), (encode (pieces.raw ++ ['"'])).length ≤ turns →
      Reads (JsonParser.stringLoop turns output) (encode (pieces.raw ++ ['"'])) (.ok (output ++ pieces.decoded)) follow := by
    intro pieces
    induction pieces with
    | nil =>
      intro turns output enough
      obtain ⟨turns, rfl⟩ : ∃ more, turns = more + 1 := ⟨turns - 1, by change 1 ≤ turns at enough; omega⟩
      rw [Pieces.decoded, List.map_nil, List.append_nil]
      exact Reads.next (Reads.pure output)
    | cons piece pieces ih =>
      intro turns output enough
      have split : encode (Pieces.raw (piece :: pieces) ++ ['"']) = encode piece.text ++ encode (Pieces.raw pieces ++ ['"']) := by
        rw [Pieces.raw, List.flatMap_cons, List.append_assoc, encode_append]
        rfl
      have some_ : 0 < (encode piece.text).length := by
        cases piece with
        | plain character =>
          change 0 < (encode [character]).length
          rw [encode_cons, List.length_append, String.length_utf8EncodeChar]
          have positive := character.utf8Size_pos
          omega
        | short => exact Nat.succ_pos _
        | unicode => exact Nat.succ_pos _
      rw [split] at enough ⊢
      rw [List.length_append] at enough
      obtain ⟨turns, rfl⟩ : ∃ more, turns = more + 1 := ⟨turns - 1, by omega⟩
      refine piece.read ?_
      have rest := ih turns (output ++ [piece.character]) (by omega)
      rwa [List.append_assoc] at rest
  rw [JsonParser.string]
  change Reads _ ([0x22] ++ encode (pieces.raw ++ ['"'])) _ _
  refine (Reads.take JsonError.expected 0x22).then_ ?_ fun _ _ => trivial
  exact Reads.turns fun turns enough => loop pieces turns [] enough

end Strings

/-! ## Blanks and numbers -/

section Scalars

variable {ε : Type}

theorem encode_blank (blank : Blank) : ∀ byte ∈ encode blank.chars, isBlank byte = true := by
  intro byte member
  obtain ⟨character, isChar, isByte⟩ := List.mem_flatMap.mp member
  have isBlank := blank.blank character isChar
  simp only [List.mem_cons, List.not_mem_nil, or_false] at isBlank
  rcases isBlank with rfl | rfl | rfl | rfl <;> (cases List.mem_singleton.mp isByte; rfl)

theorem reads_whitespace (blank : Blank) : Reads (whitespace : Scanner ε Unit) (encode blank.chars) (.ok ()) (Not isBlank) := by
  have skipped := (@Reads.skipWhile ε _ isBlank (encode_blank blank)).map fun _ => ()
  exact skipped

theorem encode_ascii {text : Text} (ascii : ∀ character ∈ text, character.toNat < 128) :
    encode text = text.map fun character => UInt8.ofNat character.toNat := by
  induction text with
  | nil => rfl
  | cons character text ih =>
    rw [encode_cons, utf8EncodeChar_ascii (ascii character (List.mem_cons_self ..)),
      ih fun other member => ascii other (List.mem_cons_of_mem _ member)]
    rfl

theorem digit_bounds {character : Char} (isDigit : character.isDigit = true) : 0x30 ≤ character.toNat ∧ character.toNat ≤ 0x39 := by
  simp only [Char.isDigit, Bool.and_eq_true, decide_eq_true_eq, UInt32.le_iff_toNat_le] at isDigit
  exact isDigit

theorem isDigit_ofNat {character : Char} (digit : character.isDigit = true) : isDigit (UInt8.ofNat character.toNat) = true := by
  obtain ⟨low, high⟩ := digit_bounds digit
  rw [isDigit, Bool.and_eq_true, decide_eq_true_eq, decide_eq_true_eq]
  exact ⟨(byte_le (by omega) (by decide : 0x30 < 256)).mpr low, (byte_le (by decide : 0x39 < 256) (by omega)).mpr high⟩

/-- The digits of a numeral as bytes. -/
theorem encode_digits (numeral : Numeral) : ∃ byte bytes, encode numeral.digits.chars = byte :: bytes ∧
    (∀ other ∈ byte :: bytes, isDigit other = true) ∧ (byte = 0x30 → bytes = []) := by
  obtain ⟨⟨chars, nonempty, areDigits⟩, canonical⟩ := numeral
  have ascii : ∀ character ∈ chars, character.toNat < 128 := fun character member => by
    have bounds := digit_bounds (areDigits character member)
    omega
  dsimp only at canonical ⊢
  rw [encode_ascii ascii]
  cases chars with
  | nil => exact absurd rfl nonempty
  | cons first chars =>
    refine ⟨_, _, rfl, ?_, ?_⟩
    · intro other member
      change other ∈ List.map (fun character => UInt8.ofNat character.toNat) (first :: chars) at member
      obtain ⟨character, isChar, rfl⟩ := List.mem_map.mp member
      exact isDigit_ofNat (areDigits character isChar)
    · intro zero
      rcases canonical with single | leading
      · cases single
        rfl
      · have bounds := digit_bounds (areDigits first (List.mem_cons_self ..))
        have isZero : first.toNat = 0x30 := by
          by_contra different
          exact byte_ne (by omega) (by decide : 0x30 < 256) different zero
        exact absurd (congrArg some (Char.toNat_inj.mp isZero : first = '0')) leading

theorem reads_digits (leadingZero : ε) (numeral : Numeral) :
    Reads (digits leadingZero) (encode numeral.digits.chars) (.ok (encode numeral.digits.chars)) (Not isDigit) := by
  obtain ⟨byte, bytes, spelled, areDigits, single⟩ := encode_digits numeral
  rw [spelled, digits]
  by_cases zero : byte = 0x30
  · cases single zero
    subst zero
    intro index rest follows
    have peeked : (rest.head?).any isDigit = false := by
      cases rest with
      | nil => rfl
      | cons other rest => exact follows other rfl
    refine ⟨index + 1, ?_⟩
    change (if (rest.head?).any isDigit = true then throw leadingZero else pure [0x30] : Scanner ε (List UInt8)) ⟨index + 1, rest⟩ = _
    rw [if_neg (by rw [peeked]; decide)]
    rfl
  · refine (Reads.consume_not 0x30).then_ (Reads.skipWhile areDigits) fun rest _ other isFirst => ?_
    cases isFirst
    exact beq_false_of_ne zero

theorem reads_number (leadingZero notUtf8 outOfRange : ε) (numeral : Numeral) :
    Reads (number leadingZero notUtf8 outOfRange) (encode numeral.digits.chars)
      (match parseU64 numeral.digits.chars with | none => .error outOfRange | some value => .ok value) (Not isDigit) := by
  rw [number, ← List.append_nil (encode numeral.digits.chars)]
  refine (reads_digits leadingZero numeral).then_ ?_ fun _ => id
  rw [fromUtf8_encode]
  dsimp only
  cases parseU64 numeral.digits.chars with
  | none => exact Reads.throw _
  | some value => exact Reads.pure _

end Scalars

/-! ## Trees -/

namespace JsonParser

/-- What `value` does with the first byte. -/
def dispatch (below : Scanner JsonError JsonValue) (byte : UInt8) : Scanner JsonError JsonValue :=
  if byte = 0x7b then object below
  else if byte = 0x5b then array below
  else if byte = 0x22 then do return .string (← string)
  else if byte = 0x74 then keyword [0x74, 0x72, 0x75, 0x65] (.bool true)
  else if byte = 0x66 then keyword [0x66, 0x61, 0x6c, 0x73, 0x65] (.bool false)
  else if byte = 0x6e then keyword [0x6e, 0x75, 0x6c, 0x6c] .null
  else if isDigit byte then number
  else do throw (.unexpectedByte byte (← get).index)

theorem value_succ (fuel : ℕ) : value (fuel + 1) = (do
    whitespace
    match ← peek with
    | some byte => dispatch (value fuel) byte
    | none => throw .unexpectedEnd) := rfl

/-- What follows a value in an array. -/
def arrayRest (value : Scanner JsonError JsonValue) (turns : ℕ) (values : List JsonValue) : Scanner JsonError JsonValue := do
  whitespace
  if ← consume 0x5d then return .array values
  take 0x2c
  arrayLoop value turns values

theorem arrayLoop_succ (value : Scanner JsonError JsonValue) (turns : ℕ) (values : List JsonValue) :
    arrayLoop value (turns + 1) values = (do
      let found ← value
      arrayRest value turns (values ++ [found])) := rfl

/-- What follows a member in an object. -/
def objectRest (value : Scanner JsonError JsonValue) (turns : ℕ) (values : List (Text × JsonValue)) : Scanner JsonError JsonValue := do
  whitespace
  if ← consume 0x7d then return .object values
  take 0x2c
  objectLoop value turns values

/-- The member that begins with a key. -/
def memberRest (value : Scanner JsonError JsonValue) (turns : ℕ) (key : Text) (values : List (Text × JsonValue)) :
    Scanner JsonError JsonValue := do
  whitespace
  take 0x3a
  let found ← value
  match insert key found values with
  | (_, some _) => throw (.duplicateKey key)
  | (values, none) => objectRest value turns values

theorem objectLoop_succ (value : Scanner JsonError JsonValue) (turns : ℕ) (values : List (Text × JsonValue)) :
    objectLoop value (turns + 1) values = (do
      whitespace
      let key ← string
      memberRest value turns key values) := rfl

end JsonParser

section Trees

variable {follow : List UInt8 → Prop}

theorem not_cons {kind : UInt8 → Bool} {byte : UInt8} (isNot : kind byte = false) (bytes : List UInt8) : Not kind (byte :: bytes) := by
  intro other isFirst
  cases isFirst
  exact isNot

theorem isBlank_of_isDigit {byte : UInt8} (digit : isDigit byte = true) : isBlank byte = false := by
  rw [isDigit, Bool.and_eq_true, decide_eq_true_eq, UInt8.le_iff_toNat_le] at digit
  have low : 0x30 ≤ byte.toNat := digit.1
  simp only [isBlank, Bool.or_eq_false_iff, beq_eq_false_iff_ne]
  refine ⟨⟨⟨?_, ?_⟩, ?_⟩, ?_⟩ <;> (rintro rfl; exact absurd low (by decide))

theorem digit_ne {byte other : UInt8} (digit : isDigit byte = true) (outside : other.toNat < 0x30 ∨ 0x39 < other.toNat) : byte ≠ other := by
  rw [isDigit, Bool.and_eq_true, decide_eq_true_eq, decide_eq_true_eq, UInt8.le_iff_toNat_le, UInt8.le_iff_toNat_le] at digit
  have bounds : 0x30 ≤ byte.toNat ∧ byte.toNat ≤ 0x39 := digit
  rintro rfl
  omega

section Equations

-- Made here once, and not by each proof that rewrites with them.
attribute [local simp] Cst.text Elements.text Members.text Elements.count Members.count

end Equations

/-- The first byte of a tree. -/
theorem Cst.encode_text (tree : Cst) : ∃ byte bytes, encode tree.text = byte :: bytes ∧ isBlank byte = false ∧ byte ≠ 0x5d ∧ byte ≠ 0x7d := by
  cases tree with
  | number numeral =>
    obtain ⟨byte, bytes, spelled, areDigits, -⟩ := encode_digits numeral
    have digit := areDigits byte (List.mem_cons_self ..)
    refine ⟨byte, bytes, by rw [Cst.text, spelled], isBlank_of_isDigit digit, ?_, ?_⟩ <;> (rintro rfl; exact absurd digit (by decide))
  | bool value => cases value <;> exact ⟨_, _, rfl, by decide, by decide, by decide⟩
  | null => exact ⟨_, _, rfl, by decide, by decide, by decide⟩
  | string => exact ⟨0x22, _, rfl, by decide, by decide, by decide⟩
  | emptyArray | array => exact ⟨0x5b, _, by rw [Cst.text]; rfl, by decide, by decide, by decide⟩
  | emptyObject | object => exact ⟨0x7b, _, by rw [Cst.text]; rfl, by decide, by decide, by decide⟩

theorem reads_value (blank : Blank) (tree : Cst) {fuel : ℕ} {result : Except JsonError JsonValue}
    (reads : ∀ byte bytes, encode tree.text = byte :: bytes → Reads (JsonParser.dispatch (JsonParser.value fuel) byte) (byte :: bytes) result follow) :
    Reads (JsonParser.value (fuel + 1)) (encode blank.chars ++ encode tree.text) result follow := by
  obtain ⟨byte, bytes, spelled, notBlank, -⟩ := tree.encode_text
  rw [JsonParser.value_succ, spelled]
  exact (reads_whitespace blank).then_ (Reads.peek (reads byte bytes spelled)) fun rest _ => not_cons notBlank (bytes ++ rest)

theorem length_encode_pos (tree : Cst) : 0 < (encode tree.text).length := by
  obtain ⟨byte, bytes, spelled, -⟩ := tree.encode_text
  rw [spelled]
  exact Nat.succ_pos _

theorem Elements.count_lt : ∀ rest : Elements, rest.count < (encode rest.text).length
  | .nil => Nat.succ_pos _
  | .more before value after rest => by
    have fewer := rest.count_lt
    have some_ := length_encode_pos value
    rw [Elements.count, Elements.text]
    simp only [encode_cons, encode_append, List.length_append, String.length_utf8EncodeChar]
    have comma : Char.utf8Size ',' = 1 := rfl
    omega

theorem Members.count_lt : ∀ rest : Members, rest.count < (encode rest.text).length
  | .nil => Nat.succ_pos _
  | .more before key between gap value after rest => by
    have fewer := rest.count_lt
    have some_ := length_encode_pos value
    rw [Members.count, Members.text]
    simp only [encode_cons, encode_append, List.length_append, String.length_utf8EncodeChar]
    have comma : Char.utf8Size ',' = 1 := rfl
    omega

/-! ## The parser reads trees -/

theorem not_digit_of_blank {byte : UInt8} (blank : isBlank byte = true) : isDigit byte = false := by
  cases digit : isDigit byte with
  | false => rfl
  | true =>
    rw [isBlank_of_isDigit digit] at blank
    cases blank

/-- What follows a value is not a digit. -/
theorem after_not_digit (after : Blank) {byte : UInt8} (notDigit : isDigit byte = false) (bytes : List UInt8) :
    Not isDigit (encode after.chars ++ byte :: bytes) := by
  have areBlank := encode_blank after
  generalize encode after.chars = blanks at areBlank
  cases blanks with
  | nil => exact not_cons notDigit bytes
  | cons blank blanks => exact not_cons (not_digit_of_blank (areBlank blank (List.mem_cons_self ..))) _

theorem Elements.encode_text (rest : Elements) : ∃ byte bytes, encode rest.text = byte :: bytes ∧ isBlank byte = false ∧ isDigit byte = false := by
  cases rest with
  | nil => exact ⟨0x5d, [], rfl, by decide, by decide⟩
  | more => exact ⟨0x2c, _, by rw [Elements.text]; rfl, by decide, by decide⟩

theorem Members.encode_text (rest : Members) : ∃ byte bytes, encode rest.text = byte :: bytes ∧ isBlank byte = false ∧ isDigit byte = false := by
  cases rest with
  | nil => exact ⟨0x7d, [], rfl, by decide, by decide⟩
  | more => exact ⟨0x2c, _, by rw [Members.text]; rfl, by decide, by decide⟩

theorem encode_emptyArray (blank : Blank) : encode (Cst.emptyArray blank).text = [0x5b] ++ (encode blank.chars ++ [0x5d]) := by
  rw [Cst.text, encode_cons, encode_append]
  rfl

theorem encode_emptyObject (blank : Blank) : encode (Cst.emptyObject blank).text = [0x7b] ++ (encode blank.chars ++ [0x7d]) := by
  rw [Cst.text, encode_cons, encode_append]
  rfl

theorem encode_array (before : Blank) (first : Cst) (after : Blank) (rest : Elements) : encode (Cst.array before first after rest).text =
    [0x5b] ++ (encode before.chars ++ (encode first.text ++ (encode after.chars ++ encode rest.text))) := by
  rw [Cst.text, encode_cons, encode_append, encode_append, encode_append]
  rfl

theorem encode_more (before : Blank) (value : Cst) (after : Blank) (rest : Elements) : encode (Elements.more before value after rest).text =
    [0x2c] ++ ((encode before.chars ++ encode value.text) ++ (encode after.chars ++ encode rest.text)) := by
  rw [Elements.text, encode_cons, encode_append, encode_append, encode_append, List.append_assoc]
  rfl

/-- An array loop reads a value and what follows it. -/
theorem reads_arrayLoop {value : Scanner JsonError JsonValue} {bytes : List UInt8} {after : Blank} {rest : Elements} {turns : ℕ}
    {values : List JsonValue} {result : Except JsonError JsonValue} (first : Reads value bytes result (Not isDigit))
    (continues : ∀ found, Reads (JsonParser.arrayRest value turns (values ++ [found])) (encode after.chars ++ encode rest.text)
      (do return .array (values ++ [found] ++ (← rest.read))) Anything) :
    Reads (JsonParser.arrayLoop value (turns + 1) values) (bytes ++ (encode after.chars ++ encode rest.text))
      (do let found ← result; return .array (values ++ found :: (← rest.read))) Anything := by
  rw [JsonParser.arrayLoop_succ]
  refine first.bind (fun found _ => ?_) fun more _ => ?_
  · have read := continues found
    simp only [List.append_assoc, List.singleton_append] at read
    exact read
  · obtain ⟨byte, bytes', spelled, -, notDigit⟩ := rest.encode_text
    rw [spelled, List.append_assoc]
    exact after_not_digit after notDigit _

theorem encode_member (key : Pieces) (between gap : Blank) (value : Cst) (after : Blank) (rest : Members) :
    encode (key.text ++ (between.chars ++ ':' :: (gap.chars ++ (value.text ++ (after.chars ++ rest.text))))) =
      encode key.text ++ (encode between.chars ++ ([0x3a] ++ ((encode gap.chars ++ encode value.text) ++
        (encode after.chars ++ encode rest.text)))) := by
  rw [encode_append, encode_append, encode_cons, encode_append, encode_append, encode_append, List.append_assoc]
  rfl

theorem encode_object (before : Blank) (key : Pieces) (between gap : Blank) (first : Cst) (after : Blank) (rest : Members) :
    encode (Cst.object before key between gap first after rest).text =
      [0x7b] ++ (encode before.chars ++ (encode key.text ++ (encode between.chars ++ ([0x3a] ++
        ((encode gap.chars ++ encode first.text) ++ (encode after.chars ++ encode rest.text)))))) := by
  rw [Cst.text, encode_cons, encode_append, encode_member]
  rfl

theorem encode_moreMembers (before : Blank) (key : Pieces) (between gap : Blank) (value : Cst) (after : Blank) (rest : Members) :
    encode (Members.more before key between gap value after rest).text =
      [0x2c] ++ (encode before.chars ++ (encode key.text ++ (encode between.chars ++ ([0x3a] ++
        ((encode gap.chars ++ encode value.text) ++ (encode after.chars ++ encode rest.text)))))) := by
  rw [Members.text, encode_cons, encode_append, encode_member]
  rfl

/-- An object loop reads a member and what follows it. -/
theorem reads_objectLoop {value : Scanner JsonError JsonValue} {before : Blank} {key : Pieces} {between after : Blank} {rest : Members}
    {turns : ℕ} {values : List (Text × JsonValue)} {bytes : List UInt8} {result : Except JsonError JsonValue}
    (first : Reads value bytes result (Not isDigit))
    (continues : ∀ values, Reads (JsonParser.objectRest value turns values) (encode after.chars ++ encode rest.text)
      (do return .object (← rest.read values)) Anything) :
    Reads (JsonParser.objectLoop value (turns + 1) values)
      (encode before.chars ++ (encode key.text ++ (encode between.chars ++ ([0x3a] ++ (bytes ++ (encode after.chars ++ encode rest.text))))))
      (do
        let found ← result
        return .object (← rest.read (← addMember key.decoded found values))) Anything := by
  rw [JsonParser.objectLoop_succ]
  refine (reads_whitespace before).then_ ?_ fun _ _ => not_cons (by decide) _
  refine (@Pieces.read Anything key).then_ ?_ fun _ _ => trivial
  rw [JsonParser.memberRest]
  refine (reads_whitespace between).then_ ?_ fun _ _ => not_cons (by decide) _
  refine (Reads.take JsonError.expected 0x3a).then_ ?_ fun _ _ => trivial
  refine first.bind (fun found _ => ?_) fun more _ => ?_
  · rw [addMember]
    rcases insert key.decoded found values with ⟨values', _ | old⟩
    · exact continues values'
    · exact Reads.throw _
  · obtain ⟨byte, bytes', spelled, -, notDigit⟩ := rest.encode_text
    rw [spelled, List.append_assoc]
    exact after_not_digit after notDigit _

mutual

theorem Cst.parse : ∀ (tree : Cst) {fuel : ℕ}, tree.depth < fuel → ∀ blank : Blank,
    Reads (JsonParser.value fuel) (encode blank.chars ++ encode tree.text) tree.read (Not isDigit)
  | _, 0, less, _ => absurd less (Nat.not_lt_zero _)
  | .array before first after rest, fuel + 1, less, blank => by
    refine reads_value blank (.array before first after rest) fun byte bytes spelled => ?_
    rw [← spelled, encode_array]
    have isByte : byte = 0x5b := by
      rw [encode_array] at spelled
      exact (List.head_eq_of_cons_eq spelled).symm
    subst isByte
    rw [Cst.depth] at less
    change Reads (JsonParser.array (JsonParser.value fuel)) _ _ _
    rw [JsonParser.array]
    refine (Reads.take JsonError.expected 0x5b).then_ ?_ fun _ _ => trivial
    obtain ⟨byte, bytes, spelled, notBlank, notEnd, -⟩ := first.encode_text
    refine (reads_whitespace before).then_ ?_ fun more _ => by rw [spelled]; exact not_cons notBlank _
    refine Reads.consume_else (@Reads.turns _ _ _ _ _ (fun turns => JsonParser.arrayLoop _ turns []) fun turns enough => ?_) fun more _ => by
      rw [spelled]
      exact @not_cons (· == 0x5d) _ (beq_false_of_ne notEnd) _
    have some_ := length_encode_pos first
    have fewer := rest.count_lt
    simp only [List.length_append] at enough
    obtain ⟨turns, rfl⟩ : ∃ more, turns = more + 1 := ⟨turns - 1, by omega⟩
    have read := reads_arrayLoop (@Cst.parse first fuel (by omega) noBlank) fun found =>
      @Elements.parse rest fuel turns ([] ++ [found]) (by omega) (by omega) after
    exact read.weaken fun _ _ => trivial
  | .null, fuel + 1, _, blank => by
    refine reads_value blank .null fun byte bytes spelled => ?_
    cases spelled
    exact (Reads.keyword JsonError.invalidKeyword [0x6e, 0x75, 0x6c, 0x6c]).map (fun _ => JsonValue.null) |>.weaken fun _ _ => trivial
  | .bool true, fuel + 1, _, blank => by
    refine reads_value blank (.bool true) fun byte bytes spelled => ?_
    cases spelled
    exact (Reads.keyword JsonError.invalidKeyword [0x74, 0x72, 0x75, 0x65]).map (fun _ => JsonValue.bool true) |>.weaken fun _ _ => trivial
  | .bool false, fuel + 1, _, blank => by
    refine reads_value blank (.bool false) fun byte bytes spelled => ?_
    cases spelled
    exact (Reads.keyword JsonError.invalidKeyword [0x66, 0x61, 0x6c, 0x73, 0x65]).map (fun _ => JsonValue.bool false) |>.weaken
      fun _ _ => trivial
  | .number numeral, fuel + 1, _, blank => by
    refine reads_value blank (.number numeral) fun byte bytes spelled => ?_
    rw [Cst.text] at spelled
    obtain ⟨byte', bytes', spelled', areDigits, -⟩ := encode_digits numeral
    rw [spelled] at spelled'
    obtain ⟨rfl, rfl⟩ := List.cons.inj spelled'
    have digit := areDigits byte (List.mem_cons_self ..)
    have other {byte' : UInt8} (outside : byte'.toNat < 0x30 ∨ 0x39 < byte'.toNat) : byte ≠ byte' := digit_ne digit outside
    rw [JsonParser.dispatch, if_neg (other (.inr (by decide))), if_neg (other (.inr (by decide))), if_neg (other (.inl (by decide))),
      if_neg (other (.inr (by decide))), if_neg (other (.inr (by decide))), if_neg (other (.inr (by decide))), if_pos digit, ← spelled]
    have read := (reads_number JsonError.leadingZero .numberNotUtf8 .outOfRange numeral).map JsonValue.number
    rw [Cst.read]
    cases found : parseU64 numeral.digits.chars with
    | none => rw [found] at read; exact read
    | some value => rw [found] at read; exact read
  | .string pieces, fuel + 1, _, blank => by
    refine reads_value blank (.string pieces) fun byte bytes spelled => ?_
    have isByte : byte = 0x22 := (List.head_eq_of_cons_eq spelled).symm
    rw [← spelled]
    subst isByte
    exact pieces.read.map JsonValue.string
  | .emptyArray between, fuel + 1, _, blank => by
    refine reads_value blank (.emptyArray between) fun byte bytes spelled => ?_
    rw [← spelled, encode_emptyArray]
    have isByte : byte = 0x5b := by
      rw [encode_emptyArray] at spelled
      exact (List.head_eq_of_cons_eq spelled).symm
    subst isByte
    change Reads (JsonParser.array (JsonParser.value fuel)) _ _ _
    refine (Reads.take JsonError.expected 0x5b).then_ ?_ fun _ _ => trivial
    refine (reads_whitespace between).then_ ?_ fun _ _ => not_cons (by decide) _
    exact Reads.consume_then (Reads.pure _)
  | .emptyObject between, fuel + 1, _, blank => by
    refine reads_value blank (.emptyObject between) fun byte bytes spelled => ?_
    rw [← spelled, encode_emptyObject]
    have isByte : byte = 0x7b := by
      rw [encode_emptyObject] at spelled
      exact (List.head_eq_of_cons_eq spelled).symm
    subst isByte
    change Reads (JsonParser.object (JsonParser.value fuel)) _ _ _
    refine (Reads.take JsonError.expected 0x7b).then_ ?_ fun _ _ => trivial
    refine (reads_whitespace between).then_ ?_ fun _ _ => not_cons (by decide) _
    exact Reads.consume_then (Reads.pure _)
  | .object before key between gap first after rest, fuel + 1, less, blank => by
    refine reads_value blank (.object before key between gap first after rest) fun byte bytes spelled => ?_
    rw [← spelled, encode_object]
    have isByte : byte = 0x7b := by
      rw [encode_object] at spelled
      exact (List.head_eq_of_cons_eq spelled).symm
    subst isByte
    rw [Cst.depth] at less
    change Reads (JsonParser.object (JsonParser.value fuel)) _ _ _
    rw [JsonParser.object]
    refine (Reads.take JsonError.expected 0x7b).then_ ?_ fun _ _ => trivial
    refine (reads_whitespace before).then_ ?_ fun _ _ => not_cons (by decide) _
    refine Reads.consume_else (@Reads.turns _ _ _ _ _ (fun turns => JsonParser.objectLoop _ turns []) fun turns enough => ?_)
      fun _ _ => @not_cons (· == 0x7d) _ (by decide) _
    have some_ := length_encode_pos first
    have fewer := rest.count_lt
    simp only [List.length_append] at enough
    obtain ⟨turns, rfl⟩ : ∃ more, turns = more + 1 := ⟨turns - 1, by omega⟩
    have read := @reads_objectLoop _ noBlank key between after rest turns [] _ _ (@Cst.parse first fuel (by omega) gap) fun values =>
      @Members.parse rest fuel turns values (by omega) (by omega) after
    exact read.weaken fun _ _ => trivial

theorem Elements.parse : ∀ (rest : Elements) {fuel : ℕ} (turns : ℕ) (values : List JsonValue), rest.depth < fuel → rest.count ≤ turns →
    ∀ blank : Blank, Reads (JsonParser.arrayRest (JsonParser.value fuel) turns values) (encode blank.chars ++ encode rest.text)
      (do return .array (values ++ (← rest.read))) Anything
  | .nil, fuel, turns, values, _, _, blank => by
    rw [JsonParser.arrayRest]
    refine (reads_whitespace blank).then_ ?_ fun more _ => not_cons (by decide) _
    change Reads _ [0x5d] (.ok (JsonValue.array (values ++ []))) _
    rw [List.append_nil]
    exact Reads.consume_then (Reads.pure _)
  | .more before value after rest, fuel, 0, values, _, enough, blank => absurd enough (Nat.not_succ_le_zero _)
  | .more before value after rest, fuel, turns + 1, values, less, enough, blank => by
    rw [Elements.depth] at less
    rw [Elements.count] at enough
    rw [JsonParser.arrayRest]
    have read := reads_arrayLoop (@Cst.parse value fuel (by omega) before) fun found =>
      @Elements.parse rest fuel turns (values ++ [found]) (by omega) (by omega) after
    rw [encode_more]
    refine (reads_whitespace blank).then_ (Reads.consume_else ?_ fun _ _ => @not_cons (· == 0x5d) _ (by decide) _)
      fun more _ => not_cons (by decide) _
    refine (Reads.take JsonError.expected 0x2c).then_ ?_ fun _ _ => trivial
    simp only [Elements.read, bind_assoc, pure_bind]
    exact read

theorem Members.parse : ∀ (rest : Members) {fuel : ℕ} (turns : ℕ) (values : List (Text × JsonValue)), rest.depth < fuel → rest.count ≤ turns →
    ∀ blank : Blank, Reads (JsonParser.objectRest (JsonParser.value fuel) turns values) (encode blank.chars ++ encode rest.text)
      (do return .object (← rest.read values)) Anything
  | .nil, fuel, turns, values, _, _, blank => by
    rw [JsonParser.objectRest]
    refine (reads_whitespace blank).then_ ?_ fun more _ => not_cons (by decide) _
    change Reads _ [0x7d] (.ok (JsonValue.object values)) _
    exact Reads.consume_then (Reads.pure _)
  | .more before key between gap value after rest, fuel, 0, values, _, enough, blank => absurd enough (Nat.not_succ_le_zero _)
  | .more before key between gap value after rest, fuel, turns + 1, values, less, enough, blank => by
    rw [Members.depth] at less
    rw [Members.count] at enough
    rw [JsonParser.objectRest]
    have read := @reads_objectLoop _ before key between after rest turns values _ _ (@Cst.parse value fuel (by omega) gap) fun values =>
      @Members.parse rest fuel turns values (by omega) (by omega) after
    rw [encode_moreMembers]
    refine (reads_whitespace blank).then_ (Reads.consume_else ?_ fun _ _ => @not_cons (· == 0x7d) _ (by decide) _)
      fun more _ => not_cons (by decide) _
    refine (Reads.take JsonError.expected 0x2c).then_ ?_ fun _ _ => trivial
    simp only [Members.read, bind_assoc]
    exact read

end

end Trees

end HellRs.Evidence
